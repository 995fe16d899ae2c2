/-
  Packrat.Proofs.Coherence

  The invariant of the engine (`Coherent`).  It ties the buffer, the marks, the
  memo and the notes of the current recognition to one another and to the
  stream of the source: the buffer is a window onto the stream, the marks do
  not decrease from the oldest to the newest and none lies behind the cursor,
  and whatever is kept or noted is about tokens that were pulled.

  Every step preserves it (`Upholds`), operations on the marks and compactions
  included.  Only rules through their memo need more of their body than that it
  preserves the invariant: it has to leave the marks as they were, or an
  outcome might end before it starts.
-/

import Packrat.Proofs.Atomicity

namespace Packrat

namespace Mismatch

/-- The mismatch that a kept point stands for. -/
def ofPoint (t : Nat → Token) (p : FailurePoint) : Mismatch :=
  ⟨p.position, t p.position, p.expected⟩

theorem map_point_map_ofPoint (t : Nat → Token) (point : Option FailurePoint) :
    (point.map (ofPoint t)).map Mismatch.point = point := by
  cases point <;> rfl

theorem onStream_map_ofPoint (t : Nat → Token) (point : Option FailurePoint) :
    OnStream t (point.map (ofPoint t)) := by
  intro m hm
  obtain ⟨p, -, rfl⟩ := Option.map_eq_some_iff.1 hm
  rfl

/-- The mismatch lies between two places. -/
def Between (low high : Nat) (a : Option Mismatch) : Prop :=
  ∀ m, a = some m → low ≤ m.position ∧ m.position < high

theorem Between.join {low high : Nat} {a b : Option Mismatch} (ha : Between low high a)
    (hb : Between low high b) : Between low high (join a b) := by
  cases b with
  | none => exact ha
  | some n =>
      cases a with
      | none => simpa using hb
      | some m =>
          have hm := ha m rfl
          have hn := hb n rfl
          rintro _ ⟨⟩
          rw [position_furthest_some]
          omega

theorem Between.mono {low low' high high' : Nat} {a : Option Mismatch} (h : Between low high a)
    (hlow : low' ≤ low) (hhigh : high ≤ high') : Between low' high' a := by
  intro m hm
  have := h m hm
  omega

end Mismatch

namespace Engine

variable {σ ν α β : Type} [TokenSource σ] {s : σ} {low : Nat} {e e' : Engine σ}

/-- What holds of an engine on the stream of `s` between any two steps.  No mismatch that is
    noted lies before token number `low`. -/
structure Coherent (s : σ) (low : Nat) (e : Engine σ) : Prop where
  window : e.buffer.IsWindow s
  low_le : low ≤ e.buffer.base
  marks : (e.buffer.cursor :: e.speculation.marks).Pairwise (· ≥ ·)
  counts : e.speculation.opens
    = e.speculation.abandons + e.speculation.commits + e.speculation.depth
  stops : ∀ id pos stop point, e.memo.get? id pos = some (.parsed stop point) →
    pos ≤ stop ∧ stop ≤ e.buffer.size
  points : ∀ id pos outcome p, e.memo.get? id pos = some outcome → outcome.furthest = some p →
    e.buffer.base ≤ p.position ∧ p.position < e.buffer.pulled
  onStream : Mismatch.OnStream (TokenSource.stream s) e.furthest
  furthest : Mismatch.Between low e.buffer.pulled e.furthest
  depthHit : ∀ hit, e.depthHit = some hit →
    hit.span = (TokenSource.stream s hit.position).span ∧ hit.position < e.buffer.pulled

theorem coherent_ofSource (settings : Settings) (s : σ) : Coherent s 0 (ofSource settings s) where
  window := Lookahead.isWindow_ofSource s
  low_le := Nat.le_refl 0
  marks := List.pairwise_singleton _ _
  counts := rfl
  stops id pos stop point hget := absurd hget (by simp [ofSource])
  points id pos outcome p hget := absurd hget (by simp [ofSource])
  onStream := Mismatch.onStream_none _
  furthest _ hm := nomatch hm
  depthHit _ hhit := nomatch hhit

namespace Coherent

theorem mark_le (h : Coherent s low e) {mark : Nat} (hmem : mark ∈ e.speculation.marks) :
    mark ≤ e.buffer.cursor :=
  (List.pairwise_cons.1 h.marks).1 mark hmem

/-- Steps that leave the buffer, the marks and the notes alone and count at most in the memo. -/
theorem same (h : Coherent s low e) (hbuffer : e'.buffer = e.buffer)
    (hspeculation : e'.speculation = e.speculation)
    (hmemo : ∀ id pos, e'.memo.get? id pos = e.memo.get? id pos)
    (hfurthest : e'.furthest = e.furthest) (hhit : e'.depthHit = e.depthHit) :
    Coherent s low e' where
  window := hbuffer ▸ h.window
  low_le := hbuffer ▸ h.low_le
  marks := by rw [hbuffer, hspeculation]; exact h.marks
  counts := by rw [hspeculation]; exact h.counts
  stops id pos stop point hget :=
    hbuffer ▸ h.stops id pos stop point ((hmemo id pos).symm.trans hget)
  points id pos outcome p hget :=
    hbuffer ▸ h.points id pos outcome p ((hmemo id pos).symm.trans hget)
  onStream := hfurthest ▸ h.onStream
  furthest := by rw [hbuffer, hfurthest]; exact h.furthest
  depthHit := by rw [hbuffer, hhit]; exact h.depthHit

/-- Steps of the buffer that drop nothing and go no way back. -/
theorem withBuffer (h : Coherent s low e) {b : Lookahead σ} (hwindow : b.IsWindow s)
    (hbase : b.base = e.buffer.base) (hsize : e.buffer.size ≤ b.size)
    (hcursor : e.buffer.cursor ≤ b.cursor) : Coherent s low { e with buffer := b } := by
  have hpulled : e.buffer.pulled ≤ b.pulled := by
    rw [h.window.pulled_eq, hwindow.pulled_eq, hbase]
    exact Nat.add_le_add_left hsize _
  obtain ⟨hnewest, hsorted⟩ := List.pairwise_cons.1 h.marks
  exact {
    window := hwindow
    low_le := by show low ≤ b.base; rw [hbase]; exact h.low_le
    marks := List.pairwise_cons.2
      ⟨fun mark hmem => Nat.le_trans (hnewest mark hmem) hcursor, hsorted⟩
    counts := h.counts
    stops id pos stop point hget :=
      (h.stops id pos stop point hget).imp_right fun hle => Nat.le_trans hle hsize
    points id pos outcome p hget hp := by
      obtain ⟨hle, hlt⟩ := h.points id pos outcome p hget hp
      exact ⟨by show b.base ≤ _; rwa [hbase], Nat.lt_of_lt_of_le hlt hpulled⟩
    onStream := h.onStream
    furthest := h.furthest.mono (Nat.le_refl low) hpulled
    depthHit hit hhit :=
      (h.depthHit hit hhit).imp_right fun hlt => Nat.lt_of_lt_of_le hlt hpulled }

theorem reach (h : Coherent s low e) (k : Nat) :
    Coherent s low { e with buffer := e.buffer.reach k } := by
  have hsize : (e.buffer.reach k).size = _ := Lookahead.size_pullMany _ _
  exact h.withBuffer (h.window.reach k) (Lookahead.base_pullMany _ _) (by omega)
    (Nat.le_of_eq (Lookahead.cursor_pullMany _ _).symm)

theorem consume (h : Coherent s low e) : Coherent s low { e with buffer := e.buffer.consume } := by
  have hsize : (e.buffer.reach 1).size = _ := Lookahead.size_pullMany _ _
  have hcursor : (e.buffer.reach 1).cursor = e.buffer.cursor := Lookahead.cursor_pullMany _ _
  refine h.withBuffer h.window.consume (Lookahead.base_pullMany _ _) ?_ ?_
  · show _ ≤ (e.buffer.reach 1).size
    omega
  · show _ ≤ (e.buffer.reach 1).cursor + 1
    omega

/-- One more mismatch of a token that was pulled. -/
theorem join (h : Coherent s low e) {a : Option Mismatch}
    (ha : Mismatch.OnStream (TokenSource.stream s) a)
    (hbetween : Mismatch.Between e.buffer.base e.buffer.pulled a) :
    Coherent s low { e with furthest := Mismatch.join e.furthest a } where
  window := h.window
  low_le := h.low_le
  marks := h.marks
  counts := h.counts
  stops := h.stops
  points := h.points
  onStream := h.onStream.join ha
  furthest := h.furthest.join (hbetween.mono h.low_le (Nat.le_refl _))
  depthHit := h.depthHit

/-- The next token is not of the kind. -/
theorem expecting (h : Coherent s low e) (hpulled : e.buffer.position < e.buffer.pulled)
    (kind : Kind) {found : Token} (hfound : found = TokenSource.stream s e.buffer.position) :
    Coherent s low (e.expecting kind found) := by
  refine h.join (a := some ⟨e.buffer.position, found, .single kind⟩) ?_ ?_
  · rintro m ⟨⟩
    exact hfound
  · rintro m ⟨⟩
    exact ⟨Nat.le_add_right _ _, hpulled⟩

theorem position_lt_reach (h : Coherent s low e) :
    (e.buffer.reach 1).position < (e.buffer.reach 1).pulled := by
  have hsame : (e.buffer.reach 1).position = e.buffer.position := by
    simp [Lookahead.position, Lookahead.reach]
  rw [hsame, h.window.pulled_reach]
  omega

/-- A replay finds the token of the point in the buffer. -/
theorem replay_eq (h : Coherent s low e) {point : Option FailurePoint}
    (hpoint : ∀ p, point = some p → e.buffer.base ≤ p.position ∧ p.position < e.buffer.pulled) :
    replay point e = .ok () { e with
      furthest := Mismatch.join e.furthest
        (point.map (Mismatch.ofPoint (TokenSource.stream s))) } := by
  have hreplay := Engine.replay_eq h.window
    (Mismatch.onStream_map_ofPoint (TokenSource.stream s) point) (by
      intro m hm
      obtain ⟨p, hp, rfl⟩ := Option.map_eq_some_iff.1 hm
      exact hpoint p hp)
  rwa [Mismatch.map_point_map_ofPoint] at hreplay

theorem replayed (h : Coherent s low e) {point : Option FailurePoint}
    (hpoint : ∀ p, point = some p → e.buffer.base ≤ p.position ∧ p.position < e.buffer.pulled) :
    Coherent s low { e with
      furthest := Mismatch.join e.furthest
        (point.map (Mismatch.ofPoint (TokenSource.stream s))) } := by
  refine h.join (Mismatch.onStream_map_ofPoint _ _) ?_
  intro m hm
  obtain ⟨p, hp, rfl⟩ := Option.map_eq_some_iff.1 hm
  exact hpoint p hp

-- ============================================================================
-- Marks and compactions
-- ============================================================================

theorem pushed (h : Coherent s low e) : Coherent s low e.pushed where
  window := h.window
  low_le := h.low_le
  marks := by
    refine List.pairwise_cons.2 ⟨fun mark hmem => ?_, h.marks⟩
    rcases List.mem_cons.1 hmem with rfl | hmem
    · exact Nat.le_refl _
    · exact h.mark_le hmem
  counts := by
    show e.speculation.opens + 1 = _ + _ + (e.speculation.depth + 1)
    rw [h.counts]
    rfl
  stops := h.stops
  points := h.points
  onStream := h.onStream
  furthest := h.furthest
  depthHit := h.depthHit

theorem abandoned (h : Coherent s low e) {mark : Nat} {marks : List Nat}
    (hmarks : e.speculation.marks = mark :: marks) : Coherent s low (e.abandoned mark marks) where
  window := by
    have hle : mark ≤ e.buffer.cursor := h.mark_le (by simp [hmarks])
    exact h.window.moveTo (Nat.le_trans hle h.window.cursor_le)
  low_le := h.low_le
  marks := by
    have hsorted := (List.pairwise_cons.1 h.marks).2
    rwa [hmarks] at hsorted
  counts := by
    have hcounts := h.counts
    simp only [Speculation.depth, hmarks, List.length_cons] at hcounts
    show e.speculation.opens = e.speculation.abandons + 1 + e.speculation.commits + marks.length
    omega
  stops := h.stops
  points := h.points
  onStream := h.onStream
  furthest := h.furthest
  depthHit := h.depthHit

theorem committed (h : Coherent s low e) {mark : Nat} {marks : List Nat}
    (hmarks : e.speculation.marks = mark :: marks) : Coherent s low (e.committed marks) where
  window := h.window
  low_le := h.low_le
  marks := by
    have hsorted := h.marks
    rw [hmarks] at hsorted
    obtain ⟨hnewest, hrest⟩ := List.pairwise_cons.1 hsorted
    exact List.pairwise_cons.2 ⟨fun mark' hmem => hnewest mark' (List.mem_cons_of_mem _ hmem),
      (List.pairwise_cons.1 hrest).2⟩
  counts := by
    have hcounts := h.counts
    simp only [Speculation.depth, hmarks, List.length_cons] at hcounts
    show e.speculation.opens = e.speculation.abandons + (e.speculation.commits + 1) + marks.length
    omega
  stops := h.stops
  points := h.points
  onStream := h.onStream
  furthest := h.furthest
  depthHit := h.depthHit

/-- A compaction leaves nothing kept that could be out of place. -/
theorem compacted (h : Coherent s low e) (hmarks : e.speculation.marks = []) :
    Coherent s low e.compacted where
  window := h.window.clear
  low_le := Nat.le_trans h.low_le (Nat.le_add_right _ _)
  marks := by
    show (_ :: e.speculation.marks).Pairwise _
    rw [hmarks]
    exact List.pairwise_singleton _ _
  counts := h.counts
  stops id pos stop point hget := by
    have hnone : e.compacted.memo.get? id pos = none := Memo.get?_clear _ _ _
    rw [hnone] at hget
    cases hget
  points id pos outcome p hget := by
    have hnone : e.compacted.memo.get? id pos = none := Memo.get?_clear _ _ _
    rw [hnone] at hget
    cases hget
  onStream := h.onStream
  furthest := h.furthest
  depthHit := h.depthHit

theorem of_compact (h : Coherent s low e) (hrun : compact e = .ok () e') : Coherent s low e' := by
  obtain ⟨hmarks, -, rfl⟩ := compact_eq_ok hrun
  exact h.compacted hmarks

theorem of_commit (h : Coherent s low e) (hrun : commit e = .ok () e') : Coherent s low e' := by
  obtain ⟨mark, marks, hmarks, hcommit⟩ := commit_eq_ok hrun
  rcases hcommit with rfl | ⟨rfl, -, rfl⟩
  · exact h.committed hmarks
  · exact (h.committed hmarks).compacted rfl

theorem of_abandon (h : Coherent s low e) (hrun : abandon e = .ok () e') : Coherent s low e' := by
  obtain ⟨mark, marks, hmarks, -, rfl⟩ := abandon_eq_ok hrun
  exact h.abandoned hmarks

/-- What has a mark of its own can be closed. -/
theorem close_eq (h : Coherent s low e) {mark : Nat} {marks : List Nat}
    (hmarks : e.speculation.marks = mark :: marks) (matched : Bool) :
    ∃ e', close matched e = .ok () e' := by
  cases matched with
  | false =>
      have hle : mark ≤ e.buffer.cursor := h.mark_le (by simp [hmarks])
      exact ⟨_, abandon_of_le hmarks (Nat.le_trans hle h.window.cursor_le)⟩
  | true =>
      have hcommit : close true e = _ := commit_of_cons hmarks
      rw [hcommit]
      split
      · next hcan =>
          rw [Bool.and_eq_true] at hcan
          rw [compact, if_pos hcan.1]
          exact ⟨_, rfl⟩
      · exact ⟨_, rfl⟩

end Coherent

-- ============================================================================
-- Steps that preserve the invariant
-- ============================================================================

/-- Whenever the step ends, the engine is as coherent as before. -/
def Upholds (s : σ) (m : Run σ α) : Prop :=
  ∀ low e a e', Coherent s low e → m e = .ok a e' → Coherent s low e'

namespace Upholds

theorem composes : Composes fun m : Run σ _ => Upholds s m := by
  have hrelates : Composes fun m : Run σ _ =>
      Relates (fun e e' => ∀ low, Coherent s low e → Coherent s low e') m :=
    .relates (fun _ _ h => h) fun h h' low hc => h' low (h low hc)
  refine hrelates.congr ⟨?_, ?_⟩
  · intro h low e a e' hc hrun
    exact h e a e' hrun low hc
  · intro h e a e' hrun low hc
    exact h low e a e' hc hrun

theorem peek (k : Nat) : Upholds s (Engine.peek k : Run σ Token) := by
  intro low e a e' h hrun
  rw [peek_eq_ok hrun]
  exact h.reach k

theorem takeKind (kind : Kind) : Upholds s (Engine.takeKind kind : Run σ Bool) := by
  intro low e a e' h hrun
  by_cases hkind : (TokenSource.stream s e.buffer.position).kind = kind
  · rw [takeKind_of_eq h.window hkind] at hrun
    cases hrun
    exact (h.reach 1).consume
  · rw [takeKind_of_ne h.window hkind] at hrun
    cases hrun
    refine (h.reach 1).expecting h.position_lt_reach kind ?_
    simp [Lookahead.position, Lookahead.reach]

theorem atDelimiter (kind : Kind) : Upholds s (Engine.atDelimiter kind : Run σ Bool) := by
  intro low e a e' h hrun
  rcases atDelimiter_eq_ok h.window hrun with rfl | rfl
  · exact h.reach 1
  · refine (h.reach 1).expecting h.position_lt_reach kind ?_
    simp [Lookahead.position, Lookahead.reach]

theorem noteDepthHit : Upholds s (Engine.noteDepthHit : Run σ Unit) := by
  intro low e a e' h hrun
  rcases noteDepthHit_eq_ok h.window hrun with ⟨-, rfl⟩ | ⟨-, rfl⟩
  · exact h
  · have hreach := h.reach 1
    have hlt := h.position_lt_reach
    simp only [Lookahead.position, Lookahead.reach, Lookahead.base_pullMany,
      Lookahead.cursor_pullMany] at hlt
    exact { hreach with
      depthHit := by
        rintro _ ⟨⟩
        exact ⟨rfl, hlt⟩ }

theorem stackStep (step : StackStep) : Upholds s (Engine.stackStep step : Run σ Unit) := by
  intro low e a e' h hrun
  cases step with
  | openMark =>
      cases hrun
      exact h.pushed
  | abandon => exact h.of_abandon hrun
  | commit => exact h.of_commit hrun
  | compact => exact h.of_compact hrun

theorem close (matched : Bool) : Upholds s (Engine.close matched : Run σ Unit) := by
  intro low e a e' h hrun
  cases matched with
  | true => exact h.of_commit hrun
  | false => exact h.of_abandon hrun

theorem speculate {body : Run σ Bool} (hbody : Upholds s body) :
    Upholds s (Engine.speculate body) :=
  composes.speculate (stackStep .openMark) close hbody

theorem matchKind (kind : Kind) : Upholds s (Engine.matchKind kind : Run σ Bool) :=
  speculate (takeKind kind)

theorem nested {body : Run σ Bool} (hbody : Upholds s body) :
    Upholds s (Engine.nested body) := by
  intro low e a e' h hrun
  rcases nested_eq_ok hrun with ⟨-, hnote⟩ | ⟨-, e₁, hrun₁, rfl⟩
  · exact noteDepthHit _ _ _ _ h hnote
  · have hdeeper : Coherent s low { e with depth := e.depth + 1 } :=
      h.same rfl rfl (fun _ _ => rfl) rfl rfl
    exact (hbody _ _ _ _ hdeeper hrun₁).same rfl rfl (fun _ _ => rfl) rfl rfl

end Upholds

-- ============================================================================
-- Rules through their memo
-- ============================================================================

theorem Coherent.counted (h : Coherent s low e) (id : RuleId) : Coherent s low (e.counted id) :=
  h.same rfl rfl (fun _ _ => rfl) rfl rfl

/-- A body whose outcome is going to be kept starts without a mismatch, so all that it notes
    lies in the buffer. -/
theorem Coherent.fresh (h : Coherent s low e) (id : RuleId) :
    Coherent s e.buffer.base (e.fresh id) where
  window := h.window
  low_le := Nat.le_refl _
  marks := h.marks
  counts := h.counts
  stops id' pos stop point hget := h.stops id' pos stop point
    ((Memo.get?_snd_lookup e.memo id id' _ pos).symm.trans hget)
  points id' pos outcome p hget := h.points id' pos outcome p
    ((Memo.get?_snd_lookup e.memo id id' _ pos).symm.trans hget)
  onStream := Mismatch.onStream_none _
  furthest _ hm := nomatch hm
  depthHit := h.depthHit

/-- Replaying a kept outcome ends, merges its point into the notes, and leads where the outcome
    stopped. -/
theorem Coherent.replayOutcome (h : Coherent s low e) {id : RuleId} {outcome : Outcome}
    (hget : e.memo.get? id e.buffer.cursor = some outcome) {memo : Memo}
    (hmemo : ∀ id pos, memo.get? id pos = e.memo.get? id pos) :
    ∃ matched e', replayOutcome outcome { e with memo } = .ok matched e' ∧ Coherent s low e' ∧
      e'.furthest = Mismatch.join e.furthest
        (outcome.furthest.map (Mismatch.ofPoint (TokenSource.stream s))) := by
  have h' : Coherent s low { e with memo } := h.same rfl rfl hmemo rfl rfl
  have hpoint : ∀ p, outcome.furthest = some p →
      e.buffer.base ≤ p.position ∧ p.position < e.buffer.pulled :=
    fun p hp => h.points id _ outcome p hget hp
  have hreplay := h'.replay_eq hpoint
  have hreplayed := h'.replayed hpoint
  cases outcome with
  | failed point => exact ⟨false, _, Run.bind_of_ok hreplay, hreplayed, rfl⟩
  | parsed stop point =>
      obtain ⟨hpos, hstop⟩ := h.stops id _ stop point hget
      have hseek := seek_eq (e := { e with
        memo
        furthest := Mismatch.join e.furthest
          (point.map (Mismatch.ofPoint (TokenSource.stream s))) }) hstop
      refine ⟨true, _, (Run.bind_of_ok hreplay).trans (Run.bind_of_ok hseek), ?_, rfl⟩
      exact hreplayed.withBuffer (h.window.moveTo hstop) rfl (Nat.le_refl _) hpos

/-- A body that matches under a mark of its own ends where it started or behind that. -/
theorem Coherent.cursor_le_of_speculate (h : Coherent s low e) {body : Run σ Bool}
    (hsteady : Steady body) (hbody : Upholds s body) (hopen : e.speculation.marks ≠ [])
    (hrun : speculate body e = .ok true e') : e.buffer.cursor ≤ e'.buffer.cursor := by
  obtain ⟨e₁, hrun₁, hclose⟩ := speculate_eq_ok hrun
  have hmarks : e₁.speculation.marks = e.buffer.cursor :: e.speculation.marks :=
    (hsteady _ _ _ hrun₁).balanced.marks
  have hcommit : close true e₁ = .ok () (e₁.committed e.speculation.marks) :=
    commit_of_open hmarks hopen
  rw [hcommit] at hclose
  cases hclose
  have hcoherent := hbody _ _ _ _ h.pushed hrun₁
  exact hcoherent.mark_le (by simp [hmarks])

/-- The outcome of a body is kept in place. -/
theorem Coherent.keepOutcome (h : Coherent s low e) {id : RuleId} {matched : Bool}
    {e₁ : Engine σ} (h₁ : Coherent s e.buffer.base e₁) (hbase : e₁.buffer.base = e.buffer.base)
    (hpulled : e.buffer.pulled ≤ e₁.buffer.pulled)
    (hcursor : matched = true → e.buffer.cursor ≤ e₁.buffer.cursor)
    (hrun : Engine.keepOutcome id e.buffer.cursor e.furthest matched e₁ = .ok () e') :
    Coherent s low e' := by
  rw [keepOutcome_eq] at hrun
  cases hrun
  have hlow : low ≤ e.buffer.base := h.low_le
  have hpoint : ∀ p, e₁.furthest.map Mismatch.point = some p →
      e₁.buffer.base ≤ p.position ∧ p.position < e₁.buffer.pulled := by
    intro p hp
    obtain ⟨m, hm, rfl⟩ := Option.map_eq_some_iff.1 hp
    rw [hbase]
    exact h₁.furthest m hm
  exact {
    window := h₁.window
    low_le := by show low ≤ e₁.buffer.base; rw [hbase]; exact hlow
    marks := h₁.marks
    counts := h₁.counts
    stops := by
      intro id' pos stop point hget
      simp only at hget
      split at hget
      · rw [Memo.get?_record] at hget
        split at hget
        · next heq =>
            obtain ⟨rfl, rfl⟩ := heq
            cases matched with
            | true =>
                cases hget
                exact ⟨hcursor rfl, h₁.window.cursor_le⟩
            | false => cases hget
        · exact h₁.stops id' pos stop point hget
      · exact h₁.stops id' pos stop point hget
    points := by
      intro id' pos outcome p hget hp
      simp only at hget
      split at hget
      · rw [Memo.get?_record] at hget
        split at hget
        · cases hget
          apply hpoint
          cases matched with
          | true => exact hp
          | false => exact hp
        · exact h₁.points id' pos outcome p hget hp
      · exact h₁.points id' pos outcome p hget hp
    onStream := h₁.onStream.join h.onStream
    furthest := (h₁.furthest.mono hlow (Nat.le_refl _)).join
      (h.furthest.mono (Nat.le_refl low) hpulled)
    depthHit := h₁.depthHit }

theorem Upholds.memoized {id : RuleId} {body : Run σ Bool} (hsteady : Steady body)
    (hbody : Upholds s body) : Upholds s (Engine.memoized id body) := by
  intro low e matched e' h hrun
  rcases memoized_eq_ok hrun with hplain | ⟨outcome, hget, hreplay⟩ | ⟨hopen, -, e₁, hnew, hkeep⟩
  · exact speculate hbody _ _ _ _ (h.counted id) hplain
  · obtain ⟨matched', e₁, hreplay', hcoherent, -⟩ :=
      h.replayOutcome hget fun id' pos => Memo.get?_snd_lookup e.memo id id' _ pos
    rw [hreplay'] at hreplay
    cases hreplay
    exact hcoherent
  · have hfresh := h.fresh id
    have hcoherent := speculate hbody _ _ _ _ hfresh hnew
    have hgrown := (hsteady.close_speculate hnew).1.grown hopen
    refine h.keepOutcome hcoherent hgrown.base hgrown.pulled_le ?_ hkeep
    rintro rfl
    exact hfresh.cursor_le_of_speculate hsteady hbody hopen hnew

-- ============================================================================
-- Rules and recognitions
-- ============================================================================

theorem Upholds.compositional : Compositional fun m : Run σ _ => Steady m ∧ Upholds s m where
  toComposes := Steady.composes.and composes
  peek k := ⟨.peek k, peek k⟩
  matchKind kind := ⟨.matchKind kind, matchKind kind⟩
  atDelimiter delimiter := ⟨.atDelimiter delimiter, atDelimiter delimiter⟩
  speculate h := ⟨h.1.speculate, speculate h.2⟩
  memoized h := ⟨h.1.memoized, memoized h.1 h.2⟩
  nested h := ⟨h.1.nested, nested h.2⟩

/-- Every rule that works on no marks preserves the invariant. -/
theorem Upholds.eval {g : Grammar ν} (hg : ∀ name, (g name).StackFree) (n : Nat) {rule : Rule ν}
    (hrule : rule.StackFree) : Upholds s (Engine.eval g n rule : Run σ Bool) :=
  (compositional.eval n (.inr ⟨hg, hrule⟩)).2

theorem Coherent.begun (h : Coherent s low e) : Coherent s low e.begun where
  window := h.window
  low_le := h.low_le
  marks := h.marks
  counts := h.counts
  stops := h.stops
  points := h.points
  onStream := Mismatch.onStream_none _
  furthest _ hm := nomatch hm
  depthHit _ hhit := nomatch hhit

end Engine

/-- The error is what a recognition says of token `i` of the stream. -/
def ParseError.IsAbout (t : Nat → Token) (i : Nat) : ParseError → Prop
  | .lexical _ => False
  | .syntaxError err => ∃ expected, err = .ofToken i (t i) expected
  | .nestingLimit _ position span => position = i ∧ span = (t i).span

namespace Engine

variable {σ ν : Type} [TokenSource σ] {s : σ} {low : Nat} {e e' : Engine σ}

/-- What is reported is about a token that was pulled. -/
theorem Coherent.failure (h : Coherent s low e) {err : ParseError}
    (hrun : failure e = .ok err e') :
    Coherent s low e' ∧ ∃ i, i < e'.buffer.pulled ∧ err.IsAbout (TokenSource.stream s) i := by
  cases hhit : e.depthHit with
  | some hit =>
      rw [failure_of_hit hhit] at hrun
      cases hrun
      obtain ⟨hspan, hlt⟩ := h.depthHit hit hhit
      exact ⟨h, hit.position, hlt, rfl, hspan⟩
  | none =>
      cases hfurthest : e.furthest with
      | some m =>
          rw [failure_of_mismatch hhit hfurthest] at hrun
          cases hrun
          refine ⟨h, m.position, (h.furthest m hfurthest).2, m.expected, ?_⟩
          rw [← h.onStream m hfurthest]
      | none =>
          rw [failure_of_none h.window hhit hfurthest] at hrun
          cases hrun
          refine ⟨h.reach 1, e.buffer.position, ?_, .empty, rfl⟩
          have hlt := h.position_lt_reach
          simpa [Lookahead.position, Lookahead.reach] using hlt

/-- A recognition whose body matches returns what the body took, and commits. -/
theorem Coherent.recognizing_of_match {e₁ : Engine σ} (h : Coherent s low e₁)
    (htidy : Tidy e.begun.pushed e₁) {body : Run σ Bool}
    (hbody : body e.begun.pushed = .ok true e₁) :
    ∃ e', commit e₁ = .ok () e' ∧ Engine.recognizing body e = .ok (.ok ⟨e.buffer.position,
      stretch (TokenSource.stream s) e.buffer.position e₁.buffer.position⟩) e' := by
  have hmarks : e₁.speculation.marks = e.buffer.cursor :: e.speculation.marks :=
    htidy.balanced.marks
  have hbase : e₁.buffer.base = e.buffer.base := (htidy.grown (List.cons_ne_nil _ _)).base
  have hmark : e.buffer.cursor ≤ e₁.buffer.cursor := h.mark_le (by simp [hmarks])
  have hsize := h.window.cursor_le
  have hcursor : cursor e₁ = .ok e₁.buffer.cursor e₁ := rfl
  obtain ⟨e', hclose⟩ := h.close_eq hmarks true
  have hcommit : commit e₁ = .ok () e' := hclose
  refine ⟨e', hcommit, ?_⟩
  rw [recognizing_eq, Run.bind_of_ok hbody, if_pos rfl, Run.bind_of_ok hcursor,
    Run.bind_of_ok (slice_eq hmark hsize), Run.bind_of_ok hcommit, h.window.extract_eq hsize, hbase]
  simp only [Lookahead.position, hbase]
  rfl

/-- A recognition whose body does not match goes back and reports why. -/
theorem Coherent.recognizing_of_mismatch {e₁ : Engine σ} (h : Coherent s low e₁)
    (htidy : Tidy e.begun.pushed e₁) {body : Run σ Bool}
    (hbody : body e.begun.pushed = .ok false e₁) :
    Engine.recognizing body e = (do return .error (← Engine.failure) : Run σ _)
      (e₁.abandoned e.buffer.cursor e.speculation.marks) := by
  have hmarks : e₁.speculation.marks = e.buffer.cursor :: e.speculation.marks :=
    htidy.balanced.marks
  have hmark : e.buffer.cursor ≤ e₁.buffer.cursor := h.mark_le (by simp [hmarks])
  have habandon := abandon_of_le hmarks (Nat.le_trans hmark h.window.cursor_le)
  rw [recognizing_eq, Run.bind_of_ok hbody, if_neg Bool.false_ne_true, Run.bind_of_ok habandon]

/-- A recognition preserves the invariant; what it returns or reports is about tokens that were
    pulled. -/
theorem Coherent.recognizing (h : Coherent s low e) {body : Run σ Bool} (hsteady : Steady body)
    (hbody : Upholds s body) {result : Except ParseError Match}
    (hrun : Engine.recognizing body e = .ok result e') :
    Coherent s low e' ∧
      (∀ found, result = .ok found → found.stop ≤ e'.buffer.pulled) ∧
      ∀ err, result = .error err →
        ∃ i, i < e'.buffer.pulled ∧ err.IsAbout (TokenSource.stream s) i := by
  obtain ⟨e₁, ⟨hrun₁, hcommit, hle, hstop, rfl⟩ | ⟨hrun₁, e₂, err, habandon, hfailure, rfl⟩⟩ :=
    recognizing_eq_ok hrun
  · have h₁ := hbody _ _ _ _ h.begun.pushed hrun₁
    refine ⟨h₁.of_commit hcommit, ?_, by simp⟩
    rintro _ ⟨⟩
    have hbase : e₁.buffer.base = e.buffer.base :=
      ((hsteady _ _ _ hrun₁).grown (List.cons_ne_nil _ _)).base
    have hpulled : e'.buffer.pulled = e₁.buffer.pulled := pulled_of_commit hcommit
    have hwindow := h₁.window.pulled_eq
    simp only [Match.stop, Match.length, Array.length_toList, Array.size_extract,
      Lookahead.position]
    simp only [Lookahead.size] at hstop hwindow
    omega
  · have h₁ := hbody _ _ _ _ h.begun.pushed hrun₁
    obtain ⟨h₃, i, hlt, habout⟩ := (h₁.of_abandon habandon).failure hfailure
    refine ⟨h₃, by simp, ?_⟩
    rintro _ ⟨⟩
    exact ⟨i, hlt, habout⟩

theorem Upholds.recognize {g : Grammar ν} (hg : ∀ name, (g name).StackFree) (n : Nat)
    {rule : Rule ν} (hrule : rule.StackFree) :
    Upholds s (Engine.recognize g n rule : Run σ (Except ParseError Match)) :=
  fun _ _ _ _ h hrun => (h.recognizing (.eval hg n hrule) (.eval hg n hrule) hrun).1

end Engine
end Packrat
