/-
  Packrat.Proofs.Lockstep

  An engine that keeps outcomes and one that keeps none run in step.

  `Sim` relates their states: they agree on all but the outcomes, the counters
  and the furthest mismatch, of which the keeping engine has only the part
  since the innermost rule whose outcome is going to be kept (`outer` is the
  rest), and every outcome that is kept is trusted.  `Lockstep` relates what
  comes of a step, provided that the engine without outcomes does not run out
  of fuel.

  Proven by induction on the fuel with one case for each constructor.  The case
  of a memoized rule is the only one in which the engines part: a kept outcome
  is compared with a plain reading of the rule, and an outcome is found to be
  worth keeping by running the lockstep of the body a second time, from no
  mismatch.
-/

import Packrat.Proofs.Discipline
import Packrat.Proofs.Latch

namespace Packrat
namespace Engine

variable {σ ν α β : Type} [TokenSource σ] {s : σ} {g : Grammar ν} {maxDepth : Nat}
variable {S : Discipline (TokenSource.stream s) g maxDepth} {outer : Option Mismatch}
variable {e₁ e₂ : Engine σ}

/-- An engine with kept outcomes and one without stand at the same point of a run. -/
structure Sim (S : Discipline (TokenSource.stream s) g maxDepth) (outer : Option Mismatch)
    (e₁ e₂ : Engine σ) : Prop where
  buffer : e₁.buffer = e₂.buffer
  marks : e₁.speculation.marks = e₂.speculation.marks
  depth : e₁.depth = e₂.depth
  depthHit : e₁.depthHit = e₂.depthHit
  keeping : e₁.settings = ⟨true, maxDepth⟩
  plain : e₂.settings = ⟨false, maxDepth⟩
  window : e₂.buffer.IsWindow s
  furthest : e₂.furthest = Mismatch.join outer e₁.furthest
  onStream_outer : Mismatch.OnStream (TokenSource.stream s) outer
  onStream : Mismatch.OnStream (TokenSource.stream s) e₁.furthest
  trusted : ∀ id pos outcome, e₁.memo.get? id pos = some outcome →
    S.Trusted e₁.buffer.base e₁.buffer.pulled id pos outcome

/-- The engines stopped at the same point. -/
structure Agree (e₁ e₂ : Engine σ) : Prop where
  buffer : e₁.buffer = e₂.buffer
  marks : e₁.speculation.marks = e₂.speculation.marks

/-- The step of the engine without outcomes counts: where the depth limit may play no part, it
    was not hit. -/
def Counts (S : Discipline (TokenSource.stream s) g maxDepth) (e : Engine σ) : Prop :=
  S.limitless → e.depthHit = none

/-- The one step ends as the other does. -/
def Lockstep (S : Discipline (TokenSource.stream s) g maxDepth) (outer : Option Mismatch)
    (x₁ x₂ : EStateM.Result Fault (Engine σ) α) : Prop :=
  match x₂ with
  | .ok a e₂ => Counts S e₂ → ∃ e₁, x₁ = .ok a e₁ ∧ Sim S outer e₁ e₂
  | .error fault e₂ => fault ≠ .exhausted → Counts S e₂ → ∃ e₁, x₁ = .error fault e₁ ∧ Agree e₁ e₂

theorem Sim.agree (h : Sim S outer e₁ e₂) : Agree e₁ e₂ := ⟨h.buffer, h.marks⟩

theorem Lockstep.ok (h : Sim S outer e₁ e₂) (a : α) :
    Lockstep S outer (.ok a e₁) (.ok a e₂) := fun _ => ⟨e₁, rfl, h⟩

theorem Lockstep.fault (h : Agree e₁ e₂) (fault : Fault) :
    Lockstep (α := α) S outer (.error fault e₁) (.error fault e₂) := fun _ _ => ⟨e₁, rfl, h⟩

/-- Steps in a row run in step if each does. -/
theorem Lockstep.bind {m₁ m₂ : Run σ α} {k₁ k₂ : α → Run σ β} {outer' : Option Mismatch}
    (h : Lockstep S outer (m₁ e₁) (m₂ e₂)) (hlatch : ∀ a, Latches (k₂ a))
    (hk : ∀ a e₁' e₂', m₂ e₂ = .ok a e₂' → Sim S outer e₁' e₂' →
      Lockstep S outer' (k₁ a e₁') (k₂ a e₂')) :
    Lockstep S outer' ((m₁ >>= k₁) e₁) ((m₂ >>= k₂) e₂) := by
  cases hrun : m₂ e₂ with
  | error fault e₂' =>
      rw [hrun] at h
      rw [Run.bind_of_error hrun]
      intro hend hcounts
      obtain ⟨e₁', hrun₁, hagree⟩ := h hend hcounts
      exact ⟨e₁', Run.bind_of_error hrun₁, hagree⟩
  | ok a e₂' =>
      rw [hrun] at h
      rw [Run.bind_of_ok hrun]
      -- The depth limit was not hit in the first step if it was not hit in both.
      have hback : Counts S (Run.final (k₂ a e₂')) → Counts S e₂' := by
        intro hcounts hlimitless
        by_cases hhit : e₂'.depthHit = none
        · exact hhit
        · exact absurd (hcounts hlimitless) (hlatch a e₂' hhit)
      cases hrest : k₂ a e₂' with
      | ok b e₂'' =>
          rw [hrest] at hback
          intro hcounts
          obtain ⟨e₁', hrun₁, hsim⟩ := h (hback hcounts)
          have hstep := hk a e₁' e₂' hrun hsim
          rw [hrest] at hstep
          rw [Run.bind_of_ok hrun₁]
          exact hstep hcounts
      | error fault e₂'' =>
          rw [hrest] at hback
          intro hend hcounts
          obtain ⟨e₁', hrun₁, hsim⟩ := h (hback hcounts)
          have hstep := hk a e₁' e₂' hrun hsim
          rw [hrest] at hstep
          rw [Run.bind_of_ok hrun₁]
          exact hstep hend hcounts

-- ============================================================================
-- Steps of the buffer
-- ============================================================================

/-- Both buffers change alike, and nothing is dropped. -/
theorem Sim.withBuffer (h : Sim S outer e₁ e₂) {b : Lookahead σ} (hwindow : b.IsWindow s)
    (hbase : b.base = e₂.buffer.base) (hpulled : e₂.buffer.pulled ≤ b.pulled) :
    Sim S outer { e₁ with buffer := b } { e₂ with buffer := b } where
  buffer := rfl
  marks := h.marks
  depth := h.depth
  depthHit := h.depthHit
  keeping := h.keeping
  plain := h.plain
  window := hwindow
  furthest := h.furthest
  onStream_outer := h.onStream_outer
  onStream := h.onStream
  trusted := by
    intro id pos outcome hget
    have htrusted := h.trusted id pos outcome hget
    rw [h.buffer, ← hbase] at htrusted
    exact htrusted.mono hpulled

/-- A step of the buffer that drops nothing runs in step. -/
theorem lockstep_onBuffer (h : Sim S outer e₁ e₂) {step : Lookahead.Step σ α}
    (hstep : ∀ a b, step e₂.buffer = .ok a b →
      b.IsWindow s ∧ b.base = e₂.buffer.base ∧ e₂.buffer.pulled ≤ b.pulled) :
    Lockstep S outer (onBuffer step e₁) (onBuffer step e₂) := by
  simp only [onBuffer, h.buffer]
  cases hrun : step e₂.buffer with
  | ok a b =>
      obtain ⟨hwindow, hbase, hpulled⟩ := hstep a b hrun
      exact .ok (h.withBuffer hwindow hbase hpulled) a
  | error fault b =>
      have hagree : Agree { e₁ with buffer := b } { e₂ with buffer := b } := ⟨rfl, h.marks⟩
      exact .fault hagree fault

theorem lockstep_next (h : Sim S outer e₁ e₂) : Lockstep S outer (next e₁) (next e₂) := by
  apply lockstep_onBuffer h
  rintro a b ⟨⟩
  refine ⟨h.window.reach 1, Lookahead.base_pullMany _ _, ?_⟩
  show _ ≤ (e₂.buffer.reach 1).pulled
  rw [h.window.pulled_reach]
  exact Nat.le_max_left _ _

theorem lockstep_peek (h : Sim S outer e₁ e₂) (k : Nat) :
    Lockstep S outer (peek k e₁) (peek k e₂) := by
  apply lockstep_onBuffer h
  intro a b hrun
  simp only [Lookahead.peek] at hrun
  split at hrun
  · cases hrun
  · split at hrun
    · cases hrun
    · cases hrun
      refine ⟨h.window.reach _, Lookahead.base_pullMany _ _, ?_⟩
      rw [Lookahead.snd_look, h.window.pulled_reach]
      exact Nat.le_max_left _ _

theorem lockstep_seek (h : Sim S outer e₁ e₂) (target : Nat) :
    Lockstep S outer (onBuffer (Lookahead.seek target) e₁)
      (onBuffer (Lookahead.seek target) e₂) := by
  apply lockstep_onBuffer h
  intro a b hrun
  simp only [Lookahead.seek] at hrun
  split at hrun
  · next hle =>
      cases hrun
      exact ⟨h.window.moveTo hle, rfl, Nat.le_refl _⟩
  · cases hrun

/-- Steps that only read the buffer run in step. -/
theorem lockstep_onBuffer_read (h : Sim S outer e₁ e₂) {step : Lookahead.Step σ α}
    (hstep : ∀ a b, step e₂.buffer = .ok a b → b = e₂.buffer) :
    Lockstep S outer (onBuffer step e₁) (onBuffer step e₂) := by
  apply lockstep_onBuffer h
  intro a b hrun
  rw [hstep a b hrun]
  exact ⟨h.window, rfl, Nat.le_refl _⟩

-- ============================================================================
-- Marks
-- ============================================================================

/-- Both engines get the same marks. -/
theorem Sim.withMarks (h : Sim S outer e₁ e₂) {spec₁ spec₂ : Speculation}
    (hmarks : spec₁.marks = spec₂.marks) :
    Sim S outer { e₁ with speculation := spec₁ } { e₂ with speculation := spec₂ } where
  buffer := h.buffer
  marks := hmarks
  depth := h.depth
  depthHit := h.depthHit
  keeping := h.keeping
  plain := h.plain
  window := h.window
  furthest := h.furthest
  onStream_outer := h.onStream_outer
  onStream := h.onStream
  trusted := h.trusted

theorem Sim.pushed (h : Sim S outer e₁ e₂) : Sim S outer e₁.pushed e₂.pushed := by
  apply h.withMarks
  show _ :: _ = _ :: _
  rw [h.buffer, h.marks]

theorem lockstep_abandon (h : Sim S outer e₁ e₂) :
    Lockstep S outer (abandon e₁) (abandon e₂) := by
  cases hmarks : e₂.speculation.marks with
  | nil =>
      rw [abandon_of_nil hmarks, abandon_of_nil (h.marks.trans hmarks)]
      exact .fault h.agree _
  | cons mark marks =>
      rw [abandon_of_cons hmarks, abandon_of_cons (h.marks.trans hmarks)]
      have hsim : Sim S outer (e₁.unmarked marks) (e₂.unmarked marks) := h.withMarks rfl
      exact lockstep_seek hsim mark

theorem canCompact_eq (h : Sim S outer e₁ e₂) : e₁.canCompact = e₂.canCompact := by
  simp only [canCompact, Speculation.isEmpty, h.buffer, h.marks]

/-- Compaction drops every kept outcome along with the tokens. -/
theorem lockstep_compact (h : Sim S outer e₁ e₂) :
    Lockstep S outer (compact e₁) (compact e₂) := by
  simp only [compact, canCompact_eq h]
  split
  · refine .ok ?_ ()
    exact {
      buffer := by rw [h.buffer]
      marks := h.marks
      depth := h.depth
      depthHit := h.depthHit
      keeping := h.keeping
      plain := h.plain
      window := h.window.clear
      furthest := h.furthest
      onStream_outer := h.onStream_outer
      onStream := h.onStream
      trusted := by
        intro id pos outcome hget
        rw [Memo.get?_clear] at hget
        cases hget }
  · exact .fault h.agree _

theorem lockstep_commit (h : Sim S outer e₁ e₂) :
    Lockstep S outer (commit e₁) (commit e₂) := by
  cases hmarks : e₂.speculation.marks with
  | nil =>
      rw [commit_of_nil hmarks, commit_of_nil (h.marks.trans hmarks)]
      exact .fault h.agree _
  | cons mark marks =>
      have hsim : Sim S outer (e₁.committed marks) (e₂.committed marks) := h.withMarks rfl
      rw [commit_of_cons hmarks, commit_of_cons (h.marks.trans hmarks), canCompact_eq hsim,
        h.buffer]
      split
      · exact lockstep_compact hsim
      · exact .ok hsim ()

theorem lockstep_close (h : Sim S outer e₁ e₂) (matched : Bool) :
    Lockstep S outer (close matched e₁) (close matched e₂) := by
  cases matched with
  | true => exact lockstep_commit h
  | false => exact lockstep_abandon h

theorem lockstep_stackStep (h : Sim S outer e₁ e₂) (step : StackStep) :
    Lockstep S outer (stackStep step e₁) (stackStep step e₂) := by
  cases step with
  | openMark => exact .ok h.pushed ()
  | abandon => exact lockstep_abandon h
  | commit => exact lockstep_commit h
  | compact => exact lockstep_compact h

/-- A speculation around bodies that run in step. -/
theorem Lockstep.speculate {body₁ body₂ : Run σ Bool}
    (h : Lockstep S outer (body₁ e₁.pushed) (body₂ e₂.pushed)) :
    Lockstep S outer (Engine.speculate body₁ e₁) (Engine.speculate body₂ e₂) := by
  simp only [Engine.speculate, Run.bind_of_ok (openMark_eq _)]
  refine .bind h (fun matched => .bind (.close matched) fun _ => .pure matched) ?_
  intro matched e₁' e₂' _ hsim
  refine .bind (lockstep_close hsim matched) (fun _ => .pure matched) ?_
  intro _ e₁'' e₂'' _ hsim'
  exact .ok hsim' matched

-- ============================================================================
-- Mismatches and the depth
-- ============================================================================

theorem Sim.expecting (h : Sim S outer e₁ e₂) (kind : Kind) {found : Token}
    (hfound : found = TokenSource.stream s e₂.buffer.position) :
    Sim S outer (e₁.expecting kind found) (e₂.expecting kind found) where
  buffer := h.buffer
  marks := h.marks
  depth := h.depth
  depthHit := h.depthHit
  keeping := h.keeping
  plain := h.plain
  window := h.window
  furthest := by
    show Mismatch.join e₂.furthest (some ⟨e₂.buffer.position, found, .single kind⟩)
      = Mismatch.join outer
        (Mismatch.join e₁.furthest (some ⟨e₁.buffer.position, found, .single kind⟩))
    rw [h.furthest, h.buffer, Mismatch.join_assoc]
  onStream_outer := h.onStream_outer
  onStream := by
    refine h.onStream.join (b := some ⟨e₁.buffer.position, found, .single kind⟩) ?_
    rintro m ⟨⟩
    rw [hfound, h.buffer]
  trusted := h.trusted

theorem Sim.reach (h : Sim S outer e₁ e₂) (k : Nat) :
    Sim S outer { e₁ with buffer := e₁.buffer.reach k }
      { e₂ with buffer := e₂.buffer.reach k } := by
  rw [h.buffer]
  refine h.withBuffer (h.window.reach k) (Lookahead.base_pullMany _ _) ?_
  rw [h.window.pulled_reach]
  exact Nat.le_max_left _ _

theorem Sim.window₁ (h : Sim S outer e₁ e₂) : e₁.buffer.IsWindow s := by
  rw [h.buffer]
  exact h.window

theorem lockstep_takeKind (h : Sim S outer e₁ e₂) (kind : Kind) :
    Lockstep S outer (takeKind kind e₁) (takeKind kind e₂) := by
  have hposition : e₁.buffer.position = e₂.buffer.position := by rw [h.buffer]
  by_cases hkind : (TokenSource.stream s e₂.buffer.position).kind = kind
  · rw [takeKind_of_eq h.window₁ (hposition ▸ hkind), takeKind_of_eq h.window hkind, h.buffer]
    refine .ok (h.withBuffer (h.window.reach 1).consume ?_ ?_) true
    · simp [Lookahead.consume, Lookahead.reach]
    · simp [Lookahead.consume, Lookahead.reach]
      omega
  · rw [takeKind_of_ne h.window₁ (hposition ▸ hkind), takeKind_of_ne h.window hkind, hposition]
    refine .ok ((h.reach 1).expecting kind ?_) false
    rw [Lookahead.position_reach]

theorem lockstep_atDelimiter (h : Sim S outer e₁ e₂) (kind : Kind) :
    Lockstep S outer (atDelimiter kind e₁) (atDelimiter kind e₂) := by
  have hposition : e₁.buffer.position = e₂.buffer.position := by rw [h.buffer]
  by_cases hkind : (TokenSource.stream s e₂.buffer.position).kind = kind
  · rw [atDelimiter_of_eq h.window₁ (hposition ▸ hkind), atDelimiter_of_eq h.window hkind]
    exact .ok (h.reach 1) true
  · rw [atDelimiter_of_ne h.window₁ (hposition ▸ hkind), atDelimiter_of_ne h.window hkind,
      hposition]
    refine .ok ((h.reach 1).expecting kind ?_) false
    rw [Lookahead.position_reach]

theorem lockstep_matchKind (h : Sim S outer e₁ e₂) (kind : Kind) :
    Lockstep S outer (matchKind kind e₁) (matchKind kind e₂) :=
  .speculate (lockstep_takeKind h.pushed kind)

theorem Sim.withDepth (h : Sim S outer e₁ e₂) {d₁ d₂ : Nat} (hd : d₁ = d₂) :
    Sim S outer { e₁ with depth := d₁ } { e₂ with depth := d₂ } where
  buffer := h.buffer
  marks := h.marks
  depth := hd
  depthHit := h.depthHit
  keeping := h.keeping
  plain := h.plain
  window := h.window
  furthest := h.furthest
  onStream_outer := h.onStream_outer
  onStream := h.onStream
  trusted := h.trusted

theorem Sim.withDepthHit (h : Sim S outer e₁ e₂) (hit : Option DepthHit) :
    Sim S outer { e₁ with depthHit := hit } { e₂ with depthHit := hit } where
  buffer := h.buffer
  marks := h.marks
  depth := h.depth
  depthHit := rfl
  keeping := h.keeping
  plain := h.plain
  window := h.window
  furthest := h.furthest
  onStream_outer := h.onStream_outer
  onStream := h.onStream
  trusted := h.trusted

theorem lockstep_noteDepthHit (h : Sim S outer e₁ e₂) :
    Lockstep S outer (noteDepthHit e₁) (noteDepthHit e₂) := by
  cases hhit : e₂.depthHit with
  | some hit =>
      rw [noteDepthHit_of_some (h.depthHit.trans hhit), noteDepthHit_of_some hhit]
      exact .ok h ()
  | none =>
      rw [noteDepthHit_of_none h.window₁ (h.depthHit.trans hhit),
        noteDepthHit_of_none h.window hhit, h.buffer]
      have hsim := h.reach 1
      rw [h.buffer] at hsim
      exact .ok (hsim.withDepthHit _) ()

/-- A body one level deeper. -/
theorem Lockstep.nested {body₁ body₂ : Run σ Bool} (h : Sim S outer e₁ e₂)
    (hbody : e₂.depth < maxDepth → Lockstep S outer (body₁ { e₁ with depth := e₁.depth + 1 })
      (body₂ { e₂ with depth := e₂.depth + 1 })) :
    Lockstep S outer (Engine.nested body₁ e₁) (Engine.nested body₂ e₂) := by
  have hlimit₁ : e₁.settings.maxDepth = maxDepth := by rw [h.keeping]
  have hlimit₂ : e₂.settings.maxDepth = maxDepth := by rw [h.plain]
  have hdepth := h.depth
  by_cases hdeep : maxDepth ≤ e₂.depth
  · rw [nested_of_le (by omega), nested_of_le (by omega)]
    refine .bind (lockstep_noteDepthHit h) (fun _ => .pure false) ?_
    intro _ e₁' e₂' _ hsim
    exact .ok hsim false
  · rw [nested_of_lt (by omega), nested_of_lt (by omega)]
    refine .bind (hbody (by omega))
      (fun matched => .bind (.modify fun _ => rfl) fun _ => .pure matched) ?_
    intro matched e₁' e₂' _ hsim
    exact .ok (hsim.withDepth (by rw [hsim.depth])) matched

-- ============================================================================
-- Rules through their memo
-- ============================================================================

theorem Sim.counted (h : Sim S outer e₁ e₂) (id : RuleId) :
    Sim S outer (e₁.counted id) (e₂.counted id) where
  buffer := h.buffer
  marks := h.marks
  depth := h.depth
  depthHit := h.depthHit
  keeping := h.keeping
  plain := h.plain
  window := h.window
  furthest := h.furthest
  onStream_outer := h.onStream_outer
  onStream := h.onStream
  trusted := h.trusted

/-- The engine without outcomes reads plainly where something is open. -/
theorem Sim.plainOn (h : Sim S outer e₁ e₂) (hopen : e₂.speculation.marks ≠ []) :
    PlainOn (S.ground e₂.buffer.base) s e₂ where
  tokens := rfl
  maxDepth := by rw [h.plain]; rfl
  horizon := rfl
  memoize := by rw [h.plain]
  open_ := hopen
  window := h.window

/-- Where the step counts, the reading behind it was not touched by the depth limit. -/
theorem hits_eq_nil_of_counts {r : Reading α} {hit before : Option DepthHit}
    (hhit : hit = before.or (DepthHit.first (TokenSource.stream s) r.hits)) (hnone : hit = none) :
    r.hits = [] := by
  rw [hhit, Option.or_eq_none_iff] at hnone
  simpa [DepthHit.first] using hnone.2

/-- What an outcome stands for is also what the rule reads as now. -/
theorem read_of_trusted {base pulled pos d n i : Nat} {id : RuleId} {outcome : Outcome}
    (htrusted : S.Trusted base pulled id pos outcome) (hi : base + pos = i)
    (hcalls : S.Calls (.memo id (S.bodyOf id)) d i)
    (hend : ((S.ground base).read n d (.memo id (S.bodyOf id)) i).result ≠ .error .exhausted)
    (hcounts : S.limitless → ((S.ground base).read n d (.memo id (S.bodyOf id)) i).hits = []) :
    ∃ matched,
      let r := (S.ground base).read n d (.memo id (S.bodyOf id)) i
      r.result = .ok matched ∧ r.hits = [] ∧ r.seen ≤ pulled ∧
        outcome = r.outcome (TokenSource.stream s) base matched := by
  subst hi
  obtain ⟨n', level, matched, hresult, hhits, hseen, hkeeps, houtcome⟩ := htrusted
  have hdepth := (S.fits hcalls hkeeps).symm.imp_right hcounts
  have hread := (S.ground base).read_eq_read (by rw [hresult]; simp) hend hhits hdepth
  refine ⟨matched, ?_⟩
  rw [hread]
  exact ⟨hresult, hhits, hseen, houtcome⟩

/-- A rule through its memo stays where it started if it does not match. -/
theorem stop_read_memo_of_false {G : Ground ν} {n d i : Nat} {id : RuleId} {body : Rule ν}
    (h : (G.read n d (.memo id body) i).result = .ok false) :
    (G.read n d (.memo id body) i).stop = i := by
  cases n with
  | zero => cases h
  | succ n => exact Pass.stop_rewind_of_false h

/-- A reading that looked at buffered tokens only pulls nothing and moves the cursor. -/
theorem Moved.buffer_eq {r : Reading Bool} {e e' : Engine σ} (h : Moved s e r e')
    (hwindow : e.buffer.IsWindow s) (hwithin : r.Within e.buffer.position) (hhits : r.hits = [])
    (hseen : r.seen ≤ e.buffer.pulled) :
    r.stop - e.buffer.base ≤ e.buffer.size ∧
      { e.buffer with cursor := r.stop - e.buffer.base } = e'.buffer ∧
      e'.buffer.pulled = e.buffer.pulled := by
  have hposition : e.buffer.position = e.buffer.base + e.buffer.cursor := rfl
  have hsize := hwindow.pulled_eq
  have hle := hwithin.le_stop
  have hstop : r.stop - e.buffer.base ≤ e.buffer.size := by
    have := hwithin.stop_le
    have := hwindow.position_le
    omega
  have hpulled : e'.buffer.pulled = e.buffer.pulled := by
    rw [h.pulled, Reading.extent_of_nil hhits]
    exact Nat.max_eq_left hseen
  refine ⟨hstop, ?_, hpulled⟩
  refine (hwindow.moveTo hstop).ext h.window h.base.symm hpulled.symm ?_
  rw [h.position]
  show e.buffer.base + (r.stop - e.buffer.base) = r.stop
  omega

/-- Replaying the outcome of a reading leads where the reading leads. -/
theorem sim_replayOutcome {r : Reading Bool} {matched : Bool} {e₂' : Engine σ} {memo : Memo}
    (h : Sim S outer e₁ e₂) (hmemo : ∀ id pos, memo.get? id pos = e₁.memo.get? id pos)
    (hwithin : r.Within e₂.buffer.position) (hhits : r.hits = [])
    (hseen : r.seen ≤ e₂.buffer.pulled)
    (hstay : matched = false → r.stop = e₂.buffer.position) (hmoved : Moved s e₂ r e₂') :
    ∃ e₁', replayOutcome (r.outcome (TokenSource.stream s) e₂.buffer.base matched)
        { e₁ with memo } = .ok matched e₁' ∧ Sim S outer e₁' e₂' := by
  have hnoted := Mismatch.onStream_noted (TokenSource.stream s) r.misses
  have hbuffered : ∀ m, Mismatch.noted (TokenSource.stream s) r.misses = some m →
      e₁.buffer.base ≤ m.position ∧ m.position < e₁.buffer.pulled := by
    intro m hm
    have hposition : e₂.buffer.position = e₂.buffer.base + e₂.buffer.cursor := rfl
    obtain ⟨kind, hmem⟩ := Mismatch.position_noted_mem hm
    obtain ⟨hle, hlt⟩ := hwithin.misses _ hmem
    rw [h.buffer]
    omega
  have hreplay := replay_eq (e := { e₁ with memo }) h.window₁ hnoted hbuffered
  obtain ⟨hstop, hbuffer, hpulled⟩ := hmoved.buffer_eq h.window hwithin hhits hseen
  have hsim : Sim S outer { e₁ with
      memo
      furthest := Mismatch.join e₁.furthest (Mismatch.noted (TokenSource.stream s) r.misses)
      buffer := e₂'.buffer } e₂' := {
    buffer := rfl
    marks := h.marks.trans hmoved.marks.symm
    depth := h.depth.trans hmoved.depth.symm
    depthHit := by
      rw [hmoved.depthHit, hhits, ← h.depthHit]
      simp [DepthHit.first]
    keeping := h.keeping
    plain := hmoved.settings.trans h.plain
    window := hmoved.window
    furthest := by rw [hmoved.furthest, h.furthest, Mismatch.join_assoc]
    onStream_outer := h.onStream_outer
    onStream := h.onStream.join hnoted
    trusted := by
      intro id pos outcome hget
      have htrusted := h.trusted id pos outcome ((hmemo id pos).symm.trans hget)
      rwa [h.buffer, ← hmoved.base, ← hpulled] at htrusted }
  cases matched with
  | true =>
      refine ⟨_, ?_, hsim⟩
      rw [← hbuffer, ← h.buffer]
      rw [← h.buffer] at hstop
      simp only [Reading.outcome, if_true, replayOutcome, Run.bind_of_ok hreplay]
      exact Run.bind_of_ok (seek_eq hstop)
  | false =>
      have hstill : e₂'.buffer = e₁.buffer := by
        rw [← hbuffer, h.buffer, hstay rfl]
        simp [Lookahead.position]
      refine ⟨_, ?_, hsim⟩
      rw [hstill]
      simp only [Reading.outcome, replayOutcome]
      exact Run.bind_of_ok hreplay

/-- Both engines at the start of a body whose outcome is going to be kept; the one without
    outcomes has the mismatches `a` behind it. -/
theorem Sim.fresh (h : Sim S outer e₁ e₂) (id : RuleId) {a : Option Mismatch}
    (ha : Mismatch.OnStream (TokenSource.stream s) a) :
    Sim S a (e₁.fresh id) { e₂.counted id with furthest := a } where
  buffer := h.buffer
  marks := h.marks
  depth := h.depth
  depthHit := h.depthHit
  keeping := h.keeping
  plain := h.plain
  window := h.window
  furthest := (Mismatch.join_none a).symm
  onStream_outer := ha
  onStream := Mismatch.onStream_none _
  trusted := by
    intro id' pos outcome hget
    apply h.trusted id' pos outcome
    rw [← Memo.get?_snd_lookup e₁.memo id id' e₁.buffer.cursor pos]
    exact hget

/-- The outcome of a body is worth keeping, and keeping it brings the engines together again. -/
theorem sim_keepOutcome {n : Nat} {id : RuleId} {matched : Bool} {e₁' e₂' : Engine σ}
    {r : Reading Bool} (h : Sim S outer e₁ e₂)
    (hcalls : S.Calls (.memo id (S.bodyOf id)) e₂.depth e₂.buffer.position)
    (hread : r = (S.ground e₂.buffer.base).read n e₂.depth (.memo id (S.bodyOf id))
      e₂.buffer.position)
    (hresult : r.result = .ok matched) (hmoved : Moved s e₂ r e₂')
    (hsim : Sim S e₂.furthest e₁' e₂')
    (hfurthest : e₁'.furthest = Mismatch.noted (TokenSource.stream s) r.misses) :
    ∃ e₁'', keepOutcome id e₁.buffer.cursor e₁.furthest matched e₁' = .ok () e₁'' ∧
      Sim S outer e₁'' e₂' := by
  refine ⟨_, keepOutcome_eq id e₁.buffer.cursor e₁.furthest matched e₁', ?_⟩
  exact {
    buffer := hsim.buffer
    marks := hsim.marks
    depth := hsim.depth
    depthHit := hsim.depthHit
    keeping := hsim.keeping
    plain := hsim.plain
    window := hsim.window
    furthest := by
      rw [hsim.furthest, h.furthest, Mismatch.join_assoc,
        Mismatch.join_comm h.onStream hsim.onStream]
    onStream_outer := h.onStream_outer
    onStream := hsim.onStream.join h.onStream
    trusted := by
      intro id' pos outcome hget
      by_cases hhit : e₁'.depthHit = none
      · simp only [hhit, Option.isNone_none, if_true, Memo.get?_record] at hget
        split at hget
        · next heq =>
            obtain ⟨rfl, rfl⟩ := heq
            have hhits : r.hits = [] :=
              hits_eq_nil_of_counts hmoved.depthHit (hsim.depthHit.symm.trans hhit)
            have hbase : e₁'.buffer.base = e₂.buffer.base := by rw [hsim.buffer, hmoved.base]
            have hcursor : e₁'.buffer.cursor = r.stop - e₂.buffer.base := by
              have hposition := hmoved.position
              rw [← hsim.buffer, Lookahead.position, hbase] at hposition
              omega
            have hstart : e₁'.buffer.base + e₁.buffer.cursor = e₂.buffer.position := by
              rw [hbase, h.buffer]
              rfl
            refine ⟨n, e₂.depth, matched, ?_⟩
            rw [hstart, hbase, ← hread]
            refine ⟨hresult, hhits, ?_, S.keeps hcalls, ?_⟩
            · rw [hsim.buffer, hmoved.pulled, Reading.extent_of_nil hhits]
              exact Nat.le_max_right _ _
            · rw [Option.some.injEq] at hget
              rw [← hget, hfurthest, hcursor]
              rfl
        · exact hsim.trusted id' pos outcome hget
      · rw [if_neg (by simpa using hhit)] at hget
        exact hsim.trusted id' pos outcome hget }

/-- The mismatches of a body that starts from none are those of its reading.  The lockstep with
    an engine that starts from none as well tells so. -/
theorem furthest_of_fresh {n : Nat} {id : RuleId} {matched : Bool} {e₁' : Engine σ}
    {r : Reading Bool} (h : Sim S outer e₁ e₂) (hmarks : e₂.speculation.marks ≠ [])
    (hcalls : S.Calls (.memo id (S.bodyOf id)) e₂.depth e₂.buffer.position)
    (hread : r = (S.ground e₂.buffer.base).read (n + 1) e₂.depth (.memo id (S.bodyOf id))
      e₂.buffer.position)
    (hresult : r.result = .ok matched)
    (hcounts : S.limitless →
      e₂.depthHit.or (DepthHit.first (TokenSource.stream s) r.hits) = none)
    (hbody : Lockstep S none (speculate (eval g n (S.bodyOf id)) (e₁.fresh id))
      (speculate (eval g n (S.bodyOf id)) { e₂.counted id with furthest := none }))
    (hrun : speculate (eval g n (S.bodyOf id)) (e₁.fresh id) = .ok matched e₁') :
    e₁'.furthest = Mismatch.noted (TokenSource.stream s) r.misses := by
  have hplainOn : PlainOn (S.ground e₂.buffer.base) s { e₂ with furthest := none } := {
    tokens := rfl
    maxDepth := (h.plainOn hmarks).maxDepth
    horizon := rfl
    memoize := (h.plainOn hmarks).memoize
    open_ := hmarks
    window := h.window }
  have hplain : (e₂.settings.memoize && e₂.isSpeculating) = false := by rw [h.plain]; rfl
  have hrule : memoized id (eval g n (S.bodyOf id)) { e₂ with furthest := none }
      = speculate (eval g n (S.bodyOf id)) { e₂.counted id with furthest := none } :=
    memoized_of_plain hplain
  have hfollows : Follows s { e₂ with furthest := none } r
      (speculate (eval g n (S.bodyOf id)) { e₂.counted id with furthest := none }) := by
    rw [hread, ← hrule]
    exact follows_eval S.stackFree_grammar (n + 1) (S.stackFree hcalls) hplainOn
  cases hrun₂ : speculate (eval g n (S.bodyOf id)) { e₂.counted id with furthest := none } with
  | error fault e₂' =>
      have hfault : r.result = .error fault ∧ _ := hrun₂ ▸ hfollows
      rw [hresult] at hfault
      cases hfault.1
  | ok matched' e₂' =>
      have hmoved : r.result = .ok matched' ∧ Moved s _ r e₂' := hrun₂ ▸ hfollows
      have hstep : Lockstep S none _ (.ok matched' e₂') := hrun₂ ▸ hbody
      have hhit := hmoved.2.depthHit
      obtain ⟨e₁'', hrun₁, hsim⟩ := hstep fun hlimitless => hhit.trans (hcounts hlimitless)
      rw [hrun] at hrun₁
      cases hrun₁
      have hfurthest := hmoved.2.furthest
      rw [hsim.furthest, Mismatch.none_join] at hfurthest
      rw [hfurthest]
      exact Mismatch.none_join _

/-- The engine without outcomes reads a memoized rule plainly. -/
theorem Sim.follows_memoized (h : Sim S outer e₁ e₂) (hmarks : e₂.speculation.marks ≠ [])
    {id : RuleId} (hcalls : S.Calls (.memo id (S.bodyOf id)) e₂.depth e₂.buffer.position)
    (n : Nat) :
    Follows s e₂
      ((S.ground e₂.buffer.base).read (n + 1) e₂.depth (.memo id (S.bodyOf id)) e₂.buffer.position)
      (memoized id (eval g n (S.bodyOf id)) e₂) :=
  follows_eval S.stackFree_grammar (n + 1) (S.stackFree hcalls) (h.plainOn hmarks)

/-- A kept outcome is replayed as the rule runs now. -/
theorem lockstep_of_kept {n : Nat} {id : RuleId} {outcome : Outcome} (h : Sim S outer e₁ e₂)
    (hmarks : e₂.speculation.marks ≠ [])
    (hcalls : S.Calls (.memo id (S.bodyOf id)) e₂.depth e₂.buffer.position)
    (hget : e₁.memo.get? id e₁.buffer.cursor = some outcome) :
    Lockstep S outer
      (replayOutcome outcome { e₁ with memo := (e₁.memo.lookup id e₁.buffer.cursor).2 })
      (memoized id (eval g n (S.bodyOf id)) e₂) := by
  have hfollows := h.follows_memoized hmarks hcalls n
  have htrusted := h.trusted id _ outcome hget
  have hposition : e₂.buffer.base + e₂.buffer.cursor = e₂.buffer.position := rfl
  rw [h.buffer] at htrusted
  cases hrun : memoized id (eval g n (S.bodyOf id)) e₂ with
  | ok matched e₂' =>
      rw [hrun] at hfollows
      obtain ⟨hresult, hmoved⟩ := hfollows
      intro hcounts
      obtain ⟨matched', hresult', hhits, hseen, rfl⟩ := read_of_trusted htrusted hposition hcalls
        (by rw [hresult]; simp)
        fun hlimitless => hits_eq_nil_of_counts hmoved.depthHit (hcounts hlimitless)
      obtain rfl : matched = matched' := Except.ok.inj (hresult.symm.trans hresult')
      refine sim_replayOutcome h (fun id' pos => Memo.get?_snd_lookup ..)
        (Ground.within_read ..) hhits hseen ?_ hmoved
      rintro rfl
      exact stop_read_memo_of_false hresult
  | error fault e₂' =>
      rw [hrun] at hfollows
      obtain ⟨hresult, hhit⟩ := hfollows
      intro hend hcounts
      obtain ⟨matched, hresult', -⟩ := read_of_trusted htrusted hposition hcalls
        (by rw [hresult]; simpa using hend)
        fun hlimitless => hits_eq_nil_of_counts hhit (hcounts hlimitless)
      cases hresult.symm.trans hresult'

/-- A rule without a kept outcome runs in step and leaves one that is trusted. -/
theorem lockstep_of_new {n : Nat} {id : RuleId} (h : Sim S outer e₁ e₂)
    (hmarks : e₂.speculation.marks ≠ [])
    (hcalls : S.Calls (.memo id (S.bodyOf id)) e₂.depth e₂.buffer.position)
    (hbody : ∀ {a : Option Mismatch}, Mismatch.OnStream (TokenSource.stream s) a →
      Lockstep S a (speculate (eval g n (S.bodyOf id)) (e₁.fresh id))
        (speculate (eval g n (S.bodyOf id)) { e₂.counted id with furthest := a })) :
    Lockstep S outer
      ((do
        let matched ← speculate (eval g n (S.bodyOf id))
        keepOutcome id e₁.buffer.cursor e₁.furthest matched
        return matched : Run σ Bool) (e₁.fresh id))
      (speculate (eval g n (S.bodyOf id)) (e₂.counted id)) := by
  have hplain : (e₂.settings.memoize && e₂.isSpeculating) = false := by rw [h.plain]; rfl
  have hfollows := h.follows_memoized hmarks hcalls n
  rw [memoized_of_plain hplain] at hfollows
  have honStream : Mismatch.OnStream (TokenSource.stream s) e₂.furthest := by
    rw [h.furthest]
    exact h.onStream_outer.join h.onStream
  have hstep : Lockstep S e₂.furthest _ (speculate (eval g n (S.bodyOf id)) (e₂.counted id)) :=
    hbody honStream
  cases hrun : speculate (eval g n (S.bodyOf id)) (e₂.counted id) with
  | error fault e₂' =>
      rw [hrun] at hstep
      intro hend hcounts
      obtain ⟨e₁', hrun₁, hagree⟩ := hstep hend hcounts
      exact ⟨e₁', Run.bind_of_error hrun₁, hagree⟩
  | ok matched e₂' =>
      rw [hrun] at hfollows hstep
      obtain ⟨hresult, hmoved⟩ := hfollows
      intro hcounts
      obtain ⟨e₁', hrun₁, hsim⟩ := hstep hcounts
      have hfurthest := furthest_of_fresh h hmarks hcalls rfl hresult
        (fun hlimitless => hmoved.depthHit.symm.trans (hcounts hlimitless))
        (hbody (Mismatch.onStream_none _)) hrun₁
      obtain ⟨e₁'', hkeep, hsim'⟩ := sim_keepOutcome h hcalls rfl hresult hmoved hsim hfurthest
      refine ⟨e₁'', ?_, hsim'⟩
      rw [Run.bind_of_ok hrun₁, Run.bind_of_ok hkeep]
      rfl

/-- A memoized rule runs in step if its body does from every state. -/
theorem lockstep_memoized {n : Nat} {id : RuleId} {body : Rule ν} (h : Sim S outer e₁ e₂)
    (hcalls : S.Calls (.memo id body) e₂.depth e₂.buffer.position)
    (hbody : ∀ {outer : Option Mismatch} {e₁ e₂ : Engine σ}, Sim S outer e₁ e₂ →
      S.Calls body e₂.depth e₂.buffer.position →
      S.limitless ∨ e₂.speculation.marks ≠ [] →
      Lockstep S outer (eval g n body e₁) (eval g n body e₂)) :
    Lockstep S outer (memoized id (eval g n body) e₁) (memoized id (eval g n body) e₂) := by
  have hplain₂ : (e₂.settings.memoize && e₂.isSpeculating) = false := by rw [h.plain]; rfl
  have hspeculate : ∀ {outer : Option Mismatch} {e₁' e₂' : Engine σ}, Sim S outer e₁' e₂' →
      e₂'.depth = e₂.depth → e₂'.buffer = e₂.buffer →
      Lockstep S outer (speculate (eval g n body) e₁') (speculate (eval g n body) e₂') := by
    intro outer e₁' e₂' hsim hdepth hbuffer
    refine .speculate (hbody hsim.pushed ?_ (.inr (List.cons_ne_nil _ _)))
    show S.Calls body e₂'.depth e₂'.buffer.position
    rw [hdepth, hbuffer]
    exact S.closed hcalls .memo
  by_cases hmarks : e₂.speculation.marks = []
  · have hplain₁ : (e₁.settings.memoize && e₁.isSpeculating) = false := by
      simp [isSpeculating, Speculation.isEmpty, h.marks, hmarks]
    rw [memoized_of_plain hplain₁, memoized_of_plain hplain₂]
    exact hspeculate (h.counted id) rfl rfl
  · have hkeeping : (e₁.settings.memoize && e₁.isSpeculating) = true := by
      simp [isSpeculating, Speculation.isEmpty, h.keeping, h.marks, hmarks]
    obtain rfl : body = S.bodyOf id := S.body_eq hcalls
    cases hget : e₁.memo.get? id e₁.buffer.cursor with
    | some outcome =>
        rw [memoized_of_kept hkeeping hget]
        exact lockstep_of_kept h hmarks hcalls hget
    | none =>
        rw [memoized_of_new hkeeping hget, memoized_of_plain hplain₂]
        exact lockstep_of_new h hmarks hcalls fun ha => hspeculate (h.fresh id ha) rfl rfl

-- ============================================================================
-- Rules
-- ============================================================================

/-- After a rule something is still open, and the rule led where the engine is. -/
theorem leads_of_eval {n : Nat} {rule : Rule ν} {a : Bool} {e₂' : Engine σ}
    (h : Sim S outer e₁ e₂) (hrule : rule.StackFree)
    (hopen : S.limitless ∨ e₂.speculation.marks ≠ []) (hrun : eval g n rule e₂ = .ok a e₂') :
    (S.limitless ∨ e₂'.speculation.marks ≠ []) ∧
      Leads (TokenSource.stream s) g maxDepth S.limitless rule e₂.depth e₂.buffer.position a
        e₂'.depth e₂'.buffer.position := by
  rcases hopen with hlimitless | hopen
  · exact ⟨.inl hlimitless, .inl hlimitless⟩
  · have hfollows : Follows s e₂ _ (eval g n rule e₂) :=
      follows_eval S.stackFree_grammar n hrule (h.plainOn hopen)
    rw [hrun] at hfollows
    obtain ⟨hresult, hmoved⟩ := hfollows
    refine ⟨.inr ?_, .inr ⟨hmoved.depth, _, n, hresult, hmoved.position.symm⟩⟩
    rw [hmoved.marks]
    exact hopen

/-- A look for a delimiter moves nothing. -/
theorem still_of_atDelimiter {kind : Kind} {a : Bool} {e e' : Engine σ}
    (h : e.buffer.IsWindow s) (hrun : atDelimiter kind e = .ok a e') :
    e'.speculation.marks = e.speculation.marks ∧ e'.depth = e.depth ∧
      e'.buffer.position = e.buffer.position := by
  by_cases hkind : (TokenSource.stream s e.buffer.position).kind = kind
  · rw [atDelimiter_of_eq h hkind] at hrun
    cases hrun
    exact ⟨rfl, rfl, Lookahead.position_reach _ _⟩
  · rw [atDelimiter_of_ne h hkind] at hrun
    cases hrun
    exact ⟨rfl, rfl, Lookahead.position_reach _ _⟩

/-- Engines with and without kept outcomes run a rule in step. -/
theorem lockstep_eval (n : Nat) {rule : Rule ν} (h : Sim S outer e₁ e₂)
    (hcalls : S.Calls rule e₂.depth e₂.buffer.position)
    (hopen : S.limitless ∨ e₂.speculation.marks ≠ []) :
    Lockstep S outer (eval g n rule e₁) (eval g n rule e₂) := by
  induction n generalizing rule outer e₁ e₂ with
  | zero => exact fun hend => absurd rfl hend
  | succ n ih =>
      have hrule := S.stackFree hcalls
      cases rule with
      | token kind => exact lockstep_matchKind h kind
      | const answer => exact .ok h answer
      | both first second =>
          refine .bind (ih h (S.closed hcalls .first) hopen)
            (of_cond (.eval g n second) (.pure false)) ?_
          intro a f₁ f₂ hrun hsim
          obtain ⟨hopen', hleads⟩ := leads_of_eval h hrule.1 hopen hrun
          cases a with
          | true => exact ih hsim (S.closed hcalls (.second hleads)) hopen'
          | false => exact .ok hsim false
      | either first second =>
          refine .bind (ih h (S.closed hcalls .left) hopen)
            (of_cond (.pure true) (.eval g n second)) ?_
          intro a f₁ f₂ hrun hsim
          obtain ⟨hopen', hleads⟩ := leads_of_eval h hrule.1 hopen hrun
          cases a with
          | true => exact .ok hsim true
          | false => exact ih hsim (S.closed hcalls (.right hleads)) hopen'
      | negate rule =>
          refine .bind (ih h (S.closed hcalls .negate) hopen) (fun a => .pure (!a)) ?_
          intro a f₁ f₂ _ hsim
          exact .ok hsim (!a)
      | attempt rule =>
          exact .speculate (ih h.pushed (S.closed hcalls .attempt)
            (.inr (List.cons_ne_nil _ _)))
      | trail delimiter element =>
          have hagain : Latches (do
              if ← eval g n element then eval g n (.trail delimiter element)
              else return false : Run σ Bool) :=
            .bind (.eval g n element) (of_cond (.eval g n _) (.pure false))
          have helement := Latches.bind (.matchKind delimiter) (of_cond hagain (.pure false))
          refine .bind (lockstep_atDelimiter h delimiter) (of_cond helement (.pure true)) ?_
          intro a f₁ f₂ hrun hsim
          cases a with
          | false => exact .ok hsim true
          | true =>
              obtain ⟨hmarks, hdepth, hposition⟩ := still_of_atDelimiter h.window hrun
              rw [← hmarks] at hopen
              rw [← hdepth, ← hposition] at hcalls
              refine .bind (lockstep_matchKind hsim delimiter) (of_cond hagain (.pure false)) ?_
              intro a d₁ d₂ hrun hsim'
              have htoken : eval g 1 (.token delimiter) f₂ = .ok a d₂ := hrun
              have hfree : Rule.StackFree (ν := ν) (.token delimiter) := trivial
              obtain ⟨hopen, hleads⟩ := leads_of_eval hsim hfree hopen htoken
              cases a with
              | false => exact .ok hsim' false
              | true =>
                  refine .bind (ih hsim' (S.closed hcalls (.element hleads)) hopen)
                    (of_cond (.eval g n _) (.pure false)) ?_
                  intro a l₁ l₂ hrun hsim''
                  have helement : element.StackFree := hrule
                  obtain ⟨hopen, hleads'⟩ := leads_of_eval hsim' helement hopen hrun
                  cases a with
                  | false => exact .ok hsim'' false
                  | true => exact ih hsim'' (S.closed hcalls (.again hleads hleads')) hopen
      | memo id body =>
          exact lockstep_memoized h hcalls fun hsim hbody hopen' => ih hsim hbody hopen'
      | nested body =>
          refine .nested h fun hdepth => ?_
          exact ih (h.withDepth (congrArg (· + 1) h.depth)) (S.closed hcalls (.nested hdepth))
            hopen
      | ref name => exact ih h (S.closed hcalls .ref) hopen
      | ahead k kind =>
          refine .bind (lockstep_peek h k) (fun token => .pure _) ?_
          intro token f₁ f₂ _ hsim
          exact .ok hsim _
      | stack step => exact hrule.elim

end Engine
end Packrat
