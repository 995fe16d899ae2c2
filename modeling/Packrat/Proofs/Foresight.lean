/-
  Packrat.Proofs.Foresight

  An engine sees of its source no more than it pulls.

  A run over one source and a run over another one are the same run
  (`Mirrors`) as long as the sources hand out the same tokens, up to the last
  one that was pulled; and a run that ends does not depend on its fuel.  So
  what is shown of sources that run dry holds for every source: of any source a
  run that ended has pulled a list of tokens, and it would have run the same
  over that list (`recognizeEntry_onto`).

  Proven by induction on the fuel with one case for each constructor.
-/

import Packrat.Proofs.Twins

namespace Packrat

variable {σ τ ν α β : Type} [TokenSource σ] [TokenSource τ] {s : σ} {s' : τ} {limit : Nat}

/-- The sources hand out the same first tokens. -/
def TokenSource.AgreeBelow (limit : Nat) (s : σ) (s' : τ) : Prop :=
  ∀ i < limit, stream s i = stream s' i

theorem TokenSource.AgreeBelow.symm (h : AgreeBelow limit s s') : AgreeBelow limit s' s :=
  fun i hi => (h i hi).symm

theorem TokenSource.AgreeBelow.refl (s : σ) : AgreeBelow limit s s := fun _ _ => rfl

/-- The first tokens of a source as a list. -/
def TokenSource.taken (s : σ) (limit : Nat) : TokenList :=
  .ofTokens (stretch (stream s) 0 limit)

/-- The list stands for the source as far as it goes. -/
theorem TokenSource.agreeBelow_taken (s : σ) (limit : Nat) :
    AgreeBelow limit s (taken s limit) := by
  intro i hi
  rw [taken, TokenList.stream_ofTokens, List.getD_eq_getElem?_getD, getElem?_stretch _ (by omega),
    Nat.zero_add]
  rfl

theorem TokenSource.endsBy_taken (s : σ) (limit : Nat) : EndsBy (stream (taken s limit)) limit := by
  have hend := TokenList.endsBy_stream_ofTokens (stretch (stream s) 0 limit)
  rwa [length_stretch, Nat.sub_zero] at hend

-- ============================================================================
-- Buffers over another source
-- ============================================================================

namespace Lookahead

variable {b : Lookahead σ}

/-- All that the buffer pulled came from `s`. -/
def From (s : σ) (b : Lookahead σ) : Prop := b.source = TokenSource.after s b.pulled

/-- The buffer in front of another source, of which as many tokens are gone. -/
def onto (b : Lookahead σ) (s' : τ) : Lookahead τ :=
  ⟨TokenSource.after s' b.pulled, b.tokens, b.cursor, b.base, b.pulled⟩

theorem onto_onto (h : b.From s) (s' : τ) : (b.onto s').onto s = b := by
  obtain ⟨source, tokens, cursor, base, pulled⟩ := b
  simp only [onto, From] at h ⊢
  rw [h]

omit [TokenSource σ] in
theorem from_onto (b : Lookahead σ) (s' : τ) : (b.onto s').From s' := rfl

theorem From.pull (h : b.From s) : b.pull.From s := by
  show (TokenSource.next b.source).2 = (TokenSource.next (TokenSource.after s b.pulled)).2
  rw [h]

theorem From.pullMany (h : b.From s) (n : Nat) : (b.pullMany n).From s := by
  induction n generalizing b with
  | zero => exact h
  | succ n ih => exact ih h.pull

theorem From.onto_pull (h : b.From s) (hagree : TokenSource.AgreeBelow limit s s')
    (hlt : b.pulled < limit) : b.pull.onto s' = (b.onto s').pull := by
  have htoken : (TokenSource.next b.source).1 = TokenSource.stream s' b.pulled := by
    rw [h]
    exact hagree _ hlt
  simp only [Lookahead.pull, onto, htoken]
  rfl

theorem From.onto_pullMany (h : b.From s) (hagree : TokenSource.AgreeBelow limit s s') {n : Nat}
    (hle : b.pulled + n ≤ limit) : (b.pullMany n).onto s' = (b.onto s').pullMany n := by
  induction n generalizing b with
  | zero => rfl
  | succ n ih =>
      have hpulled : b.pull.pulled = b.pulled + 1 := rfl
      rw [Lookahead.pullMany, Lookahead.pullMany, ih h.pull (by omega),
        h.onto_pull hagree (by omega)]

theorem From.reach (h : b.From s) (k : Nat) : (b.reach k).From s := h.pullMany _

theorem From.onto_reach (h : b.From s) (hagree : TokenSource.AgreeBelow limit s s') {k : Nat}
    (hle : (b.reach k).pulled ≤ limit) : (b.reach k).onto s' = (b.onto s').reach k := by
  rw [Lookahead.reach, pulled_pullMany] at hle
  exact h.onto_pullMany hagree hle

theorem pulled_le_reach (b : Lookahead σ) (k : Nat) : b.pulled ≤ (b.reach k).pulled := by
  rw [reach, pulled_pullMany]
  omega

/-- A look shows the same token over both sources. -/
theorem From.fst_look_onto (h : b.From s) (hagree : TokenSource.AgreeBelow limit s s') {k : Nat}
    (hle : (b.reach (k + 1)).pulled ≤ limit) : ((b.onto s').look k).1 = (b.look k).1 := by
  have hget := get?_cursor_add_reach (b.onto s') k
  rw [← h.onto_reach hagree hle] at hget
  exact Option.some.inj (hget.symm.trans (get?_cursor_add_reach b k))

end Lookahead

-- ============================================================================
-- Runs over another source
-- ============================================================================

/-- The engine over another source, of which as many tokens were pulled. -/
def Engine.onto (e : Engine σ) (s' : τ) : Engine τ :=
  ⟨e.buffer.onto s', e.speculation, e.memo, e.settings, e.furthest, e.runs, e.compactions, e.depth,
    e.depthHit⟩

theorem Engine.onto_onto {e : Engine σ} (h : e.buffer.From s) (s' : τ) :
    (e.onto s').onto s = e := by
  show Engine.mk ((e.buffer.onto s').onto s) e.speculation e.memo e.settings e.furthest e.runs
    e.compactions e.depth e.depthHit = e
  rw [Lookahead.onto_onto h]

/-- What came of a step, over another source. -/
def Run.onto (x : EStateM.Result Fault (Engine σ) α) (s' : τ) :
    EStateM.Result Fault (Engine τ) α :=
  match x with
  | .ok a e => .ok a (e.onto s')
  | .error fault e => .error fault (e.onto s')

namespace Engine

/-- The step from `e` pulled from `s` only; and if it ended and pulled no more than `limit` tokens
    in all, the other one is the same step over `s'`. -/
structure Mirrored (s : σ) (s' : τ) (limit : Nat) (e : Engine σ)
    (x : EStateM.Result Fault (Engine σ) α) (x' : EStateM.Result Fault (Engine τ) α) : Prop where
  source : (Run.final x).buffer.From s
  pulled : e.buffer.pulled ≤ (Run.final x).buffer.pulled
  same : Run.Ends x → (Run.final x).buffer.pulled ≤ limit → x' = Run.onto x s'

/-- Over `s'` the second step does what the first one does over `s`. -/
def Mirrors (s : σ) (s' : τ) (limit : Nat) (m : Run σ α) (m' : Run τ α) : Prop :=
  ∀ e, e.buffer.From s → Mirrored s s' limit e (m e) (m' (e.onto s'))

namespace Mirrors

theorem pure (a : α) : Mirrors s s' limit (Pure.pure a) (Pure.pure a) :=
  fun _ h => ⟨h, Nat.le_refl _, fun _ _ => rfl⟩

/-- A run out of fuel says nothing. -/
theorem exhausted (m' : Run τ α) : Mirrors s s' limit (throw .exhausted) m' :=
  fun _ h => ⟨h, Nat.le_refl _, fun hends => absurd rfl hends⟩

theorem bind {m : Run σ α} {m' : Run τ α} {k : α → Run σ β} {k' : α → Run τ β}
    (hm : Mirrors s s' limit m m') (hk : ∀ a, Mirrors s s' limit (k a) (k' a)) :
    Mirrors s s' limit (m >>= k) (m' >>= k') := by
  intro e h
  obtain ⟨hsource, hpulled, hsame⟩ := hm e h
  cases hrun : m e with
  | ok a e₁ =>
      rw [hrun] at hsource hpulled hsame
      rw [Run.bind_of_ok hrun]
      obtain ⟨hsource', hpulled', hsame'⟩ := hk a e₁ hsource
      refine ⟨hsource', Nat.le_trans hpulled hpulled', fun hends hle => ?_⟩
      rw [Run.bind_of_ok (hsame trivial (Nat.le_trans hpulled' hle))]
      exact hsame' hends hle
  | error fault e₁ =>
      rw [hrun] at hsource hpulled hsame
      rw [Run.bind_of_error hrun]
      exact ⟨hsource, hpulled, fun hends hle => Run.bind_of_error (hsame hends hle)⟩

theorem cond {m₁ m₂ : Run σ α} {m₁' m₂' : Run τ α} (h₁ : Mirrors s s' limit m₁ m₁')
    (h₂ : Mirrors s s' limit m₂ m₂') (a : Bool) :
    Mirrors s s' limit (if a then m₁ else m₂) (if a then m₁' else m₂') := by
  cases a with
  | true => exact h₁
  | false => exact h₂

/-- A step that always answers and pulls nothing. -/
theorem of_ok {m : Run σ α} {m' : Run τ α} {a : Engine σ → α} {f : Engine σ → Engine σ}
    (hm : ∀ e, m e = .ok (a e) (f e))
    (hstill : ∀ e, (f e).buffer.source = e.buffer.source ∧ (f e).buffer.pulled = e.buffer.pulled)
    (hm' : ∀ e, m' (e.onto s') = .ok (a e) ((f e).onto s')) : Mirrors s s' limit m m' := by
  intro e h
  obtain ⟨hsource, hpulled⟩ := hstill e
  rw [hm, hm']
  refine ⟨?_, Nat.le_of_eq hpulled.symm, fun _ _ => rfl⟩
  show (f e).buffer.source = TokenSource.after s (f e).buffer.pulled
  rw [hsource, hpulled]
  exact h

-- ============================================================================
-- Primitive steps
-- ============================================================================

theorem cursor : Mirrors s s' limit (Engine.cursor : Run σ Nat) (Engine.cursor : Run τ Nat) :=
  of_ok (fun _ => rfl) (fun _ => ⟨rfl, rfl⟩) fun _ => rfl

theorem openMark :
    Mirrors s s' limit (Engine.openMark : Run σ Unit) (Engine.openMark : Run τ Unit) :=
  of_ok (fun _ => rfl) (fun _ => ⟨rfl, rfl⟩) fun _ => rfl

/-- A step of the buffer. -/
theorem onBuffer {step : Lookahead.Step σ α} {step' : Lookahead.Step τ α}
    (hstep : ∀ b, b.From s → match step b with
      | .ok a b₁ => b₁.From s ∧ b.pulled ≤ b₁.pulled ∧
          (b₁.pulled ≤ limit → step' (b.onto s') = .ok a (b₁.onto s'))
      | .error fault b₁ => b₁ = b ∧ step' (b.onto s') = .error fault (b.onto s')) :
    Mirrors s s' limit (Engine.onBuffer step) (Engine.onBuffer step') := by
  intro e h
  have hbuffer := hstep e.buffer h
  simp only [Engine.onBuffer]
  cases hrun : step e.buffer with
  | ok a b =>
      rw [hrun] at hbuffer
      obtain ⟨hsource, hpulled, hsame⟩ := hbuffer
      refine ⟨hsource, hpulled, fun _ hle => ?_⟩
      rw [show (e.onto s').buffer = e.buffer.onto s' from rfl, hsame hle]
      rfl
  | error fault b =>
      rw [hrun] at hbuffer
      obtain ⟨rfl, hsame⟩ := hbuffer
      refine ⟨h, Nat.le_refl _, fun _ _ => ?_⟩
      rw [show (e.onto s').buffer = e.buffer.onto s' from rfl, hsame]
      rfl

theorem seek (target : Nat) : Mirrors s s' limit
    (Engine.onBuffer (Lookahead.seek target) : Run σ Unit)
    (Engine.onBuffer (Lookahead.seek target) : Run τ Unit) := by
  refine onBuffer fun b h => ?_
  by_cases hle : target ≤ b.size
  · have hle' : target ≤ (b.onto s').size := hle
    simp only [Lookahead.seek, if_pos hle, if_pos hle']
    exact ⟨h, Nat.le_refl _, fun _ => rfl⟩
  · have hle' : ¬ target ≤ (b.onto s').size := hle
    simp only [Lookahead.seek, if_neg hle, if_neg hle']
    exact ⟨trivial, rfl⟩

theorem slice (start stop : Nat) : Mirrors s s' limit
    (Engine.onBuffer (Lookahead.slice start stop) : Run σ (List Token))
    (Engine.onBuffer (Lookahead.slice start stop) : Run τ (List Token)) := by
  refine onBuffer fun b h => ?_
  by_cases hle : start ≤ stop ∧ stop ≤ b.size
  · have hle' : start ≤ stop ∧ stop ≤ (b.onto s').size := hle
    simp only [Lookahead.slice, if_pos hle, if_pos hle']
    exact ⟨h, Nat.le_refl _, fun _ => rfl⟩
  · have hle' : ¬ (start ≤ stop ∧ stop ≤ (b.onto s').size) := hle
    simp only [Lookahead.slice, if_neg hle, if_neg hle']
    exact ⟨trivial, trivial⟩

theorem abandon :
    Mirrors s s' limit (Engine.abandon : Run σ Unit) (Engine.abandon : Run τ Unit) := by
  intro e h
  cases hmarks : e.speculation.marks with
  | nil =>
      have hmarks' : (e.onto s').speculation.marks = [] := hmarks
      rw [abandon_of_nil hmarks, abandon_of_nil hmarks']
      exact ⟨h, Nat.le_refl _, fun _ _ => rfl⟩
  | cons mark marks =>
      have hmarks' : (e.onto s').speculation.marks = mark :: marks := hmarks
      rw [abandon_of_cons hmarks, abandon_of_cons hmarks']
      have hseek : Mirrored s s' limit (e.unmarked marks) _ _ := seek mark (e.unmarked marks) h
      exact ⟨hseek.source, hseek.pulled, hseek.same⟩

theorem compact :
    Mirrors s s' limit (Engine.compact : Run σ Unit) (Engine.compact : Run τ Unit) := by
  intro e h
  have hcan : (e.onto s').canCompact = e.canCompact := rfl
  simp only [Engine.compact, hcan]
  split
  · exact ⟨h, Nat.le_refl _, fun _ _ => rfl⟩
  · exact ⟨h, Nat.le_refl _, fun _ _ => rfl⟩

theorem commit :
    Mirrors s s' limit (Engine.commit : Run σ Unit) (Engine.commit : Run τ Unit) := by
  intro e h
  cases hmarks : e.speculation.marks with
  | nil =>
      have hmarks' : (e.onto s').speculation.marks = [] := hmarks
      rw [commit_of_nil hmarks, commit_of_nil hmarks']
      exact ⟨h, Nat.le_refl _, fun _ _ => rfl⟩
  | cons mark marks =>
      have hmarks' : (e.onto s').speculation.marks = mark :: marks := hmarks
      have hcan : (((e.onto s').committed marks).canCompact && !(e.onto s').buffer.isEmpty)
          = ((e.committed marks).canCompact && !e.buffer.isEmpty) := rfl
      rw [commit_of_cons hmarks, commit_of_cons hmarks', hcan]
      split
      · have hcompact : Mirrored s s' limit (e.committed marks) _ _ := compact _ h
        exact ⟨hcompact.source, hcompact.pulled, hcompact.same⟩
      · exact ⟨h, Nat.le_refl _, fun _ _ => rfl⟩

theorem close (matched : Bool) :
    Mirrors s s' limit (Engine.close matched : Run σ Unit) (Engine.close matched : Run τ Unit) := by
  cases matched with
  | true => exact commit
  | false => exact abandon

/-- A speculation around bodies that do the same. -/
theorem speculate {body : Run σ Bool} {body' : Run τ Bool} (h : Mirrors s s' limit body body') :
    Mirrors s s' limit (Engine.speculate body) (Engine.speculate body') :=
  bind openMark fun _ => bind h fun matched => bind (close matched) fun _ => pure matched

theorem expect (kind : Kind) (found : Token) : Mirrors s s' limit
    (Engine.expect kind found : Run σ Unit) (Engine.expect kind found : Run τ Unit) :=
  of_ok (fun _ => rfl) (fun _ => ⟨rfl, rfl⟩) fun _ => rfl

theorem replay (point : Option FailurePoint) : Mirrors s s' limit
    (Engine.replay point : Run σ Unit) (Engine.replay point : Run τ Unit) :=
  of_ok (fun _ => rfl) (fun _ => ⟨rfl, rfl⟩) fun _ => rfl

theorem replayOutcome (outcome : Outcome) : Mirrors s s' limit
    (Engine.replayOutcome outcome : Run σ Bool) (Engine.replayOutcome outcome : Run τ Bool) := by
  cases outcome with
  | parsed stop furthest =>
      exact bind (replay furthest) fun _ => bind (seek stop) fun _ => pure true
  | failed furthest => exact bind (replay furthest) fun _ => pure false

theorem memoized {id : RuleId} {body : Run σ Bool} {body' : Run τ Bool}
    (h : Mirrors s s' limit body body') :
    Mirrors s s' limit (Engine.memoized id body) (Engine.memoized id body') := by
  have huses : Mirrors s s' limit (usesMemo : Run σ Bool) (usesMemo : Run τ Bool) :=
    of_ok (fun _ => rfl) (fun _ => ⟨rfl, rfl⟩) fun _ => rfl
  have hlookup : Mirrors s s' limit (outcomeHere id : Run σ (Option Outcome))
      (outcomeHere id : Run τ (Option Outcome)) :=
    of_ok (fun _ => rfl) (fun _ => ⟨rfl, rfl⟩) fun _ => rfl
  have hcount : Mirrors s s' limit (countRun id : Run σ Unit) (countRun id : Run τ Unit) :=
    of_ok (fun _ => rfl) (fun _ => ⟨rfl, rfl⟩) fun _ => rfl
  have htake : Mirrors s s' limit (takeFurthest : Run σ (Option Mismatch))
      (takeFurthest : Run τ (Option Mismatch)) :=
    of_ok (fun _ => rfl) (fun _ => ⟨rfl, rfl⟩) fun _ => rfl
  have hkeep : ∀ start outer matched, Mirrors s s' limit
      (keepOutcome id start outer matched : Run σ Unit)
      (keepOutcome id start outer matched : Run τ Unit) :=
    fun _ _ _ => of_ok (fun _ => rfl) (fun _ => ⟨rfl, rfl⟩) fun _ => rfl
  refine bind huses fun uses => cond ?_ (bind hcount fun _ => speculate h) uses
  refine bind cursor fun start => bind hlookup fun outcome => ?_
  cases outcome with
  | some outcome => exact replayOutcome outcome
  | none =>
      exact bind hcount fun _ => bind htake fun outer => bind (speculate h) fun matched =>
        bind (hkeep start outer matched) fun _ => pure matched

-- ============================================================================
-- Looks at the source
-- ============================================================================

section

variable (hagree : TokenSource.AgreeBelow limit s s')

include hagree

theorem next : Mirrors s s' limit (Engine.next : Run σ Token) (Engine.next : Run τ Token) := by
  refine onBuffer fun b h => ?_
  refine ⟨h.reach 1, b.pulled_le_reach 1, fun hle => ?_⟩
  show EStateM.Result.ok ((b.onto s').look 0).1 ((b.onto s').reach 1)
    = .ok (b.look 0).1 ((b.reach 1).onto s')
  rw [h.fst_look_onto hagree hle, h.onto_reach hagree hle]

theorem consume :
    Mirrors s s' limit (Engine.consume : Run σ Unit) (Engine.consume : Run τ Unit) := by
  refine onBuffer fun b h => ?_
  refine ⟨h.reach 1, b.pulled_le_reach 1, fun hle => ?_⟩
  have hreach : (b.reach 1).onto s' = (b.onto s').reach 1 := h.onto_reach hagree hle
  show EStateM.Result.ok () { (b.onto s').reach 1 with
    cursor := ((b.onto s').reach 1).cursor + 1 } = _
  rw [← hreach]
  rfl

theorem peek (k : Nat) :
    Mirrors s s' limit (Engine.peek k : Run σ Token) (Engine.peek k : Run τ Token) := by
  refine onBuffer fun b h => ?_
  have hcursor : (b.onto s').cursor = b.cursor := rfl
  by_cases hk : k = 0
  · simp only [Lookahead.peek, if_pos hk]
    exact ⟨trivial, trivial⟩
  · by_cases hlimit : Machine.bufferLimit < b.cursor + k
    · simp only [Lookahead.peek, if_neg hk, hcursor, if_pos hlimit]
      exact ⟨trivial, trivial⟩
    · simp only [Lookahead.peek, if_neg hk, hcursor, if_neg hlimit]
      obtain ⟨i, rfl⟩ : ∃ i, k = i + 1 := ⟨k - 1, by omega⟩
      refine ⟨h.reach _, b.pulled_le_reach _, fun hle => ?_⟩
      have hle : (b.reach (i + 1)).pulled ≤ limit := hle
      show EStateM.Result.ok ((b.onto s').look i).1 ((b.onto s').reach (i + 1))
        = .ok (b.look i).1 ((b.reach (i + 1)).onto s')
      rw [h.fst_look_onto hagree hle, h.onto_reach hagree hle]

theorem takeKind (kind : Kind) : Mirrors s s' limit
    (Engine.takeKind kind : Run σ Bool) (Engine.takeKind kind : Run τ Bool) := by
  refine bind (next hagree) fun token => ?_
  split
  · exact bind (consume hagree) fun _ => pure true
  · exact bind (expect kind token) fun _ => pure false

theorem matchKind (kind : Kind) : Mirrors s s' limit
    (Engine.matchKind kind : Run σ Bool) (Engine.matchKind kind : Run τ Bool) :=
  speculate (takeKind hagree kind)

theorem atDelimiter (delimiter : Kind) : Mirrors s s' limit
    (Engine.atDelimiter delimiter : Run σ Bool) (Engine.atDelimiter delimiter : Run τ Bool) := by
  refine bind (next hagree) fun token => ?_
  split
  · exact pure true
  · exact bind (expect delimiter token) fun _ => pure false

theorem noteDepthHit : Mirrors s s' limit
    (Engine.noteDepthHit : Run σ Unit) (Engine.noteDepthHit : Run τ Unit) := by
  have hnote : Mirrors s s' limit
      (do
        let token ← Engine.next
        modifyThe (Engine σ) fun e =>
          { e with depthHit := some ⟨e.buffer.position, token.span⟩ } : Run σ Unit)
      (do
        let token ← Engine.next
        modifyThe (Engine τ) fun e =>
          { e with depthHit := some ⟨e.buffer.position, token.span⟩ } : Run τ Unit) :=
    bind (next hagree) fun _ => of_ok (fun _ => rfl) (fun _ => ⟨rfl, rfl⟩) fun _ => rfl
  intro e h
  have hget : ∀ e : Engine σ, (get : Run σ (Engine σ)) e = .ok e e := fun _ => rfl
  have hget' : ∀ e : Engine τ, (get : Run τ (Engine τ)) e = .ok e e := fun _ => rfl
  have hhit : (e.onto s').depthHit = e.depthHit := rfl
  simp only [Engine.noteDepthHit, Run.bind_of_ok (hget _), Run.bind_of_ok (hget' _), hhit]
  split
  · exact hnote e h
  · exact ⟨h, Nat.le_refl _, fun _ _ => rfl⟩

theorem nested {body : Run σ Bool} {body' : Run τ Bool} (hbody : Mirrors s s' limit body body') :
    Mirrors s s' limit (Engine.nested body) (Engine.nested body') := by
  intro e h
  by_cases hdeep : e.settings.maxDepth ≤ e.depth
  · have hdeep' : (e.onto s').settings.maxDepth ≤ (e.onto s').depth := hdeep
    rw [nested_of_le hdeep, nested_of_le hdeep']
    exact bind (noteDepthHit hagree) (fun _ => pure false) e h
  · have hdeep' : (e.onto s').depth < (e.onto s').settings.maxDepth := Nat.lt_of_not_le hdeep
    have hleave : Mirrors s s' limit
        (modifyThe (Engine σ) fun e => { e with depth := e.depth - 1 } : Run σ Unit)
        (modifyThe (Engine τ) fun e => { e with depth := e.depth - 1 } : Run τ Unit) :=
      of_ok (fun _ => rfl) (fun _ => ⟨rfl, rfl⟩) fun _ => rfl
    rw [nested_of_lt (Nat.lt_of_not_le hdeep), nested_of_lt hdeep']
    obtain ⟨hsource, hpulled, hsame⟩ := bind hbody
      (fun matched => bind hleave fun _ => pure matched) { e with depth := e.depth + 1 } h
    exact ⟨hsource, hpulled, hsame⟩

theorem failure : Mirrors s s' limit
    (Engine.failure : Run σ ParseError) (Engine.failure : Run τ ParseError) := by
  intro e h
  have hget : ∀ e : Engine σ, (get : Run σ (Engine σ)) e = .ok e e := fun _ => rfl
  have hget' : ∀ e : Engine τ, (get : Run τ (Engine τ)) e = .ok e e := fun _ => rfl
  have hhit : (e.onto s').depthHit = e.depthHit := rfl
  have hfurthest : (e.onto s').furthest = e.furthest := rfl
  simp only [Engine.failure, Run.bind_of_ok (hget _), Run.bind_of_ok (hget' _), hhit, hfurthest]
  cases e.depthHit with
  | some hit => exact ⟨h, Nat.le_refl _, fun _ _ => rfl⟩
  | none =>
      cases e.furthest with
      | some m => exact ⟨h, Nat.le_refl _, fun _ _ => rfl⟩
      | none => exact bind (next hagree) (fun _ => pure _) e h

-- ============================================================================
-- Rules and recognitions
-- ============================================================================

/-- A rule that ends over the one source does the same over the other one, on as much fuel or
    more. -/
theorem eval (g : Grammar ν) {n n' : Nat} (hle : n ≤ n') (rule : Rule ν) :
    Mirrors s s' limit (Engine.eval g n rule : Run σ Bool)
      (Engine.eval g n' rule : Run τ Bool) := by
  induction n generalizing n' rule with
  | zero => exact exhausted _
  | succ n ih =>
      obtain ⟨n', rfl⟩ : ∃ k, n' = k + 1 := ⟨n' - 1, by omega⟩
      have hle : n ≤ n' := by omega
      cases rule with
      | token kind => exact matchKind hagree kind
      | const answer => exact pure answer
      | both first second =>
          exact bind (ih hle first) fun a => cond (ih hle second) (pure false) a
      | either first second =>
          exact bind (ih hle first) fun a => cond (pure true) (ih hle second) a
      | negate rule => exact bind (ih hle rule) fun a => pure !a
      | attempt rule => exact speculate (ih hle rule)
      | trail delimiter element =>
          have hagain := bind (ih hle element) fun a =>
            cond (ih hle (.trail delimiter element)) (pure false) a
          have hnext := bind (matchKind hagree delimiter) fun a => cond hagain (pure false) a
          exact bind (atDelimiter hagree delimiter) fun a => cond hnext (pure true) a
      | memo id body => exact memoized (ih hle body)
      | nested body => exact nested hagree (ih hle body)
      | ref name => exact ih hle (g name)
      | ahead k kind => exact bind (peek hagree k) fun token => pure _
      | stack step =>
          refine bind ?_ fun _ => pure true
          cases step with
          | openMark => exact openMark
          | abandon => exact abandon
          | commit => exact commit
          | compact => exact compact

theorem recognizing {body : Run σ Bool} {body' : Run τ Bool}
    (hbody : Mirrors s s' limit body body') :
    Mirrors s s' limit (Engine.recognizing body) (Engine.recognizing body') := by
  have hbegin :
      Mirrors s s' limit (beginRecognition : Run σ Unit) (beginRecognition : Run τ Unit) :=
    of_ok (fun _ => rfl) (fun _ => ⟨rfl, rfl⟩) fun _ => rfl
  have hposition : Mirrors s s' limit (position : Run σ Nat) (position : Run τ Nat) :=
    of_ok (fun _ => rfl) (fun _ => ⟨rfl, rfl⟩) fun _ => rfl
  refine bind hbegin fun _ => bind openMark fun _ => bind cursor fun start =>
    bind hposition fun first => bind hbody fun matched => cond ?_ ?_ matched
  · exact bind cursor fun stop => bind (slice start stop) fun tokens => bind commit fun _ =>
      pure _
  · exact bind abandon fun _ => bind (failure hagree) fun err => pure _

theorem recognizeEntry {n n' : Nat} (hle : n ≤ n') (entry : Entry) : Mirrors s s' limit
    (Engine.recognizeEntry n entry : Run σ (Except ParseError Match))
    (Engine.recognizeEntry n' entry : Run τ (Except ParseError Match)) :=
  recognizing hagree (eval hagree _ hle _)

end

end Mirrors

-- ============================================================================
-- Recognitions of entries
-- ============================================================================

variable {n n' : Nat} {entry : Entry} {e e' : Engine σ}

/-- A recognition pulls from its own source only. -/
theorem from_recognizeEntry {result : Except ParseError Match} (h : e.buffer.From s)
    (hrun : recognizeEntry n entry e = .ok result e') :
    e'.buffer.From s ∧ e.buffer.pulled ≤ e'.buffer.pulled := by
  have hagree : TokenSource.AgreeBelow 0 s s := .refl s
  have hmirrored := Mirrors.recognizeEntry hagree (Nat.le_refl n) entry e h
  rw [hrun] at hmirrored
  exact ⟨hmirrored.source, hmirrored.pulled⟩

/-- A recognition that ended does the same over every source that hands out the tokens that it
    pulled, on as much fuel or more. -/
theorem recognizeEntry_onto (h : e.buffer.From s) (hagree : TokenSource.AgreeBelow limit s s')
    (hle : n ≤ n') (hends : Run.Ends (recognizeEntry n entry e))
    (hlimit : (Run.final (recognizeEntry n entry e)).buffer.pulled ≤ limit) :
    recognizeEntry n' entry (e.onto s') = Run.onto (recognizeEntry n entry e) s' :=
  (Mirrors.recognizeEntry hagree hle entry e h).same hends hlimit

end Engine
end Packrat
