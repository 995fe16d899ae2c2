/-
  Packrat.Proofs.Atomicity

  What a run leaves behind, whatever the state it starts from.

  A run that ends closes what it opened (`Balanced`), and under an open mark it
  loses nothing that was buffered or kept (`Grown`).  From this it follows that
  an attempt that fails is undone: the buffer is what it was but for tokens
  pulled meanwhile (`Restored`).

  Both are proven for every combinator from its parts, and so hold of every
  rule; that a speculation may be undone at all rests on its body leaving the
  marks as they were.
-/

import Packrat.Parse
import Packrat.Proofs.Closure

namespace Packrat

-- ============================================================================
-- Pulling
-- ============================================================================

namespace Lookahead

variable {σ : Type} [TokenSource σ]

/-- Pulling does not mind where the cursor is. -/
theorem pullMany_moveTo (n target : Nat) (b : Lookahead σ) :
    pullMany n { b with cursor := target } = { pullMany n b with cursor := target } := by
  induction n generalizing b with
  | zero => rfl
  | succ n ih => exact ih b.pull

theorem pullMany_pullMany (m n : Nat) (b : Lookahead σ) :
    pullMany m (pullMany n b) = pullMany (n + m) b := by
  induction n generalizing b with
  | zero => rw [Nat.zero_add]; rfl
  | succ n ih => rw [Nat.succ_add]; exact ih b.pull

end Lookahead

/-- An outcome under a key that had none loses no outcome from before. -/
theorem Memo.get?_record_of_none {m m' : Memo} {id : RuleId} {pos : Nat}
    (hnew : m.get? id pos = none)
    (hkeeps : ∀ id' pos' outcome, m.get? id' pos' = some outcome →
      m'.get? id' pos' = some outcome)
    (new : Outcome) {id' : RuleId} {pos' : Nat} {outcome : Outcome}
    (hget : m.get? id' pos' = some outcome) :
    (m'.record id pos new).get? id' pos' = some outcome := by
  have hother : ¬(id = id' ∧ pos = pos') := by
    rintro ⟨rfl, rfl⟩
    rw [hnew] at hget
    cases hget
  rw [get?_record, if_neg hother]
  exact hkeeps id' pos' outcome hget

namespace Engine

variable {σ ν α β : Type}

-- ============================================================================
-- States before and after
-- ============================================================================

/-- What was opened in between was closed: the marks and the level are as before, and the opens
    are made up for by abandons and commits. -/
structure Balanced (e e' : Engine σ) : Prop where
  marks : e'.speculation.marks = e.speculation.marks
  depth : e'.depth = e.depth
  counts : ∃ abandons commits,
    e'.speculation.abandons = e.speculation.abandons + abandons ∧
    e'.speculation.commits = e.speculation.commits + commits ∧
    e'.speculation.opens = e.speculation.opens + (abandons + commits)

theorem Balanced.refl (e : Engine σ) : Balanced e e := ⟨rfl, rfl, 0, 0, rfl, rfl, rfl⟩

theorem Balanced.trans {e e' e'' : Engine σ} (h : Balanced e e') (h' : Balanced e' e'') :
    Balanced e e'' := by
  obtain ⟨abandons, commits, h₁, h₂, h₃⟩ := h.counts
  obtain ⟨abandons', commits', h₁', h₂', h₃'⟩ := h'.counts
  refine ⟨h'.marks.trans h.marks, h'.depth.trans h.depth, abandons + abandons',
    commits + commits', ?_, ?_, ?_⟩ <;> omega

variable [TokenSource σ]

/-- Nothing was lost in between: tokens were only pulled, and outcomes only added. -/
structure Grown (e e' : Engine σ) : Prop where
  buffer : ∃ n, e'.buffer = { e.buffer.pullMany n with cursor := e'.buffer.cursor }
  compactions : e'.compactions = e.compactions
  memo : ∀ id pos outcome, e.memo.get? id pos = some outcome →
    e'.memo.get? id pos = some outcome

/-- What was done in between was undone: the buffer is as before, the cursor and the base
    included, but for tokens pulled behind those that were buffered; it was not emptied, and no
    outcome was lost or changed. -/
structure Restored (e e' : Engine σ) : Prop where
  buffer : ∃ n, e'.buffer = e.buffer.pullMany n
  compactions : e'.compactions = e.compactions
  memo : ∀ id pos outcome, e.memo.get? id pos = some outcome →
    e'.memo.get? id pos = some outcome

variable {e e' e'' : Engine σ}

theorem Grown.base (h : Grown e e') : e'.buffer.base = e.buffer.base := by
  obtain ⟨n, hn⟩ := h.buffer
  rw [hn]
  exact Lookahead.base_pullMany n _

theorem Grown.pulled_le (h : Grown e e') : e.buffer.pulled ≤ e'.buffer.pulled := by
  obtain ⟨n, hn⟩ := h.buffer
  rw [hn]
  exact Nat.le_trans (Nat.le_add_right _ n) (Nat.le_of_eq (Lookahead.pulled_pullMany n _).symm)

theorem Grown.trans (h : Grown e e') (h' : Grown e' e'') : Grown e e'' := by
  obtain ⟨n, hn⟩ := h.buffer
  obtain ⟨m, hm⟩ := h'.buffer
  refine ⟨⟨n + m, ?_⟩, h'.compactions.trans h.compactions, fun id pos outcome hget =>
    h'.memo id pos outcome (h.memo id pos outcome hget)⟩
  rw [hm, hn, Lookahead.pullMany_moveTo, Lookahead.pullMany_pullMany]

theorem Restored.trans (h : Restored e e') (h' : Restored e' e'') : Restored e e'' := by
  obtain ⟨n, hn⟩ := h.buffer
  obtain ⟨m, hm⟩ := h'.buffer
  refine ⟨⟨n + m, ?_⟩, h'.compactions.trans h.compactions, fun id pos outcome hget =>
    h'.memo id pos outcome (h.memo id pos outcome hget)⟩
  rw [hm, hn, Lookahead.pullMany_pullMany]

theorem Restored.refl (e : Engine σ) : Restored e e := ⟨⟨0, rfl⟩, rfl, fun _ _ _ h => h⟩

/-- What grew is restored once the cursor is back. -/
theorem Grown.restored (h : Grown e e') (hcursor : e'.buffer.cursor = e.buffer.cursor) :
    Restored e e' := by
  obtain ⟨n, hn⟩ := h.buffer
  refine ⟨⟨n, ?_⟩, h.compactions, h.memo⟩
  have hsame : (e.buffer.pullMany n).cursor = e.buffer.cursor := Lookahead.cursor_pullMany n _
  rw [hn, hcursor, ← hsame]

/-- What a run that ends makes of the engine.  Without an open mark it may empty the buffer. -/
structure Tidy (e e' : Engine σ) : Prop where
  balanced : Balanced e e'
  grown : e.speculation.marks ≠ [] → Grown e e'

theorem Tidy.refl (e : Engine σ) : Tidy e e where
  balanced := .refl e
  grown _ := ⟨⟨0, rfl⟩, rfl, fun _ _ _ h => h⟩

theorem Tidy.trans (h : Tidy e e') (h' : Tidy e' e'') : Tidy e e'' where
  balanced := h.balanced.trans h'.balanced
  grown hopen := (h.grown hopen).trans (h'.grown (by rwa [h.balanced.marks]))

/-- A step that works on no marks and drops nothing. -/
theorem Tidy.of_grown (h : Grown e e') (hspeculation : e'.speculation = e.speculation)
    (hdepth : e'.depth = e.depth) : Tidy e e' where
  balanced := by
    refine ⟨by rw [hspeculation], hdepth, 0, 0, ?_⟩
    rw [hspeculation]
    exact ⟨rfl, rfl, rfl⟩
  grown _ := h

/-- A step that leaves the buffer alone and counts at most in the memo. -/
theorem Grown.of_buffer_eq (hbuffer : e'.buffer = e.buffer)
    (hcompactions : e'.compactions = e.compactions)
    (hmemo : ∀ id pos, e'.memo.get? id pos = e.memo.get? id pos) : Grown e e' where
  buffer := ⟨0, by rw [hbuffer]; rfl⟩
  compactions := hcompactions
  memo id pos outcome h := (hmemo id pos).trans h

-- ============================================================================
-- Runs that leave the engine tidy
-- ============================================================================

/-- Whenever the step ends, it leaves the engine tidy. -/
def Steady (m : Run σ α) : Prop := ∀ e a e', m e = .ok a e' → Tidy e e'

namespace Steady

theorem composes : Composes fun m : Run σ _ => Steady m :=
  .relates .refl .trans

theorem modify {f : Engine σ → Engine σ} (hf : ∀ e, Tidy e (f e)) :
    Steady (modify f : Run σ Unit) := by
  rintro e _ _ ⟨⟩
  exact hf e

/-- A step of the buffer that drops nothing. -/
theorem onBuffer {step : Lookahead.Step σ α}
    (hstep : ∀ b a b', step b = .ok a b' →
      ∃ n, b' = { b.pullMany n with cursor := b'.cursor }) :
    Steady (Engine.onBuffer step) := by
  intro e a e' hrun
  simp only [Engine.onBuffer] at hrun
  cases hb : step e.buffer with
  | error fault b => simp [hb] at hrun
  | ok a' b =>
      simp only [hb] at hrun
      cases hrun
      exact .of_grown ⟨hstep _ _ _ hb, rfl, fun _ _ _ h => h⟩ rfl rfl

theorem next : Steady (Engine.next : Run σ Token) := by
  apply onBuffer
  rintro b _ _ ⟨⟩
  exact ⟨_, rfl⟩

theorem peek (k : Nat) : Steady (Engine.peek k : Run σ Token) := by
  intro e token e' hrun
  rw [peek_eq_ok hrun]
  exact .of_grown ⟨⟨_, rfl⟩, rfl, fun _ _ _ h => h⟩ rfl rfl

theorem consume : Steady (Engine.consume : Run σ Unit) := by
  apply onBuffer
  rintro b _ _ ⟨⟩
  exact ⟨_, rfl⟩

theorem seek (target : Nat) : Steady (Engine.onBuffer (Lookahead.seek target) : Run σ Unit) := by
  apply onBuffer
  intro b a b' hrun
  simp only [Lookahead.seek] at hrun
  split at hrun
  · cases hrun
    exact ⟨0, rfl⟩
  · cases hrun

theorem expect (kind : Kind) (found : Token) : Steady (Engine.expect kind found : Run σ Unit) :=
  modify fun _ => .of_grown (.of_buffer_eq rfl rfl fun _ _ => rfl) rfl rfl

theorem replay (point : Option FailurePoint) : Steady (Engine.replay point : Run σ Unit) :=
  modify fun _ => .of_grown (.of_buffer_eq rfl rfl fun _ _ => rfl) rfl rfl

theorem noteDepthHit : Steady (Engine.noteDepthHit : Run σ Unit) := by
  refine composes.bind (fun _ _ _ h => by cases h; exact composes.pure () _ _ _ rfl) fun e => ?_
  refine of_cond (composes.bind next fun token => ?_) (composes.pure ()) _
  exact modify fun _ => .of_grown (.of_buffer_eq rfl rfl fun _ _ => rfl) rfl rfl

theorem takeKind (kind : Kind) : Steady (Engine.takeKind kind : Run σ Bool) :=
  composes.takeKind next consume expect kind

theorem atDelimiter (delimiter : Kind) : Steady (Engine.atDelimiter delimiter : Run σ Bool) :=
  composes.atDelimiter next expect delimiter

end Steady

-- ============================================================================
-- Speculations
-- ============================================================================

/-- A body that runs under a new mark loses nothing. -/
theorem Tidy.grown_of_pushed (h : Tidy e.pushed e') : Grown e e' :=
  have hgrown := h.grown (List.cons_ne_nil _ _)
  ⟨hgrown.buffer, hgrown.compactions, hgrown.memo⟩

/-- Taking the new mark away again, one way or the other, makes up for opening it. -/
theorem Tidy.balanced_of_pushed (h : Tidy e.pushed e') {e'' : Engine σ} {abandons commits : Nat}
    (hmarks : e''.speculation.marks = e.speculation.marks) (hdepth : e''.depth = e'.depth)
    (hopens : e''.speculation.opens = e'.speculation.opens)
    (habandons : e''.speculation.abandons = e'.speculation.abandons + abandons)
    (hcommits : e''.speculation.commits = e'.speculation.commits + commits)
    (hone : abandons + commits = 1) : Balanced e e'' := by
  obtain ⟨a, c, ha, hc, ho⟩ := h.balanced.counts
  have ha' : e'.speculation.abandons = e.speculation.abandons + a := ha
  have hc' : e'.speculation.commits = e.speculation.commits + c := hc
  have ho' : e'.speculation.opens = e.speculation.opens + 1 + (a + c) := ho
  exact ⟨hmarks, hdepth.trans h.balanced.depth, a + abandons, c + commits, by omega, by omega,
    by omega⟩

theorem Tidy.abandon (h : Tidy e.pushed e') (hrun : Engine.abandon e' = .ok () e'') :
    Balanced e e'' ∧ Restored e e'' := by
  obtain ⟨mark, marks, hmarks, -, rfl⟩ := abandon_eq_ok hrun
  rw [h.balanced.marks] at hmarks
  obtain ⟨rfl, rfl⟩ := List.cons.inj hmarks
  refine ⟨h.balanced_of_pushed rfl rfl rfl rfl rfl (Nat.add_zero 1), ?_⟩
  have hgrown := h.grown_of_pushed
  obtain ⟨n, hn⟩ := hgrown.buffer
  have hback : Grown e (e'.abandoned e.buffer.cursor e.speculation.marks) :=
    ⟨⟨n, by simp only [abandoned]; rw [hn]⟩, hgrown.compactions, hgrown.memo⟩
  exact hback.restored rfl

theorem Tidy.commit (h : Tidy e.pushed e') (hrun : Engine.commit e' = .ok () e'') :
    Tidy e e'' := by
  obtain ⟨mark, marks, hmarks, hcommit⟩ := commit_eq_ok hrun
  rw [h.balanced.marks] at hmarks
  obtain ⟨rfl, rfl⟩ := List.cons.inj hmarks
  rcases hcommit with rfl | ⟨hnil, -, rfl⟩
  · exact ⟨h.balanced_of_pushed rfl rfl rfl rfl rfl (Nat.zero_add 1), fun _ =>
      ⟨h.grown_of_pushed.buffer, h.grown_of_pushed.compactions, h.grown_of_pushed.memo⟩⟩
  · exact ⟨h.balanced_of_pushed hnil.symm rfl rfl rfl rfl (Nat.zero_add 1), fun hopen =>
      absurd hnil hopen⟩

/-- A speculation is what its body is, closed; one that fails is undone. -/
theorem Steady.close_speculate {body : Run σ Bool} (hbody : Steady body) {matched : Bool}
    (hrun : Engine.speculate body e = .ok matched e') :
    Tidy e e' ∧ (matched = false → Restored e e') := by
  obtain ⟨e₁, hbody', hclose⟩ := speculate_eq_ok hrun
  have htidy := hbody _ _ _ hbody'
  cases matched with
  | true => exact ⟨htidy.commit hclose, fun h => nomatch h⟩
  | false =>
      obtain ⟨hbalanced, hrestored⟩ := htidy.abandon hclose
      obtain ⟨n, hn⟩ := hrestored.buffer
      refine ⟨⟨hbalanced, fun _ => ?_⟩, fun _ => hrestored⟩
      exact ⟨⟨n, by rw [hn]⟩, hrestored.compactions, hrestored.memo⟩

theorem Steady.speculate {body : Run σ Bool} (hbody : Steady body) :
    Steady (Engine.speculate body) :=
  fun _ _ _ hrun => (hbody.close_speculate hrun).1

theorem Steady.matchKind (kind : Kind) : Steady (Engine.matchKind kind : Run σ Bool) :=
  .speculate (.takeKind kind)

-- ============================================================================
-- Rules through their memo, and nested ones
-- ============================================================================

theorem Tidy.counted (e : Engine σ) (id : RuleId) : Tidy e (e.counted id) :=
  .of_grown (.of_buffer_eq rfl rfl fun _ _ => rfl) rfl rfl

theorem Tidy.fresh (e : Engine σ) (id : RuleId) : Tidy e (e.fresh id) :=
  .of_grown (.of_buffer_eq rfl rfl fun id' pos => Memo.get?_snd_lookup e.memo id id' _ pos) rfl rfl

/-- Replaying an outcome that was kept moves nothing but the cursor, and not even that if the
    rule had failed. -/
theorem Tidy.replayOutcome {outcome : Outcome} {matched : Bool} {memo : Memo}
    (hmemo : ∀ id pos, memo.get? id pos = e.memo.get? id pos)
    (hrun : Engine.replayOutcome outcome { e with memo } = .ok matched e') :
    Tidy e e' ∧ (matched = false → Restored e e') := by
  have hlookup : Tidy e { e with memo } := .of_grown (.of_buffer_eq rfl rfl hmemo) rfl rfl
  cases outcome with
  | parsed stop point =>
      have hsteady : Steady (Engine.replayOutcome (.parsed stop point) : Run σ Bool) :=
        Steady.composes.bind (.replay point) fun _ =>
          Steady.composes.answer (.seek stop) fun _ => true
      refine ⟨hlookup.trans (hsteady _ _ _ hrun), ?_⟩
      rintro rfl
      obtain ⟨-, e₁, -, hrest⟩ := Run.bind_eq_ok_iff.1 hrun
      obtain ⟨-, e₂, -, hreturn⟩ := Run.bind_eq_ok_iff.1 hrest
      cases hreturn
  | failed point =>
      have hsteady : Steady (Engine.replayOutcome (.failed point) : Run σ Bool) :=
        Steady.composes.answer (.replay point) fun _ => false
      refine ⟨hlookup.trans (hsteady _ _ _ hrun), fun _ => ?_⟩
      obtain ⟨⟨⟩, e₁, hreplay, hreturn⟩ := Run.bind_eq_ok_iff.1 hrun
      cases hreplay
      cases hreturn
      exact ⟨⟨0, rfl⟩, rfl, fun id pos outcome h => (hmemo id pos).trans h⟩

/-- A rule through its memo is tidy if its body is, and undone if it fails. -/
theorem Steady.close_memoized {id : RuleId} {body : Run σ Bool} (hbody : Steady body)
    {matched : Bool} (hrun : Engine.memoized id body e = .ok matched e') :
    Tidy e e' ∧ (matched = false → Restored e e') := by
  rcases memoized_eq_ok hrun with hplain | ⟨outcome, -, hreplay⟩ | ⟨hopen, hget, e₁, hnew, hkeep⟩
  · obtain ⟨htidy, hrestored⟩ := hbody.close_speculate hplain
    refine ⟨(Tidy.counted e id).trans htidy, fun hfailed => ?_⟩
    have hback := hrestored hfailed
    exact ⟨hback.buffer, hback.compactions, hback.memo⟩
  · exact Tidy.replayOutcome (fun id' pos => Memo.get?_snd_lookup e.memo id id' _ pos) hreplay
  · obtain ⟨hinner, hrestored⟩ := hbody.close_speculate hnew
    have htidy := (Tidy.fresh e id).trans hinner
    have hgrown := htidy.grown hopen
    rw [keepOutcome_eq] at hkeep
    cases hkeep
    have hkept : ∀ new id' pos outcome, e.memo.get? id' pos = some outcome →
        Memo.get? (if e₁.depthHit.isNone then e₁.memo.record id e.buffer.cursor new
          else e₁.memo) id' pos = some outcome := by
      intro new id' pos outcome hget'
      split
      · exact Memo.get?_record_of_none hget hgrown.memo new hget'
      · exact hgrown.memo id' pos outcome hget'
    refine ⟨⟨?_, fun _ => ?_⟩, fun hfailed => ?_⟩
    · exact ⟨htidy.balanced.marks, htidy.balanced.depth, htidy.balanced.counts⟩
    · exact ⟨hgrown.buffer, hgrown.compactions, hkept _⟩
    · exact ⟨(hrestored hfailed).buffer, hgrown.compactions, hkept _⟩

theorem Steady.memoized {id : RuleId} {body : Run σ Bool} (hbody : Steady body) :
    Steady (Engine.memoized id body) :=
  fun _ _ _ hrun => (hbody.close_memoized hrun).1

theorem Steady.nested {body : Run σ Bool} (hbody : Steady body) :
    Steady (Engine.nested body) := by
  intro e a e' hrun
  rcases nested_eq_ok hrun with ⟨-, hnote⟩ | ⟨-, e₁, hrun₁, rfl⟩
  · exact noteDepthHit _ _ _ hnote
  · have h := hbody _ _ _ hrun₁
    have hdepth : e₁.depth = e.depth + 1 := h.balanced.depth
    exact {
      balanced := ⟨h.balanced.marks, by show e₁.depth - 1 = e.depth; omega, h.balanced.counts⟩
      grown hopen :=
        have hgrown := h.grown hopen
        ⟨hgrown.buffer, hgrown.compactions, hgrown.memo⟩ }

-- ============================================================================
-- Rules
-- ============================================================================

theorem Steady.compositional : Compositional fun m : Run σ _ => Steady m where
  toComposes := composes
  peek := peek
  matchKind := matchKind
  atDelimiter := atDelimiter
  speculate := speculate
  memoized := memoized
  nested := nested

/-- Every rule that works on no marks leaves the engine tidy. -/
theorem Steady.eval {g : Grammar ν} (hg : ∀ name, (g name).StackFree) (n : Nat) {rule : Rule ν}
    (hrule : rule.StackFree) : Steady (Engine.eval g n rule : Run σ Bool) :=
  compositional.eval n (.inr ⟨hg, hrule⟩)

-- ============================================================================
-- Recognitions
-- ============================================================================

theorem Tidy.begun_pushed (h : Tidy e.begun.pushed e') : Tidy e.pushed e' :=
  ⟨⟨h.balanced.marks, h.balanced.depth, h.balanced.counts⟩, fun _ =>
    have hgrown := h.grown (List.cons_ne_nil _ _)
    ⟨hgrown.buffer, hgrown.compactions, hgrown.memo⟩⟩

/-- Finding out what to report pulls a token at most. -/
theorem state_of_failure {err : ParseError} (hrun : failure e = .ok err e') :
    e' = e ∨ e' = { e with buffer := e.buffer.reach 1 } := by
  cases hhit : e.depthHit with
  | some hit =>
      rw [failure_of_hit hhit] at hrun
      cases hrun
      exact .inl rfl
  | none =>
      cases hfurthest : e.furthest with
      | some m =>
          rw [failure_of_mismatch hhit hfurthest] at hrun
          cases hrun
          exact .inl rfl
      | none =>
          have hget : (get : Run σ (Engine σ)) e = .ok e e := rfl
          simp only [failure, Run.bind_of_ok hget, hhit, hfurthest] at hrun
          obtain ⟨token, e₁, hnext, hreturn⟩ := Run.bind_eq_ok_iff.1 hrun
          cases hreturn
          cases hnext
          exact .inr (by rw [hhit, hfurthest])

theorem failure_eq_ok {err : ParseError} (hrun : failure e = .ok err e') :
    Balanced e e' ∧ Restored e e' := by
  rcases state_of_failure hrun with rfl | rfl
  · exact ⟨.refl _, .refl _⟩
  · exact ⟨⟨rfl, rfl, 0, 0, rfl, rfl, rfl⟩, ⟨_, rfl⟩, rfl, fun _ _ _ h => h⟩

/-- A recognition is tidy if its body is, and undone if it fails. -/
theorem Steady.close_recognizing {body : Run σ Bool} (hbody : Steady body)
    {result : Except ParseError Match} (hrun : recognizing body e = .ok result e') :
    Tidy e e' ∧ ∀ err, result = .error err → Restored e e' := by
  obtain ⟨e₁, ⟨hbody', hcommit, -, -, rfl⟩ | ⟨hbody', e₂, err, habandon, hfailure, rfl⟩⟩ :=
    recognizing_eq_ok hrun
  · have htidy := (hbody _ _ _ hbody').begun_pushed
    exact ⟨htidy.commit hcommit, fun _ h => nomatch h⟩
  · have htidy := (hbody _ _ _ hbody').begun_pushed
    obtain ⟨hbalanced, hrestored⟩ := htidy.abandon habandon
    obtain ⟨hbalanced', hrestored'⟩ := failure_eq_ok hfailure
    have hback := hrestored.trans hrestored'
    obtain ⟨n, hn⟩ := hback.buffer
    exact ⟨⟨hbalanced.trans hbalanced', fun _ => ⟨⟨n, by rw [hn]⟩, hback.compactions,
      hback.memo⟩⟩, fun _ _ => hback⟩

-- ============================================================================
-- Attempts
-- ============================================================================

end Engine

/-- The rules that are all or nothing.  A sequence, a list with delimiters and the clause of an
    optional rule are attempts. -/
inductive Rule.Atomic {ν : Type} : Rule ν → Prop where
  | token (kind : Kind) : Atomic (.token kind)
  | attempt (rule : Rule ν) : Atomic (.attempt rule)
  | oneOf (rules : List (Rule ν)) : Atomic (.oneOf rules)
  | memo (id : RuleId) (body : Rule ν) : Atomic (.memo id body)

namespace Engine

variable {σ ν : Type} [TokenSource σ] {e e' : Engine σ}

theorem restored_of_attempt {g : Grammar ν} (hg : ∀ name, (g name).StackFree) {n : Nat}
    {rule : Rule ν} (hrule : rule.StackFree)
    (hrun : eval g n (.attempt rule) e = .ok false e') : Restored e e' := by
  cases n with
  | zero => cases hrun
  | succ n => exact ((Steady.eval hg n hrule).close_speculate hrun).2 rfl

/-- Where no alternative matches, each was undone. -/
theorem restored_of_anyOf {g : Grammar ν} (hg : ∀ name, (g name).StackFree) {n : Nat}
    {rules : List (Rule ν)} (hrules : (Rule.oneOf rules).StackFree)
    (hrun : eval g n (.oneOf rules) e = .ok false e') : Restored e e' := by
  induction rules generalizing n e with
  | nil =>
      cases n with
      | zero => cases hrun
      | succ n =>
          cases hrun
          exact .refl _
  | cons rule rules ih =>
      cases n with
      | zero => cases hrun
      | succ n =>
          obtain ⟨matched, e₁, hfirst, hrest⟩ := Run.bind_eq_ok_iff.1 hrun
          cases matched with
          | true => cases hrest
          | false =>
              have hfree : rule.StackFree := hrules.1
              exact (restored_of_attempt hg hfree hfirst).trans (ih hrules.2 hrest)

/-- An attempt that fails is undone. -/
theorem Restored.of_atomic {g : Grammar ν} (hg : ∀ name, (g name).StackFree) {n : Nat}
    {rule : Rule ν} (hrule : rule.StackFree) (hatomic : rule.Atomic)
    (hrun : eval g n rule e = .ok false e') : Restored e e' := by
  cases hatomic with
  | token kind =>
      cases n with
      | zero => cases hrun
      | succ n => exact ((Steady.takeKind kind).close_speculate hrun).2 rfl
  | attempt rule =>
      have hbody : rule.StackFree := hrule
      exact restored_of_attempt hg hbody hrun
  | oneOf rules => exact restored_of_anyOf hg hrule hrun
  | memo id body =>
      cases n with
      | zero => cases hrun
      | succ n =>
          have hbody : body.StackFree := hrule
          exact ((Steady.eval hg n hbody).close_memoized hrun).2 rfl

/-- Whatever the state it starts from, a rule that works on no marks leaves the marks and the
    level as they were when its run ends, and has closed all that it opened; so does a
    recognition.  An attempt, a recognition or a parse that fails is undone. -/
theorem balanced_and_restored {g : Grammar ν} (hg : ∀ name, (g name).StackFree) (n : Nat)
    {rule : Rule ν} (hrule : rule.StackFree) (e : Engine σ) :
    (∀ matched e', eval g n rule e = .ok matched e' → Balanced e e') ∧
    (rule.Atomic → ∀ e', eval g n rule e = .ok false e' → Restored e e') ∧
    (∀ result e', recognize g n rule e = .ok result e' → Balanced e e' ∧
      ∀ err, result = .error err → Restored e e') ∧
    (∀ entry result e', recognizeEntry n entry e = .ok result e' → Balanced e e' ∧
      ∀ err, result = .error err → Restored e e') := by
  refine ⟨?_, ?_, ?_, ?_⟩
  · intro matched e' hrun
    exact (Steady.eval hg n hrule _ _ _ hrun).balanced
  · intro hatomic e' hrun
    exact .of_atomic hg hrule hatomic hrun
  · intro result e' hrun
    obtain ⟨htidy, hrestored⟩ := (Steady.eval hg n hrule).close_recognizing hrun
    exact ⟨htidy.balanced, hrestored⟩
  · intro entry result e' hrun
    obtain ⟨htidy, hrestored⟩ :=
      (Steady.eval stackFree_list n entry.stackFree_rule).close_recognizing hrun
    exact ⟨htidy.balanced, hrestored⟩

/-- A list and then the end of the input, tried under an open mark on `[a],`. -/
theorem balanced_and_restored_of_trailing :
    ∃ e e' : Engine TokenList, e.speculation.marks ≠ [] ∧
      eval ListGrammar.grammar 40 (.sequence [.ref .list, .token .eof]) e = .ok false e' ∧
      e'.buffer.pulled = 4 ∧ 0 < e'.memo.size ∧ Balanced e e' ∧ Restored e e' := by
  have hrun : (match eval ListGrammar.grammar 40 (.sequence [.ref .list, .token .eof])
        (ofSource ⟨true, 4⟩ (TokenList.ofKinds
          [(.lbracket, "["), (.name, "a"), (.rbracket, "]"), (.comma, ",")])).pushed with
      | .ok matched e' => decide (matched = false ∧ e'.buffer.pulled = 4 ∧ 0 < e'.memo.size)
      | .error _ _ => false) = true := by decide +kernel
  split at hrun
  · next matched e' hfails =>
      obtain ⟨rfl, hpulled, hsize⟩ := of_decide_eq_true hrun
      have hrule : (Rule.sequence [.ref Nonterminal.list, .token .eof]).StackFree :=
        ⟨trivial, trivial, trivial⟩
      have hboth := balanced_and_restored stackFree_list 40 hrule (ofSource ⟨true, 4⟩
        (TokenList.ofKinds
          [(.lbracket, "["), (.name, "a"), (.rbracket, "]"), (.comma, ",")])).pushed
      exact ⟨_, e', List.cons_ne_nil _ _, hfails, hpulled, hsize, hboth.1 _ _ hfails,
        hboth.2.1 (.attempt _) e' hfails⟩
  · cases hrun

end Engine
end Packrat
