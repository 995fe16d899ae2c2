/-
  Packrat.Proofs.Drained

  Whenever a compaction is possible between two steps of a session, there is
  nothing left to drop from the buffer: the commit that consumed the last
  buffered token for good has emptied it already (`Reachable.clear_buffer`).

  The invariant (`Drained`) looks at the place that a session can go back to at
  the furthest.  Unless the buffer is empty, it lies before the end of the
  buffer.  Pulling moves the end away from it, an abandon leaves it where it is,
  and so does a commit below another mark; only the outermost commit moves it,
  and that one empties the buffer when it moves it to the end.
-/

import Packrat.Proofs.Reach

namespace Packrat

/-- There is nothing to clear in an empty buffer. -/
theorem Lookahead.clear_of_size {σ : Type} {b : Lookahead σ} (hsize : b.size = 0)
    (hcursor : b.cursor = 0) : b.clear = b := by
  obtain ⟨source, tokens, cursor, base, pulled⟩ := b
  obtain rfl : cursor = 0 := hcursor
  obtain rfl : tokens = #[] := Array.size_eq_zero_iff.1 hsize
  rfl

namespace Engine

variable {σ ν α β : Type} {s : σ} {low : Nat} {e e' : Engine σ}

/-- The position that the engine can go back to at the furthest: the oldest mark, or the cursor
    if nothing is open. -/
def floor (e : Engine σ) : Nat := e.speculation.oldest?.getD e.buffer.cursor

theorem floor_of_nil (h : e.speculation.marks = []) : e.floor = e.buffer.cursor := by
  simp [floor, Speculation.oldest?, h]

/-- The marks tell the floor as long as there are any. -/
theorem floor_eq_of_marks (hmarks : e'.speculation.marks = e.speculation.marks)
    (hopen : e.speculation.marks ≠ []) : e'.floor = e.floor := by
  simp [floor, Speculation.oldest?, hmarks, List.getLast?_eq_some_getLast hopen]

theorem floor_pushed (e : Engine σ) : e.pushed.floor = e.floor := by
  simp [floor, Speculation.oldest?, pushed, Speculation.push, List.getLast?_cons]

theorem floor_abandoned {mark : Nat} {marks : List Nat}
    (hmarks : e.speculation.marks = mark :: marks) : (e.abandoned mark marks).floor = e.floor := by
  simp [floor, Speculation.oldest?, abandoned, hmarks, List.getLast?_cons]

theorem floor_committed {mark : Nat} {marks : List Nat}
    (hmarks : e.speculation.marks = mark :: marks) (hopen : marks ≠ []) :
    (e.committed marks).floor = e.floor := by
  simp [floor, Speculation.oldest?, committed, hmarks, List.getLast?_cons,
    List.getLast?_eq_some_getLast hopen]

/-- What was consumed for good is not everything that is buffered, unless nothing is. -/
def Drained (e : Engine σ) : Prop := e.floor = e.buffer.size → e.buffer.size = 0

theorem drained_ofSource (settings : Settings) (s : σ) : Drained (ofSource settings s) :=
  fun _ => rfl

/-- Where a compaction is possible, it leaves the buffer as it is. -/
theorem Drained.clear_eq (h : Drained e) (hcan : e.canCompact = true) :
    e.buffer.clear = e.buffer := by
  simp only [canCompact, Speculation.isEmpty, Lookahead.atEnd, Bool.and_eq_true,
    List.isEmpty_iff, beq_iff_eq] at hcan
  obtain ⟨hnil, hend⟩ := hcan
  have hsize : e.buffer.size = 0 := h ((floor_of_nil hnil).trans hend)
  exact Lookahead.clear_of_size hsize (hend.trans hsize)

theorem Drained.of_abandon (h : Drained e) (hrun : abandon e = .ok () e') : Drained e' := by
  obtain ⟨mark, marks, hmarks, -, rfl⟩ := abandon_eq_ok hrun
  intro hend
  rw [floor_abandoned hmarks] at hend
  exact h hend

/-- The outermost commit empties the buffer if it consumes all of it. -/
theorem Drained.of_commit (h : Drained e) (hrun : commit e = .ok () e') : Drained e' := by
  cases hmarks : e.speculation.marks with
  | nil =>
      rw [commit_of_nil hmarks] at hrun
      cases hrun
  | cons mark marks =>
      by_cases hopen : marks = []
      · subst hopen
        rw [commit_of_cons hmarks] at hrun
        split at hrun
        · obtain ⟨-, -, rfl⟩ := compact_eq_ok hrun
          exact fun _ => rfl
        · next hkept =>
            cases hrun
            intro hend
            have hcursor : e.buffer.cursor = e.buffer.size := hend
            have hcan : (e.committed []).canCompact = true := by
              simp [canCompact, committed, Speculation.isEmpty, Lookahead.atEnd, hcursor]
            rw [hcan, Bool.true_and, Bool.not_eq_true', Bool.not_eq_false] at hkept
            exact Array.isEmpty_iff_size_eq_zero.1 hkept
      · rw [commit_of_open hmarks hopen] at hrun
        cases hrun
        intro hend
        rw [floor_committed hmarks hopen] at hend
        exact h hend

theorem Drained.pushed (h : Drained e) : Drained e.pushed := by
  intro hend
  rw [floor_pushed] at hend
  exact h hend

variable [TokenSource σ]

theorem Coherent.floor_le (h : Coherent s low e) : e.floor ≤ e.buffer.size := by
  have hcursor := h.window.cursor_le
  by_cases hopen : e.speculation.marks = []
  · rw [floor_of_nil hopen]
    exact hcursor
  · have hmark := h.mark_le (List.getLast_mem hopen)
    simp only [floor, Speculation.oldest?, List.getLast?_eq_some_getLast hopen,
      Option.getD_some]
    omega

/-- Steps that drop nothing and leave the floor where it is. -/
theorem Drained.of_floor_eq (h : Drained e) (hc : Coherent s low e) (hfloor : e'.floor = e.floor)
    (hsize : e.buffer.size ≤ e'.buffer.size) : Drained e' := by
  intro hend
  have hle := hc.floor_le
  have hnone := h (by omega)
  omega

theorem Drained.reach (h : Drained e) (hc : Coherent s low e) (k : Nat) :
    Drained { e with buffer := e.buffer.reach k } := by
  refine h.of_floor_eq hc ?_ ?_
  · simp [floor, Lookahead.reach]
  · simp [Lookahead.reach]

theorem Drained.of_grown (h : Drained e) (hc : Coherent s low e) (hgrown : Grown e e')
    (hfloor : e'.floor = e.floor) : Drained e' := by
  obtain ⟨n, hn⟩ := hgrown.buffer
  refine h.of_floor_eq hc hfloor ?_
  rw [hn]
  exact Nat.le_trans (Nat.le_add_right _ n) (Nat.le_of_eq (Lookahead.size_pullMany n _).symm)

/-- Under an open mark whatever is tidy keeps the invariant. -/
theorem Drained.of_tidy (h : Drained e) (hc : Coherent s low e) (htidy : Tidy e e')
    (hopen : e.speculation.marks ≠ []) : Drained e' :=
  h.of_grown hc (htidy.grown hopen) (floor_eq_of_marks htidy.balanced.marks hopen)

-- ============================================================================
-- Rules
-- ============================================================================

/-- Whenever the step ends, all that was consumed for good is dropped as before. -/
def Drains (s : σ) (m : Run σ α) : Prop :=
  ∀ low e a e', Coherent s low e → Drained e → m e = .ok a e' → Drained e'

namespace Drains

/-- Of runs in a row, each has to leave the engine coherent for the next one. -/
theorem composes : Composes fun m : Run σ _ => Upholds s m ∧ Drains s m := by
  have hrelates : Composes fun m : Run σ _ => Relates (fun e e' => ∀ low, Coherent s low e →
      Coherent s low e' ∧ (Drained e → Drained e')) m := by
    refine .relates (fun e low hc => ⟨hc, id⟩) fun h h' low hc => ?_
    obtain ⟨hc', hd⟩ := h low hc
    obtain ⟨hc'', hd'⟩ := h' low hc'
    exact ⟨hc'', hd' ∘ hd⟩
  refine hrelates.congr ⟨fun h => ⟨?_, ?_⟩, ?_⟩
  · intro low e a e' hc hrun
    exact (h e a e' hrun low hc).1
  · intro low e a e' hc hd hrun
    exact (h e a e' hrun low hc).2 hd
  · rintro ⟨hup, hdrains⟩ e a e' hrun low hc
    exact ⟨hup low e a e' hc hrun, fun hd => hdrains low e a e' hc hd hrun⟩

theorem peek (k : Nat) : Drains s (Engine.peek k : Run σ Token) := by
  intro low e a e' hc h hrun
  rw [peek_eq_ok hrun]
  exact h.reach hc k

theorem atDelimiter (kind : Kind) : Drains s (Engine.atDelimiter kind : Run σ Bool) := by
  intro low e a e' hc h hrun
  rcases atDelimiter_eq_ok hc.window hrun with rfl | rfl
  · exact h.reach hc 1
  · exact h.reach hc 1

theorem noteDepthHit : Drains s (Engine.noteDepthHit : Run σ Unit) := by
  intro low e a e' hc h hrun
  rcases noteDepthHit_eq_ok hc.window hrun with ⟨-, rfl⟩ | ⟨-, rfl⟩
  · exact h
  · exact h.reach hc 1

/-- The body runs under a mark of its own, so only how it is closed counts. -/
theorem speculate {body : Run σ Bool} (hsteady : Steady body) :
    Drains s (Engine.speculate body) := by
  intro low e matched e' hc h hrun
  obtain ⟨e₁, hbody, hclose⟩ := speculate_eq_ok hrun
  have h₁ : Drained e₁ :=
    h.pushed.of_tidy hc.pushed (hsteady _ _ _ hbody) (List.cons_ne_nil _ _)
  cases matched with
  | true => exact h₁.of_commit hclose
  | false => exact h₁.of_abandon hclose

theorem matchKind (kind : Kind) : Drains s (Engine.matchKind kind : Run σ Bool) :=
  speculate (.takeKind kind)

/-- Outcomes are kept and replayed under an open mark only. -/
theorem memoized {id : RuleId} {body : Run σ Bool} (hsteady : Steady body) :
    Drains s (Engine.memoized id body) := by
  intro low e matched e' hc h hrun
  by_cases hopen : e.speculation.marks = []
  · have hplain : (e.settings.memoize && e.isSpeculating) = false := by
      simp [isSpeculating, Speculation.isEmpty, hopen]
    rw [memoized_of_plain hplain] at hrun
    exact speculate hsteady low (e.counted id) _ _ (hc.counted id) h hrun
  · exact h.of_tidy hc (hsteady.memoized _ _ _ hrun) hopen

theorem nested {body : Run σ Bool} (hbody : Drains s body) : Drains s (Engine.nested body) := by
  intro low e a e' hc h hrun
  rcases nested_eq_ok hrun with ⟨-, hnote⟩ | ⟨-, e₁, hrun₁, rfl⟩
  · exact noteDepthHit low _ _ _ hc h hnote
  · have hdeeper : Coherent s low { e with depth := e.depth + 1 } :=
      hc.same rfl rfl (fun _ _ => rfl) rfl rfl
    have h₁ : Drained e₁ := hbody low _ _ _ hdeeper h hrun₁
    exact h₁

theorem compositional :
    Compositional fun m : Run σ _ => Steady m ∧ Upholds s m ∧ Drains s m where
  toComposes := Steady.composes.and composes
  peek k := ⟨.peek k, .peek k, peek k⟩
  matchKind kind := ⟨.matchKind kind, .matchKind kind, matchKind kind⟩
  atDelimiter delimiter := ⟨.atDelimiter delimiter, .atDelimiter delimiter, atDelimiter delimiter⟩
  speculate h := ⟨h.1.speculate, h.2.1.speculate, speculate h.1⟩
  memoized h := ⟨h.1.memoized, .memoized h.1 h.2.1, memoized h.1⟩
  nested h := ⟨h.1.nested, h.2.1.nested, nested h.2.2⟩

/-- Rules that work on no marks. -/
theorem eval {g : Grammar ν} (hg : ∀ name, (g name).StackFree) (n : Nat) {rule : Rule ν}
    (hrule : rule.StackFree) : Drains s (Engine.eval g n rule : Run σ Bool) :=
  (compositional.eval n (.inr ⟨hg, hrule⟩)).2.2

-- ============================================================================
-- Sessions
-- ============================================================================

theorem recognizing {body : Run σ Bool} (hsteady : Steady body) (hup : Upholds s body) :
    Drains s (Engine.recognizing body) := by
  intro low e result e' hc h hrun
  have hbody : ∀ matched e₁, body e.begun.pushed = .ok matched e₁ →
      Coherent s low e₁ ∧ Drained e₁ := by
    intro matched e₁ hrun₁
    have hbegun : Drained e.begun := h
    exact ⟨hup _ _ _ _ hc.begun.pushed hrun₁,
      hbegun.pushed.of_tidy hc.begun.pushed (hsteady _ _ _ hrun₁) (List.cons_ne_nil _ _)⟩
  obtain ⟨e₁, ⟨hrun₁, hcommit, -⟩ | ⟨hrun₁, e₂, err, habandon, hfailure, -⟩⟩ :=
    recognizing_eq_ok hrun
  · exact (hbody _ _ hrun₁).2.of_commit hcommit
  · obtain ⟨hc₁, h₁⟩ := hbody _ _ hrun₁
    have h₂ := h₁.of_abandon habandon
    rcases state_of_failure hfailure with rfl | rfl
    · exact h₂
    · exact h₂.reach (hc₁.of_abandon habandon) 1

theorem stackStep (step : StackStep) : Drains s (Engine.stackStep step : Run σ Unit) := by
  intro low e a e' hc h hrun
  cases step with
  | openMark =>
      cases hrun
      exact h.pushed
  | abandon => exact h.of_abandon hrun
  | commit => exact h.of_commit hrun
  | compact =>
      obtain ⟨-, -, rfl⟩ := compact_eq_ok hrun
      exact fun _ => rfl

/-- Every step of a session keeps the invariant. -/
theorem perform {g : Grammar ν} (hg : ∀ name, (g name).StackFree) (n : Nat) {step : Step ν}
    (hstep : step.StackFree) : Drains s (Engine.perform g n step : Run σ Answer) := by
  have hentry : ∀ entry : Entry,
      Drains s (recognizeEntry n entry : Run σ (Except ParseError Match)) := fun entry =>
    recognizing (.eval stackFree_list n entry.stackFree_rule)
      (.eval stackFree_list n entry.stackFree_rule)
  -- An answer made from what a run returns drains if the run does.
  have answer : ∀ {α : Type} {m : Run σ α}, Upholds s m → Drains s m → ∀ f : α → Answer,
      Drains s (do return f (← m)) := fun hup hm f => (composes.answer ⟨hup, hm⟩ f).2
  cases step with
  | parse entry => exact answer (.recognizeEntry n entry) (hentry entry) Answer.result
  | tryParse entry =>
      exact answer (.recognizeEntry n entry) (hentry entry) fun r => Answer.flag r.isOk
  | recognize rule =>
      exact answer (.recognize hg n hstep) (recognizing (.eval hg n hstep) (.eval hg n hstep))
        Answer.result
  | run rule => exact answer (.eval hg n hstep) (eval hg n hstep) Answer.flag
  | stack step => exact answer (.stackStep step) (stackStep step) fun _ => Answer.done
  | kindAhead k => exact answer (.peek k) (peek k) fun token => Answer.kind token.kind
  | tokenAhead k => exact answer (.peek k) (peek k) fun token => Answer.token (some token)
  | outcomeAt rule pos =>
      rintro low e _ _ _ h ⟨⟩
      exact h
  | tokenAt pos =>
      rintro low e _ _ _ h ⟨⟩
      exact h
  | settings =>
      rintro low e _ _ _ h ⟨⟩
      exact h
  | tokensBetween start stop =>
      intro low e a e' _ h hrun
      obtain ⟨tokens, hslice⟩ := Run.exists_eq_ok_of_return hrun
      obtain ⟨-, -, -, rfl⟩ := slice_eq_ok hslice
      exact h
  | absolute pos =>
      intro low e a e' _ h hrun
      obtain ⟨i, habsolute⟩ := Run.exists_eq_ok_of_return hrun
      rw [Upholds.absolute_eq_ok habsolute]
      exact h

end Drains

theorem Reachable.drained {g : Grammar ν} {allowed : Engine σ → Step ν → Prop}
    (hg : ∀ name, (g name).StackFree) (hallowed : ∀ e step, allowed e step → step.StackFree)
    (h : Reachable g allowed s e) : Drained e := by
  induction h with
  | start settings => exact drained_ofSource settings s
  | step n hreach hstep hrun ih =>
      exact Drains.perform hg n (hallowed _ _ hstep) 0 _ _ _ (hreach.coherent hg hallowed) ih hrun

/-- Between the steps of a session there is nothing buffered wherever a compaction is possible,
    so that it only empties the memo. -/
theorem Reachable.clear_buffer {g : Grammar ν} {allowed : Engine σ → Step ν → Prop}
    (hg : ∀ name, (g name).StackFree) (hallowed : ∀ e step, allowed e step → step.StackFree)
    (h : Reachable g allowed s e) (hcan : e.canCompact = true) : e.buffer.clear = e.buffer :=
  (h.drained hg hallowed).clear_eq hcan

end Engine
end Packrat
