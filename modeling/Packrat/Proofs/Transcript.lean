/-
  Packrat.Proofs.Transcript

  What a session shows of its engine, and that recognitions and looks run in
  step with and without kept outcomes.

  `observe` is all that a caller sees of a step without asking for the memo:
  the answer or the fault, the whole buffer (cursor, base, buffered tokens,
  what was pulled, and the source behind it), and how many speculations are
  open.
-/

import Packrat.Proofs.Lockstep
import Packrat.Session

namespace Packrat
namespace Engine

variable {σ ν : Type}

/-- What shows of a step: what it answered, the buffer and how much is open. -/
def observe (x : Except Fault Answer × Engine σ) : Except Fault Answer × Lookahead σ × Nat :=
  (x.1, x.2.buffer, x.2.speculation.depth)

variable [TokenSource σ] {s : σ} {g : Grammar ν} {maxDepth : Nat}
variable {S : Discipline (TokenSource.stream s) g maxDepth} {outer : Option Mismatch}
variable {e₁ e₂ : Engine σ}

-- ============================================================================
-- Recognitions
-- ============================================================================

theorem Sim.begun (h : Sim S none e₁ e₂) : Sim S none e₁.begun e₂.begun where
  buffer := h.buffer
  marks := h.marks
  depth := h.depth
  depthHit := rfl
  keeping := h.keeping
  plain := h.plain
  window := h.window
  furthest := rfl
  onStream_outer := h.onStream_outer
  onStream := Mismatch.onStream_none _
  trusted := h.trusted

theorem latches_failure : Latches (failure : Run σ ParseError) := by
  refine .bind (fun _ h => h) fun e => ?_
  split
  · exact .pure _
  · exact .pure _
  · exact .bind (.onBuffer _) fun token => .pure _

theorem lockstep_failure (h : Sim S none e₁ e₂) :
    Lockstep S none (failure e₁) (failure e₂) := by
  have hget : ∀ e : Engine σ, (get : Run σ (Engine σ)) e = .ok e e := fun _ => rfl
  have hfurthest : e₂.furthest = e₁.furthest := by rw [h.furthest, Mismatch.none_join]
  have hlimit : e₁.settings.maxDepth = e₂.settings.maxDepth := by rw [h.keeping, h.plain]
  simp only [failure, Run.bind_of_ok (hget _), h.depthHit, hfurthest, hlimit, h.buffer]
  cases e₂.depthHit with
  | some hit => exact .ok h _
  | none =>
      cases e₁.furthest with
      | some m => exact .ok h _
      | none =>
          refine .bind (lockstep_next h) (fun token => .pure _) ?_
          intro token f₁ f₂ _ hsim
          exact .ok hsim _

theorem lockstep_slice (h : Sim S outer e₁ e₂) (start stop : Nat) :
    Lockstep S outer (onBuffer (Lookahead.slice start stop) e₁)
      (onBuffer (Lookahead.slice start stop) e₂) := by
  apply lockstep_onBuffer_read h
  intro tokens b hrun
  simp only [Lookahead.slice] at hrun
  split at hrun
  · cases hrun
    rfl
  · cases hrun

/-- What a recognition does after its body hits no limit and forgets no hit. -/
theorem latches_conclusion (start first : Nat) (matched : Bool) :
    Latches (if matched then do
        let stop ← cursor
        let tokens ← onBuffer (Lookahead.slice start stop)
        commit
        return .ok ⟨first, tokens⟩
      else do
        abandon
        return .error (← failure) : Run σ (Except ParseError Match)) := by
  have hcursor : Latches (cursor : Run σ Nat) := fun _ h => h
  refine of_cond (Latches.bind hcursor fun stop => ?_) ?_ matched
  · exact .bind (.onBuffer _) fun tokens => .bind .commit fun _ => .pure _
  · exact .bind .abandon fun _ => .bind latches_failure fun _ => .pure _

/-- Recognitions of rules that run in step run in step. -/
theorem lockstep_recognize {n : Nat} {rule : Rule ν} (h : Sim S none e₁ e₂)
    (hcalls : S.Calls rule e₂.depth e₂.buffer.position) :
    Lockstep S none (recognize g n rule e₁) (recognize g n rule e₂) := by
  have hfailed : Latches (do
      abandon
      return .error (← failure) : Run σ (Except ParseError Match)) :=
    .bind .abandon fun _ => .bind latches_failure fun _ => .pure _
  have hcommit : ∀ tokens : List Token, Latches (do
      commit
      return .ok ⟨e₂.buffer.position, tokens⟩ : Run σ (Except ParseError Match)) :=
    fun tokens => .bind .commit fun _ => .pure _
  have hslice : ∀ stop, Latches (do
      let tokens ← onBuffer (Lookahead.slice e₂.buffer.cursor stop)
      commit
      return .ok ⟨e₂.buffer.position, tokens⟩ : Run σ (Except ParseError Match)) :=
    fun stop => .bind (.onBuffer _) hcommit
  rw [recognize, recognizing_eq, recognizing_eq, h.buffer]
  refine .bind (lockstep_eval n h.begun.pushed hcalls (.inr (List.cons_ne_nil _ _)))
    (of_cond (.bind (fun _ h => h) hslice) hfailed) ?_
  intro matched f₁ f₂ _ hsim
  cases matched with
  | true =>
      have hcursor : ∀ e : Engine σ, cursor e = .ok e.buffer.cursor e := fun _ => rfl
      simp only [if_true, Run.bind_of_ok (hcursor _), hsim.buffer]
      refine .bind (lockstep_slice hsim _ _) hcommit ?_
      intro tokens d₁ d₂ _ hsim'
      refine .bind (lockstep_commit hsim') (fun _ => .pure _) ?_
      intro _ l₁ l₂ _ hsim''
      exact .ok hsim'' _
  | false =>
      refine .bind (lockstep_abandon hsim) (fun _ => .bind latches_failure fun _ => .pure _) ?_
      intro _ d₁ d₂ _ hsim'
      refine .bind (lockstep_failure hsim') (fun _ => .pure _) ?_
      intro error l₁ l₂ _ hsim''
      exact .ok hsim'' _

-- ============================================================================
-- Steps of a session
-- ============================================================================

end Engine

/-- The step runs no rule and asks neither for the memo nor for the settings. -/
def Step.Looks : Step ν → Prop
  | .stack _ | .kindAhead _ | .tokenAhead _ | .tokenAt _ | .tokensBetween _ _ | .absolute _ => True
  | .parse _ | .tryParse _ | .recognize _ | .run _ | .outcomeAt _ _ | .settings => False

namespace Engine

variable {σ ν : Type} [TokenSource σ] {s : σ} {g : Grammar ν} {maxDepth : Nat}
variable {S : Discipline (TokenSource.stream s) g maxDepth} {outer : Option Mismatch}
variable {e₁ e₂ : Engine σ}

/-- A fresh engine with kept outcomes and one without are at the same point. -/
theorem sim_ofSource (S : Discipline (TokenSource.stream s) g maxDepth) :
    Sim S none (ofSource ⟨true, maxDepth⟩ s) (ofSource ⟨false, maxDepth⟩ s) where
  buffer := rfl
  marks := rfl
  depth := rfl
  depthHit := rfl
  keeping := rfl
  plain := rfl
  window := Lookahead.isWindow_ofSource s
  furthest := rfl
  onStream_outer := Mismatch.onStream_none _
  onStream := Mismatch.onStream_none _
  trusted := by
    intro id pos outcome hget
    exact absurd hget (by simp [ofSource])

/-- An answer made from what steps in step return. -/
theorem Lockstep.answer {α β : Type} {m₁ m₂ : Run σ α} (h : Lockstep S outer (m₁ e₁) (m₂ e₂))
    (f : α → β) : Lockstep S outer ((do return f (← m₁) : Run σ β) e₁)
      ((do return f (← m₂) : Run σ β) e₂) := by
  refine .bind h (fun a => .pure (f a)) ?_
  intro a f₁ f₂ _ hsim
  exact .ok hsim (f a)

theorem lockstep_perform_of_looks (h : Sim S outer e₁ e₂) (step : Step ν) (hstep : step.Looks)
    (n : Nat) : Lockstep S outer (perform g n step e₁) (perform g n step e₂) := by
  cases step with
  | stack step => exact .answer (lockstep_stackStep h step) fun _ => Answer.done
  | kindAhead k => exact .answer (lockstep_peek h k) fun token => Answer.kind token.kind
  | tokenAhead k => exact .answer (lockstep_peek h k) fun token => Answer.token (some token)
  | tokenAt pos =>
      show Lockstep S outer (.ok (Answer.token (e₁.buffer.get? pos)) e₁)
        (.ok (Answer.token (e₂.buffer.get? pos)) e₂)
      rw [h.buffer]
      exact .ok h _
  | tokensBetween start stop => exact .answer (lockstep_slice h start stop) Answer.tokens
  | absolute pos =>
      refine .answer (lockstep_onBuffer_read h ?_) Answer.number
      intro i b hrun
      simp only [Lookahead.absolute] at hrun
      split at hrun
      · cases hrun
        rfl
      · cases hrun
  | parse => exact hstep.elim
  | tryParse => exact hstep.elim
  | recognize => exact hstep.elim
  | run => exact hstep.elim
  | outcomeAt => exact hstep.elim
  | settings => exact hstep.elim

end Engine
end Packrat
