/-
  Packrat.Proofs.Reach

  The states between the steps of a session (`Reachable`), and that all of them
  are coherent, whatever steps were taken, as long as the rules that ran work
  on no marks themselves.
-/

import Packrat.Proofs.Coherence
import Packrat.Session

namespace Packrat

variable {ν : Type}

/-- The rules that the step runs work on no marks. -/
def Step.StackFree : Step ν → Prop
  | .recognize rule | .run rule => rule.StackFree
  | .parse _ | .tryParse _ | .stack _ | .kindAhead _ | .tokenAhead _ | .outcomeAt _ _ | .tokenAt _
  | .tokensBetween _ _ | .absolute _ | .settings => True

namespace Engine

variable {σ α β : Type} [TokenSource σ] {s : σ} {low : Nat} {e e' : Engine σ} {g : Grammar ν}

/-- The states in between the steps of a session on `s`, where `allowed` tells which steps may
    be taken in a state.  The settings may be any, and so may the fuel of every step. -/
inductive Reachable (g : Grammar ν) (allowed : Engine σ → Step ν → Prop) (s : σ) :
    Engine σ → Prop where
  | start (settings : Settings) : Reachable g allowed s (ofSource settings s)
  | step {e e' : Engine σ} {step : Step ν} {answer : Answer} (n : Nat)
      (h : Reachable g allowed s e) (hallowed : allowed e step)
      (hrun : perform g n step e = .ok answer e') : Reachable g allowed s e'

-- ============================================================================
-- Steps of a session
-- ============================================================================

namespace Upholds

omit [TokenSource σ] in
theorem absolute_eq_ok {pos i : Nat}
    (h : onBuffer (Lookahead.absolute pos) e = .ok i e') : e' = e := by
  by_cases hfits : e.buffer.base + pos < Machine.wordLimit
  · simp only [onBuffer, Lookahead.absolute, if_pos hfits] at h
    cases h
    rfl
  · simp only [onBuffer, Lookahead.absolute, if_neg hfits] at h
    cases h

theorem recognizeEntry (n : Nat) (entry : Entry) :
    Upholds s (Engine.recognizeEntry n entry : Run σ (Except ParseError Match)) :=
  recognize stackFree_list n entry.stackFree_rule

/-- Every step of a session preserves the invariant. -/
theorem perform (hg : ∀ name, (g name).StackFree) (n : Nat) {step : Step ν}
    (hstep : step.StackFree) : Upholds s (Engine.perform g n step : Run σ Answer) := by
  cases step with
  | parse entry => exact composes.answer (recognizeEntry n entry) Answer.result
  | tryParse entry => exact composes.answer (recognizeEntry n entry) fun r => Answer.flag r.isOk
  | recognize rule => exact composes.answer (recognize hg n hstep) Answer.result
  | run rule => exact composes.answer (eval hg n hstep) Answer.flag
  | stack step => exact composes.answer (stackStep step) fun _ => Answer.done
  | kindAhead k => exact composes.answer (peek k) fun token => Answer.kind token.kind
  | tokenAhead k => exact composes.answer (peek k) fun token => Answer.token (some token)
  | outcomeAt rule pos =>
      rintro low e _ _ h ⟨⟩
      exact h
  | tokenAt pos =>
      rintro low e _ _ h ⟨⟩
      exact h
  | settings =>
      rintro low e _ _ h ⟨⟩
      exact h
  | tokensBetween start stop =>
      refine composes.answer (fun low e tokens e' h hrun => ?_) Answer.tokens
      obtain ⟨-, -, -, rfl⟩ := slice_eq_ok hrun
      exact h
  | absolute pos =>
      refine composes.answer (fun low e i e' h hrun => ?_) Answer.number
      rw [absolute_eq_ok hrun]
      exact h

end Upholds

/-- Every state of a session is coherent. -/
theorem Reachable.coherent {allowed : Engine σ → Step ν → Prop}
    (hg : ∀ name, (g name).StackFree) (hallowed : ∀ e step, allowed e step → step.StackFree)
    (h : Reachable g allowed s e) : Coherent s 0 e := by
  induction h with
  | start settings => exact coherent_ofSource settings s
  | step n _ hstep hrun ih => exact Upholds.perform hg n (hallowed _ _ hstep) _ _ _ _ ih hrun

end Engine
end Packrat
