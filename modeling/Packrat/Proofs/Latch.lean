/-
  Packrat.Proofs.Latch

  The first hit of the depth limit stays noted for the rest of a run: no step
  of a rule takes it back.  Only the start of the next recognition does.
-/

import Packrat.Proofs.Closure

namespace Packrat

/-- The state that a step ends in, whether it answers or ends in a fault. -/
def Run.final {σ α : Type} : EStateM.Result Fault (Engine σ) α → Engine σ
  | .ok _ e => e
  | .error _ e => e

namespace Engine

variable {σ ν α β : Type}

/-- Once the depth limit was hit, it counts as hit after the step too. -/
def Latches (m : Run σ α) : Prop :=
  ∀ e : Engine σ, e.depthHit ≠ none → (Run.final (m e)).depthHit ≠ none

namespace Latches

theorem pure (a : α) : Latches (Pure.pure a : Run σ α) := fun _ h => h

theorem throw (fault : Fault) : Latches (throw fault : Run σ α) := fun _ h => h

theorem bind {m : Run σ α} {k : α → Run σ β} (hm : Latches m) (hk : ∀ a, Latches (k a)) :
    Latches (m >>= k) := by
  intro e h
  have hfirst := hm e h
  cases hrun : m e with
  | ok a e' =>
      rw [hrun] at hfirst
      rw [Run.bind_of_ok hrun]
      exact hk a e' hfirst
  | error fault e' =>
      rw [hrun] at hfirst
      rw [Run.bind_of_error hrun]
      exact hfirst

/-- A hit that does not count after both steps does not count after the first. -/
theorem final_eq_none_of_bind {m : Run σ α} {k : α → Run σ β} (hk : ∀ a, Latches (k a))
    {e : Engine σ} (h : (Run.final ((m >>= k) e)).depthHit = none) :
    (Run.final (m e)).depthHit = none := by
  cases hrun : m e with
  | ok a e' =>
      rw [Run.bind_of_ok hrun] at h
      exact Classical.not_not.1 fun hhit => hk a e' hhit h
  | error fault e' =>
      rw [Run.bind_of_error hrun] at h
      exact h

theorem composes : Composes fun m : Run σ _ => Latches m where
  pure := pure
  throw := throw
  bind := bind

theorem modify {f : Engine σ → Engine σ} (hf : ∀ e, (f e).depthHit = e.depthHit) :
    Latches (modify f : Run σ Unit) := by
  intro e h
  show (f e).depthHit ≠ none
  rw [hf]
  exact h

theorem modifyGet {f : Engine σ → α × Engine σ} (hf : ∀ e, (f e).2.depthHit = e.depthHit) :
    Latches (modifyGet f : Run σ α) := by
  intro e h
  show (f e).2.depthHit ≠ none
  rw [hf]
  exact h

theorem onBuffer (step : Lookahead.Step σ α) : Latches (Engine.onBuffer step) := by
  intro e h
  simp only [Engine.onBuffer]
  cases step e.buffer <;> exact h

theorem abandon : Latches (Engine.abandon : Run σ Unit) := by
  intro e h
  simp only [Engine.abandon]
  cases e.speculation.abandon with
  | error fault => exact h
  | ok closed => exact onBuffer _ _ h

theorem compact : Latches (Engine.compact : Run σ Unit) := by
  intro e h
  simp only [Engine.compact]
  split <;> exact h

theorem commit : Latches (Engine.commit : Run σ Unit) := by
  intro e h
  simp only [Engine.commit]
  cases e.speculation.commit with
  | error fault => exact h
  | ok closed =>
      simp only
      split
      · exact compact _ h
      · exact h

theorem close (matched : Bool) : Latches (Engine.close matched : Run σ Unit) := by
  cases matched with
  | true => exact commit
  | false => exact abandon

theorem speculate {body : Run σ Bool} (hbody : Latches body) :
    Latches (Engine.speculate body) :=
  composes.speculate (modify fun _ => rfl) close hbody

theorem expect (kind : Kind) (found : Token) : Latches (Engine.expect kind found : Run σ Unit) :=
  modify fun _ => rfl

theorem replay (point : Option FailurePoint) : Latches (Engine.replay point : Run σ Unit) :=
  modify fun _ => rfl

theorem replayOutcome (outcome : Outcome) :
    Latches (Engine.replayOutcome outcome : Run σ Bool) := by
  cases outcome with
  | parsed stop furthest =>
      exact bind (replay furthest) fun _ => bind (onBuffer _) fun _ => pure true
  | failed furthest => exact bind (replay furthest) fun _ => pure false

theorem memoized {id : RuleId} {body : Run σ Bool} (hbody : Latches body) :
    Latches (Engine.memoized id body) := by
  refine bind (fun _ h => h) fun uses => ?_
  cases uses with
  | false => exact bind (modify fun _ => rfl) fun _ => speculate hbody
  | true =>
      refine bind (fun _ h => h) fun start => bind (modifyGet fun _ => rfl) fun outcome => ?_
      cases outcome with
      | some outcome => exact replayOutcome outcome
      | none =>
          exact bind (modify fun _ => rfl) fun _ => bind (modifyGet fun _ => rfl) fun outer =>
            bind (speculate hbody) fun matched => bind (modify fun _ => rfl) fun _ => pure matched

variable [TokenSource σ]

theorem noteDepthHit : Latches (Engine.noteDepthHit : Run σ Unit) := by
  intro e h
  obtain ⟨hit, hhit⟩ := Option.ne_none_iff_exists'.1 h
  rw [noteDepthHit_of_some hhit]
  exact h

theorem nested {body : Run σ Bool} (hbody : Latches body) : Latches (Engine.nested body) := by
  intro e h
  by_cases hdeep : e.settings.maxDepth ≤ e.depth
  · rw [nested_of_le hdeep]
    exact bind noteDepthHit (fun _ => pure false) e h
  · rw [nested_of_lt (Nat.lt_of_not_le hdeep)]
    have hinner : Latches (do
        let matched ← body
        EStateM.modifyGet fun e => ((), { e with depth := e.depth - 1 })
        return matched) :=
      bind hbody fun matched => bind (modify fun _ => rfl) fun _ => pure matched
    exact hinner { e with depth := e.depth + 1 } h

theorem matchKind (kind : Kind) : Latches (Engine.matchKind kind : Run σ Bool) :=
  speculate (composes.takeKind (onBuffer _) (onBuffer _) expect kind)

theorem atDelimiter (delimiter : Kind) : Latches (Engine.atDelimiter delimiter : Run σ Bool) :=
  composes.atDelimiter (onBuffer _) expect delimiter

omit [TokenSource σ] in
theorem stackStep (step : StackStep) : Latches (Engine.stackStep step : Run σ Unit) := by
  cases step with
  | openMark => exact modify fun _ => rfl
  | abandon => exact abandon
  | commit => exact commit
  | compact => exact compact

theorem compositional : Compositional fun m : Run σ _ => Latches m where
  toComposes := composes
  peek _ := onBuffer _
  matchKind := matchKind
  atDelimiter := atDelimiter
  speculate := speculate
  memoized := memoized
  nested := nested

/-- No rule takes a hit of the depth limit back. -/
theorem eval (g : Grammar ν) (n : Nat) (rule : Rule ν) :
    Latches (Engine.eval g n rule : Run σ Bool) :=
  compositional.eval n (.inl stackStep)

end Latches
end Engine
end Packrat
