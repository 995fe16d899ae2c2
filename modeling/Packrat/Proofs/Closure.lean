/-
  Packrat.Proofs.Closure

  Properties of runs that carry over from parts to the whole.

  Such a property holds of a run that does nothing and of one that faults, and of
  two runs one after the other if it holds of each (`Composes`).  The
  properties that relate the state at the end of a run to the one at its start
  are of this kind, if the relation is reflexive and transitive
  (`Composes.relates`).  If the engine's combinators keep the property as well, it
  holds of every rule (`Compositional.eval`): the induction on the fuel is done
  here, once for all of these properties.
-/

import Packrat.Engine.Eval
import Packrat.Proofs.PlainRules
import Packrat.Proofs.Steps

namespace Packrat
namespace Engine

variable {σ ν α β : Type}

-- ============================================================================
-- Runs one after the other
-- ============================================================================

/-- Both branches have the property. -/
theorem of_cond {p : Run σ α → Prop} {m m' : Run σ α} (h : p m) (h' : p m') (a : Bool) :
    p (if a then m else m') := by
  cases a with
  | true => exact h
  | false => exact h'

/-- The property carries over to runs one after the other. -/
structure Composes (P : ∀ {α : Type}, Run σ α → Prop) : Prop where
  pure : ∀ {α : Type} (a : α), P (Pure.pure a : Run σ α)
  throw : ∀ {α : Type} (fault : Fault), P (throw fault : Run σ α)
  bind : ∀ {α β : Type} {m : Run σ α} {k : α → Run σ β}, P m → (∀ a, P (k a)) → P (m >>= k)

namespace Composes

variable {P Q : ∀ {α : Type}, Run σ α → Prop}

theorem answer (hP : Composes P) {m : Run σ α} (hm : P m) (f : α → β) :
    P (do return f (← m)) :=
  hP.bind hm fun a => hP.pure (f a)

theorem congr (hP : Composes P) (h : ∀ {α : Type} {m : Run σ α}, P m ↔ Q m) : Composes Q where
  pure a := h.1 (hP.pure a)
  throw fault := h.1 (hP.throw fault)
  bind hm hk := h.1 (hP.bind (h.2 hm) fun a => h.2 (hk a))

theorem and (hP : Composes P) (hQ : Composes Q) : Composes fun m => P m ∧ Q m where
  pure a := ⟨hP.pure a, hQ.pure a⟩
  throw fault := ⟨hP.throw fault, hQ.throw fault⟩
  bind hm hk := ⟨hP.bind hm.1 fun a => (hk a).1, hQ.bind hm.2 fun a => (hk a).2⟩

/-- A speculation has the property if its body has, and to open and close a mark. -/
theorem speculate (hP : Composes P) (hopen : P (openMark : Run σ Unit))
    (hclose : ∀ matched, P (close matched : Run σ Unit)) {body : Run σ Bool} (hbody : P body) :
    P (Engine.speculate body) :=
  hP.bind hopen fun _ => hP.bind hbody fun matched =>
    hP.bind (hclose matched) fun _ => hP.pure matched

variable [TokenSource σ]

theorem takeKind (hP : Composes P) (hnext : P (next : Run σ Token))
    (hconsume : P (consume : Run σ Unit))
    (hexpect : ∀ kind found, P (expect kind found : Run σ Unit)) (kind : Kind) :
    P (Engine.takeKind kind : Run σ Bool) := by
  refine hP.bind hnext fun token => ?_
  split
  · exact hP.bind hconsume fun _ => hP.pure true
  · exact hP.bind (hexpect kind token) fun _ => hP.pure false

theorem atDelimiter (hP : Composes P) (hnext : P (next : Run σ Token))
    (hexpect : ∀ kind found, P (expect kind found : Run σ Unit)) (delimiter : Kind) :
    P (Engine.atDelimiter delimiter : Run σ Bool) := by
  refine hP.bind hnext fun token => ?_
  split
  · exact hP.pure true
  · exact hP.bind (hexpect delimiter token) fun _ => hP.pure false

end Composes

-- ============================================================================
-- States at the start and at the end
-- ============================================================================

/-- Whenever the run ends, the state at its end stands in the relation to that at its start. -/
def Relates (R : Engine σ → Engine σ → Prop) (m : Run σ α) : Prop :=
  ∀ e a e', m e = .ok a e' → R e e'

theorem Composes.relates {R : Engine σ → Engine σ → Prop} (hrefl : ∀ e, R e e)
    (htrans : ∀ {e e' e''}, R e e' → R e' e'' → R e e'') : Composes fun m => Relates R m where
  pure a := by
    rintro e _ _ ⟨⟩
    exact hrefl e
  throw fault := by
    rintro e a e' ⟨⟩
  bind hm hk := by
    intro e b e'' hrun
    obtain ⟨a, e', hfirst, hrest⟩ := Run.bind_eq_ok_iff.1 hrun
    exact htrans (hm e a e' hfirst) (hk a e' b e'' hrest)

-- ============================================================================
-- Rules
-- ============================================================================

variable [TokenSource σ]

/-- The property also carries over to what the engine makes of a run. -/
structure Compositional (P : ∀ {α : Type}, Run σ α → Prop) : Prop extends Composes P where
  peek : ∀ k, P (peek k : Run σ Token)
  matchKind : ∀ kind, P (matchKind kind : Run σ Bool)
  atDelimiter : ∀ delimiter, P (atDelimiter delimiter : Run σ Bool)
  speculate : ∀ {body : Run σ Bool}, P body → P (speculate body)
  memoized : ∀ {id : RuleId} {body : Run σ Bool}, P body → P (memoized id body)
  nested : ∀ {body : Run σ Bool}, P body → P (nested body)

/-- Every rule has the property, if the operations on the marks have it, or none occurs. -/
theorem Compositional.eval {P : ∀ {α : Type}, Run σ α → Prop} (hP : Compositional P)
    {g : Grammar ν} (n : Nat) {rule : Rule ν}
    (hstack : (∀ step, P (stackStep step : Run σ Unit)) ∨
      (∀ name, (g name).StackFree) ∧ rule.StackFree) :
    P (Engine.eval g n rule : Run σ Bool) := by
  induction n generalizing rule with
  | zero => exact hP.throw .exhausted
  | succ n ih =>
      -- Where no operation occurs in the rule, none occurs in its parts.
      have hpart : ∀ part : Rule ν, (rule.StackFree → part.StackFree) →
          P (Engine.eval g n part : Run σ Bool) := fun part hfree =>
        ih (hstack.imp_right fun hboth => ⟨hboth.1, hfree hboth.2⟩)
      cases rule with
      | token kind => exact hP.matchKind kind
      | const answer => exact hP.pure answer
      | both first second =>
          exact hP.bind (hpart first And.left) (of_cond (hpart second And.right) (hP.pure false))
      | either first second =>
          exact hP.bind (hpart first And.left) (of_cond (hP.pure true) (hpart second And.right))
      | negate rule => exact hP.answer (hpart rule id) (!·)
      | attempt rule => exact hP.speculate (hpart rule id)
      | trail delimiter element =>
          have hagain := hP.bind (hpart element id)
            (of_cond (hpart (.trail delimiter element) id) (hP.pure false))
          have helement := hP.bind (hP.matchKind delimiter) (of_cond hagain (hP.pure false))
          exact hP.bind (hP.atDelimiter delimiter) (of_cond helement (hP.pure true))
      | memo id body => exact hP.memoized (hpart body fun hfree => hfree)
      | nested body => exact hP.nested (hpart body fun hfree => hfree)
      | ref name => exact ih (hstack.imp_right fun hboth => ⟨hboth.1, hboth.1 name⟩)
      | ahead k kind => exact hP.bind (hP.peek k) fun token => hP.pure _
      | stack step =>
          refine hP.bind ?_ fun _ => hP.pure true
          exact hstack.elim (fun hstep => hstep step) fun hboth => hboth.2.elim

end Engine
end Packrat
