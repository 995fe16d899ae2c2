/-
  Packrat.Proofs.PlainRules

  Plain rules: no operation on the rollback marks occurs in them, and each
  memoized name has one body.  The rules of the list language are plain, with
  the bodies of `ListGrammar.bodyOf`.
-/

import Packrat.ListGrammar

namespace Packrat

variable {ν : Type}

/-- No operation on the rollback marks occurs in the rule. -/
def Rule.StackFree : Rule ν → Prop
  | .both first second | .either first second => first.StackFree ∧ second.StackFree
  | .negate rule | .attempt rule | .trail _ rule | .memo _ rule | .nested rule => rule.StackFree
  | .stack _ => False
  | .token _ | .const _ | .ref _ | .ahead _ _ => True

/-- Every memoized rule in the rule has the body that belongs to its name. -/
def Rule.OneBody (bodyOf : RuleId → Rule ν) : Rule ν → Prop
  | .both first second | .either first second => first.OneBody bodyOf ∧ second.OneBody bodyOf
  | .negate rule | .attempt rule | .trail _ rule | .nested rule => rule.OneBody bodyOf
  | .memo id body => body = bodyOf id ∧ body.OneBody bodyOf
  | .token _ | .const _ | .ref _ | .ahead _ _ | .stack _ => True

/-- The rule works on no marks and has one body for each memoized name. -/
structure Rule.Plain (bodyOf : RuleId → Rule ν) (rule : Rule ν) : Prop where
  stackFree : rule.StackFree
  oneBody : rule.OneBody bodyOf

/-- The body of a memoized rule; any other rule as it is. -/
def Rule.memoBody : Rule ν → Rule ν
  | .memo _ body => body
  | rule => rule

namespace ListGrammar

/-- The bodies of the memoized rules of the list language. -/
def bodyOf (embed : Nonterminal → ν) (id : RuleId) : Rule ν :=
  ((Nonterminal.ofText? id.name).map fun name => (rule embed name).memoBody).getD (.const false)

theorem bodyOf_ruleId (embed : Nonterminal → ν) (name : Nonterminal) :
    bodyOf embed name.ruleId = (rule embed name).memoBody := by
  cases name <;> rfl

/-- The rules of the list language are plain whatever other bodies there are. -/
theorem plain_rule {embed : Nonterminal → ν} {bodies : RuleId → Rule ν}
    (hbodies : ∀ name : Nonterminal, bodies name.ruleId = (rule embed name).memoBody)
    (name : Nonterminal) : (rule embed name).Plain bodies := by
  constructor
  · cases name <;> simp [rule, thenEnd, nameElement, Rule.oneOf, Rule.anyOf, Rule.sequence,
      Rule.allOf, Rule.separated, Rule.optional, Rule.StackFree]
  · cases name <;> simp [rule, thenEnd, nameElement, Rule.oneOf, Rule.anyOf, Rule.sequence,
      Rule.allOf, Rule.separated, Rule.optional, Rule.OneBody, hbodies, Rule.memoBody]

end ListGrammar

theorem Engine.stackFree_list (name : Nonterminal) : (ListGrammar.grammar name).StackFree :=
  (ListGrammar.plain_rule (ListGrammar.bodyOf_ruleId id) name).stackFree

theorem Entry.stackFree_rule (entry : Entry) : entry.rule.StackFree := by
  cases entry <;> simp [Entry.rule, ListGrammar.thenEnd, Rule.StackFree]

end Packrat
