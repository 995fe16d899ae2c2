/-
  Packrat.Proofs.LimitedMemo

  The depth limit and kept outcomes.

  Outcomes are kept by rule and position, and not by depth, so an outcome that
  was reached on one level can be replayed on a deeper one, where the limit
  would have cut the rule short (`replay_passes_depth_limit`).  In a grammar
  whose rules open a bracket wherever they nest, the depth of a rule is settled
  by its place, and no outcome meets a deeper call than it came from: there the
  limit is enforced alike with kept outcomes and without
  (`recognize_memoize_eq_of_bracketed`).
-/

import Packrat.Proofs.Brackets
import Packrat.Proofs.Transcript

namespace Packrat
namespace Engine

variable {σ ν : Type} [TokenSource σ]

/-- If the rules open a bracket wherever they nest, what a recognition without kept outcomes comes
    to it comes to with them, the depth limit included. -/
theorem recognize_memoize_eq_of_bracketed {g : Grammar ν} {bodyOf : RuleId → Rule ν}
    (hg : ∀ name, (g name).Plain bodyOf) (hbrackets : ∀ name, Bracketed (g name) .level .level)
    {rule : Rule ν} (hrule : rule.Plain bodyOf) (hbracketed : Bracketed rule .level .level)
    (s : σ) (maxDepth n : Nat) {result : Except ParseError Match} {e₂ : Engine σ}
    (hrun : recognize g n rule (ofSource ⟨false, maxDepth⟩ s) = .ok result e₂) :
    ∃ e₁, recognize g n rule (ofSource ⟨true, maxDepth⟩ s) = .ok result e₁ := by
  let S : Discipline (TokenSource.stream s) g maxDepth := .ofBrackets bodyOf hg hbrackets 0
  have hcalls : S.Calls rule 0 0 :=
    ⟨hrule, .inr ⟨.level, .level, hbracketed, .start_level (TokenSource.stream s) 0⟩⟩
  have hlockstep := lockstep_recognize (n := n) (sim_ofSource S) hcalls
  rw [hrun] at hlockstep
  obtain ⟨e₁, hkeeping, -⟩ := hlockstep fun hlimitless => hlimitless.elim
  exact ⟨e₁, hkeeping⟩

/-- `group := '[' (group | NAME) ']'`, nested and through its memo. -/
def groupRule : Rule Unit :=
  .memo ⟨"group"⟩ (.nested (.both (.token .lbracket)
    (.both (.oneOf [.ref (), .token .name]) (.token .rbracket))))

/-- Groups nested two deep, one of which may be open. -/
theorem recognize_memoize_eq_of_groups :
    ∃ e₁ e₂ : Engine TokenList, ∃ span,
      recognize (fun _ => groupRule) 20 (.oneOf [.ref (), .token .name]) (ofSource ⟨false, 1⟩
        (TokenList.ofKinds [(.lbracket, "["), (.lbracket, "["), (.name, "a")]))
        = .ok (.error (.nestingLimit 1 1 span)) e₂ ∧
      recognize (fun _ => groupRule) 20 (.oneOf [.ref (), .token .name]) (ofSource ⟨true, 1⟩
        (TokenList.ofKinds [(.lbracket, "["), (.lbracket, "["), (.name, "a")]))
        = .ok (.error (.nestingLimit 1 1 span)) e₁ := by
  have hrun : (match recognize (fun _ => groupRule) 20 (.oneOf [.ref (), .token .name])
        (ofSource ⟨false, 1⟩
          (TokenList.ofKinds [(.lbracket, "["), (.lbracket, "["), (.name, "a")])) with
      | .ok (.error (.nestingLimit 1 1 _)) _ => true
      | _ => false) = true := by decide +kernel
  have hinside : Site.inside ≠ .around := by decide
  have hlevel : Site.level ≠ .around := by decide
  have hchoice : ∀ {site : Site}, site ≠ .around →
      Bracketed (.oneOf [.ref (), .token .name]) site site := fun hsite =>
    .either (.ref hsite) (.either (.token (by decide) (by decide)) .const)
  have hgroup : Bracketed groupRule .level .level :=
    .memo hlevel (.nested hlevel (.both .opening (.both (hchoice hinside) .closing)))
  have hplain : groupRule.Plain fun _ => groupRule.memoBody := by
    constructor <;> simp [groupRule, Rule.oneOf, Rule.anyOf, Rule.StackFree, Rule.OneBody,
      Rule.memoBody]
  have hrule : Rule.Plain (fun _ => groupRule.memoBody) (.oneOf [.ref (), .token .name]) := by
    constructor <;> simp [Rule.oneOf, Rule.anyOf, Rule.StackFree, Rule.OneBody]
  split at hrun
  · next span e₂ hplainRun =>
      obtain ⟨e₁, hkeeping⟩ := recognize_memoize_eq_of_bracketed (fun _ => hplain)
        (fun _ => hgroup) hrule (hchoice hlevel) _ 1 20 hplainRun
      exact ⟨e₁, e₂, span, hplainRun, hkeeping⟩
  · cases hrun

/-- A name, nested and through its memo: first on the outer level and given up, then a level
    deeper. -/
def nameTwice : Rule Unit :=
  .anyOf [.attempt (.allOf [.memo ⟨"m"⟩ (.nested (.token .name)), .const false]),
    .nested (.memo ⟨"m"⟩ (.nested (.token .name)))]

/-- The outcome from the outer level is replayed where the limit cuts the rule short. -/
theorem replay_passes_depth_limit :
    (∃ (span : Span) (e : Engine TokenList), recognize (fun _ => Rule.const false) 20 nameTwice
        (ofSource ⟨false, 1⟩ (TokenList.ofKinds [(.name, "a")]))
      = .ok (.error (.nestingLimit 1 0 span)) e) ∧
    ∃ (token : Token) (e : Engine TokenList), recognize (fun _ => Rule.const false) 20 nameTwice
        (ofSource ⟨true, 1⟩ (TokenList.ofKinds [(.name, "a")])) = .ok (.ok ⟨0, [token]⟩) e := by
  have hplain : (match recognize (fun _ => Rule.const false) 20 nameTwice
        (ofSource ⟨false, 1⟩ (TokenList.ofKinds [(.name, "a")])) with
      | .ok (.error err) _ => decide (err = .nestingLimit 1 0 ⟨0, 0⟩)
      | .ok (.ok _) _ => false
      | .error _ _ => false) = true := by decide +kernel
  have hkeeping : (match recognize (fun _ => Rule.const false) 20 nameTwice
        (ofSource ⟨true, 1⟩ (TokenList.ofKinds [(.name, "a")])) with
      | .ok (.ok found) _ => decide (found = ⟨0, [.unplaced .name "a"]⟩)
      | .ok (.error _) _ => false
      | .error _ _ => false) = true := by decide +kernel
  constructor
  · split at hplain
    · next err e hrun =>
        rw [of_decide_eq_true hplain] at hrun
        exact ⟨_, e, hrun⟩
    · cases hplain
    · cases hplain
  · split at hkeeping
    · next found e hrun =>
        rw [of_decide_eq_true hkeeping] at hrun
        exact ⟨_, e, hrun⟩
    · cases hkeeping
    · cases hkeeping

end Engine
end Packrat
