/-
  Packrat.Proofs.OwnRules

  Keeping outcomes does not show for rules of one's own either, as long as the
  depth limit plays no part: a session over any rules answers the same with and
  without kept outcomes, if each memoized rule has one body and no rule works
  on the rollback marks.  The session itself may open, abandon, commit and
  compact as it likes.

  The steps that parse an entry run the list grammar under its own names; that
  this is the list grammar inside the larger one is `eval_rename`.
-/

import Packrat.Proofs.Transcript

namespace Packrat

variable {ν μ : Type}

-- ============================================================================
-- Grammars inside grammars
-- ============================================================================

/-- The rule with every name that it refers to renamed. -/
def Rule.rename (f : ν → μ) : Rule ν → Rule μ
  | .token kind => .token kind
  | .const answer => .const answer
  | .both first second => .both (first.rename f) (second.rename f)
  | .either first second => .either (first.rename f) (second.rename f)
  | .negate rule => .negate (rule.rename f)
  | .attempt rule => .attempt (rule.rename f)
  | .trail delimiter element => .trail delimiter (element.rename f)
  | .memo id body => .memo id (body.rename f)
  | .nested body => .nested (body.rename f)
  | .ref name => .ref (f name)
  | .ahead k kind => .ahead k kind
  | .stack step => .stack step

/-- A grammar runs the same under other names. -/
theorem Engine.eval_rename {σ : Type} [TokenSource σ] {f : ν → μ} {g : Grammar ν}
    {h : Grammar μ} (hg : ∀ name, h (f name) = (g name).rename f) (n : Nat) (rule : Rule ν) :
    (Engine.eval h n (rule.rename f) : Run σ Bool) = Engine.eval g n rule := by
  induction n generalizing rule with
  | zero => rfl
  | succ n ih =>
      cases rule with
      | token kind => rfl
      | const answer => rfl
      | both first second => simp only [Rule.rename, Engine.eval, ih]
      | either first second => simp only [Rule.rename, Engine.eval, ih]
      | negate rule => simp only [Rule.rename, Engine.eval, ih]
      | attempt rule => simp only [Rule.rename, Engine.eval, ih]
      | trail delimiter element =>
          have htrail := ih (.trail delimiter element)
          simp only [Rule.rename] at htrail
          simp only [Rule.rename, Engine.eval, ih, htrail]
      | memo id body => simp only [Rule.rename, Engine.eval, ih]
      | nested body => simp only [Rule.rename, Engine.eval, ih]
      | ref name => simp only [Rule.rename, Engine.eval, hg, ih]
      | ahead k kind => rfl
      | stack step => rfl

theorem ListGrammar.rule_eq_rename (embed : Nonterminal → ν) (name : Nonterminal) :
    ListGrammar.rule embed name = (ListGrammar.grammar name).rename embed := by
  cases name <;> rfl

/-- Recognizing an entry is recognizing its rule in a grammar that has those of the list
    language. -/
theorem Engine.recognizeEntry_eq_of_rule {σ : Type} [TokenSource σ] {g : Grammar ν}
    {embed : Nonterminal → ν} (hg : ∀ name, g (embed name) = ListGrammar.rule embed name)
    (n : Nat) (entry : Entry) :
    (Engine.recognizeEntry n entry : Run σ (Except ParseError Match))
      = Engine.recognize g n (entry.rule.rename embed) := by
  have hrename : ∀ name, g (embed name) = (ListGrammar.grammar name).rename embed :=
    fun name => (hg name).trans (ListGrammar.rule_eq_rename embed name)
  rw [Engine.recognizeEntry, Engine.recognize, Engine.recognize, Engine.eval_rename hrename]

theorem Engine.recognizeEntry_eq {σ : Type} [TokenSource σ] (own : List (String × Rule RuleName))
    (n : Nat) (entry : Entry) :
    (Engine.recognizeEntry n entry : Run σ (Except ParseError Match))
      = Engine.recognize (extendedGrammar own) n (entry.rule.rename .list) := by
  have hg : ∀ name, extendedGrammar own (.list name) = ListGrammar.rule .list name := fun _ => rfl
  exact Engine.recognizeEntry_eq_of_rule hg n entry

-- ============================================================================
-- Plain rules
-- ============================================================================

/-- Where the depth limit plays no part, plain rules keep outcomes that are always good. -/
def Discipline.ofPlain {t : Nat → Token} {g : Grammar ν} {maxDepth : Nat}
    (bodyOf : RuleId → Rule ν) (hg : ∀ name, (g name).Plain bodyOf) :
    Discipline t g maxDepth where
  limitless := True
  bodyOf := bodyOf
  Calls rule _ _ := rule.Plain bodyOf
  Keeps _ _ := True
  stackFree_grammar := stackFree_of_plain hg
  stackFree h := h.stackFree
  body_eq h := h.oneBody.1
  keeps _ := trivial
  fits _ _ := .inl trivial
  closed h hinvokes := h.invokes hg hinvokes

theorem Entry.plain_rename {bodyOf : RuleId → Rule ν} (entry : Entry) (embed : Nonterminal → ν) :
    (entry.rule.rename embed).Plain bodyOf := by
  constructor
  · cases entry <;> simp [Entry.rule, ListGrammar.thenEnd, Rule.rename, Rule.StackFree]
  · cases entry <;> simp [Entry.rule, ListGrammar.thenEnd, Rule.rename, Rule.OneBody]

/-- The step runs plain rules only and asks neither for the memo nor for the settings. -/
def Step.Plain (bodyOf : RuleId → Rule ν) : Step ν → Prop
  | .recognize rule | .run rule => rule.Plain bodyOf
  | .outcomeAt _ _ | .settings => False
  | .parse _ | .tryParse _ | .stack _ | .kindAhead _ | .tokenAhead _ | .tokenAt _
  | .tokensBetween _ _ | .absolute _ => True

-- ============================================================================
-- Sessions
-- ============================================================================

namespace Engine

variable {σ : Type} [TokenSource σ] {s : σ} {maxDepth : Nat}
variable {own : List (String × Rule RuleName)}
variable {S : Discipline (TokenSource.stream s) (extendedGrammar own) maxDepth}
variable {e₁ e₂ : Engine σ}

theorem lockstep_perform {n : Nat} {step : Step RuleName} (bodyOf : RuleId → Rule RuleName)
    (hcalls : ∀ rule d i, rule.Plain bodyOf → S.Calls rule d i)
    (hopen : S.limitless) (hstep : step.Plain bodyOf) (h : Sim S none e₁ e₂) :
    Lockstep S none (perform (extendedGrammar own) n step e₁)
      (perform (extendedGrammar own) n step e₂) := by
  have hentry : ∀ entry : Entry, Lockstep S none (recognizeEntry n entry e₁)
      (recognizeEntry n entry e₂) := by
    intro entry
    rw [recognizeEntry_eq own]
    exact lockstep_recognize h (hcalls _ _ _ (entry.plain_rename RuleName.list))
  cases step with
  | parse entry => exact .answer (hentry entry) Answer.result
  | tryParse entry => exact .answer (hentry entry) fun r => Answer.flag r.isOk
  | recognize rule => exact .answer (lockstep_recognize h (hcalls _ _ _ hstep)) Answer.result
  | run rule => exact .answer (lockstep_eval n h (hcalls _ _ _ hstep) (.inl hopen)) Answer.flag
  | outcomeAt => exact hstep.elim
  | settings => exact hstep.elim
  | stack step => exact lockstep_perform_of_looks h (.stack step) trivial n
  | kindAhead k => exact lockstep_perform_of_looks h (.kindAhead k) trivial n
  | tokenAhead k => exact lockstep_perform_of_looks h (.tokenAhead k) trivial n
  | tokenAt pos => exact lockstep_perform_of_looks h (.tokenAt pos) trivial n
  | tokensBetween start stop =>
      exact lockstep_perform_of_looks h (.tokensBetween start stop) trivial n
  | absolute pos => exact lockstep_perform_of_looks h (.absolute pos) trivial n

/-- Sessions of steps in step show the same, step by step. -/
theorem observe_session_of_sim {n : Nat} (bodyOf : RuleId → Rule RuleName)
    (hcalls : ∀ rule d i, rule.Plain bodyOf → S.Calls rule d i) (hopen : S.limitless)
    {steps : List (Step RuleName)} (hsteps : ∀ step ∈ steps, step.Plain bodyOf)
    (hends : ∀ x ∈ session (extendedGrammar own) n steps e₂, x.1 ≠ .error .exhausted)
    (hfree : ∀ x ∈ session (extendedGrammar own) n steps e₂, x.2.depthHit = none)
    (h : Sim S none e₁ e₂) :
    (session (extendedGrammar own) n steps e₁).map observe
      = (session (extendedGrammar own) n steps e₂).map observe := by
  induction steps generalizing e₁ e₂ with
  | nil => rfl
  | cons step steps ih =>
      have hstep := lockstep_perform (n := n) bodyOf hcalls hopen (hsteps step (by simp)) h
      simp only [session] at hends hfree ⊢
      cases hrun : perform (extendedGrammar own) n step e₂ with
      | ok answer e₂' =>
          rw [hrun] at hstep
          simp only [hrun] at hends hfree
          obtain ⟨e₁', hrun₁, hsim⟩ := hstep fun _ => hfree _ List.mem_cons_self
          have hrest := ih (fun step hmem => hsteps step (List.mem_cons_of_mem _ hmem))
            (fun x hmem => hends x (List.mem_cons_of_mem _ hmem))
            (fun x hmem => hfree x (List.mem_cons_of_mem _ hmem)) hsim
          simp only [hrun₁, List.map_cons, hrest, observe, Speculation.depth, hsim.buffer,
            hsim.marks]
      | error fault e₂' =>
          rw [hrun] at hstep
          simp only [hrun] at hends hfree
          have hend : fault ≠ .exhausted := by
            rintro rfl
            exact hends _ List.mem_cons_self rfl
          obtain ⟨e₁', hrun₁, hagree⟩ := hstep hend fun _ => hfree _ List.mem_cons_self
          simp only [hrun₁, List.map_cons, List.map_nil, observe, Speculation.depth,
            hagree.buffer, hagree.marks]

/-- Kept outcomes do not show in a session over any rules, if every memoized rule has one
    body, no rule works on the marks, every run of the session without kept outcomes ends,
    and that session never hits the depth limit. -/
theorem session_memoize_eq (source : σ) (maxDepth n : Nat)
    (own : List (String × Rule RuleName)) (bodyOf : RuleId → Rule RuleName)
    (steps : List (Step RuleName))
    (hrules : ∀ name, (extendedGrammar own name).Plain bodyOf)
    (hsteps : ∀ step ∈ steps, step.Plain bodyOf)
    (hends : ∀ x ∈ session (extendedGrammar own) n steps (ofSource ⟨false, maxDepth⟩ source),
      x.1 ≠ .error .exhausted)
    (hfree : ∀ x ∈ session (extendedGrammar own) n steps (ofSource ⟨false, maxDepth⟩ source),
      x.2.depthHit = none) :
    (session (extendedGrammar own) n steps (ofSource ⟨true, maxDepth⟩ source)).map observe
      = (session (extendedGrammar own) n steps (ofSource ⟨false, maxDepth⟩ source)).map observe :=
  observe_session_of_sim bodyOf (fun _ _ _ h => h) trivial hsteps hends hfree
    (sim_ofSource (.ofPlain bodyOf hrules))

/-- Two names in a row, kept as `pair`, and a rule that tries them twice. -/
def pairRules : List (String × Rule RuleName) :=
  [("pair", .memo ⟨"pair"⟩ (.both (.token .name) (.token .name))),
   ("pairs", .oneOf [.both (.ref (.own "pair")) (.token .comma), .ref (.own "pair")])]

/-- The body of `pair` beside those of the list language. -/
def pairBodies (id : RuleId) : Rule RuleName :=
  if id.name = "pair" then .both (.token .name) (.token .name)
  else ListGrammar.bodyOf .list id

/-- Bare runs and recognitions, some of them under an open mark, and a commit too many. -/
def pairSteps : List (Step RuleName) :=
  [.stack .openMark, .run (.ref (.own "pairs")), .stack .abandon,
   .recognize (.ref (.own "pairs")), .kindAhead 1, .parse .stat, .stack .commit]

/-- The tokens of `a b [c]`. -/
def pairSource : TokenList :=
  .ofKinds [(.name, "a"), (.name, "b"), (.lbracket, "["), (.name, "c"), (.rbracket, "]")]

theorem session_memoize_eq_of_pairs :
    (session (extendedGrammar pairRules) 40 pairSteps (ofSource ⟨true, 3⟩ pairSource)).map observe
      = (session (extendedGrammar pairRules) 40 pairSteps
          (ofSource ⟨false, 3⟩ pairSource)).map observe := by
  have hrun : (session (extendedGrammar pairRules) 40 pairSteps
      (ofSource ⟨false, 3⟩ pairSource)).all (fun x => x.2.depthHit.isNone && match x.1 with
        | .error .exhausted => false
        | _ => true) = true := by decide +kernel
  rw [List.all_eq_true] at hrun
  refine session_memoize_eq pairSource 3 40 pairRules pairBodies pairSteps ?_ ?_ ?_ ?_
  · rintro (name | name)
    · exact ListGrammar.plain_rule (fun name => by cases name <;> rfl) name
    · by_cases hpair : name = "pair"
      · subst hpair
        exact ⟨⟨trivial, trivial⟩, rfl, trivial, trivial⟩
      · by_cases hpairs : name = "pairs"
        · subst hpairs
          exact ⟨⟨⟨trivial, trivial⟩, trivial, trivial⟩, ⟨trivial, trivial⟩, trivial, trivial⟩
        · have hnone : pairRules.lookup name = none := by
            simp [pairRules, List.lookup_cons, beq_false_of_ne hpair, beq_false_of_ne hpairs]
          rw [extendedGrammar, hnone]
          exact ⟨trivial, trivial⟩
  · intro step hmem
    simp only [pairSteps, List.mem_cons, List.not_mem_nil, or_false] at hmem
    rcases hmem with rfl | rfl | rfl | rfl | rfl | rfl | rfl
    · trivial
    · exact ⟨trivial, trivial⟩
    · trivial
    · exact ⟨trivial, trivial⟩
    · trivial
    · trivial
    · trivial
  · rintro x hmem hexhausted
    have := hrun x hmem
    simp [hexhausted] at this
  · intro x hmem
    have := hrun x hmem
    simp only [Bool.and_eq_true, Option.isNone_iff_eq_none] at this
    exact this.1

end Engine
end Packrat
