/-
  Packrat.Proofs.Starts

  Which bodies of memoized rules a run starts, and where.

  The list of them (`starts`) is proof-only and follows the recursion of `eval`:
  what runs next is taken from what `eval` made of what ran before.  A body is
  started where no outcome is replayed, by `memoized` alone.
-/

import Packrat.Proofs.OwnRules

namespace Packrat

/-- A start of the body of a memoized rule. -/
structure Start where
  rule : RuleId
  /-- The input-wide number of the next token. -/
  position : Nat
  /-- How many compactions there were before. -/
  epoch : Nat
  /-- Whether something was open. -/
  speculating : Bool
deriving DecidableEq, Repr

/-- What follows a step that gives the answer. -/
def Run.following {σ : Type} (answer : Bool) (x : EStateM.Result Fault (Engine σ) Bool)
    (starts : Engine σ → List Start) : List Start :=
  match x with
  | .ok a e => if a = answer then starts e else []
  | .error _ _ => []

theorem Run.following_ok {σ : Type} {a answer : Bool} {e : Engine σ}
    {starts : Engine σ → List Start} :
    following answer (.ok a e) starts = if a = answer then starts e else [] := rfl

theorem Run.mem_following {σ : Type} {answer : Bool} {x : EStateM.Result Fault (Engine σ) Bool}
    {starts : Engine σ → List Start} {start : Start} (h : start ∈ following answer x starts) :
    ∃ e, x = .ok answer e ∧ start ∈ starts e := by
  cases x with
  | error fault e => cases h
  | ok a e =>
      rw [following_ok] at h
      split at h
      · next heq => exact ⟨e, by rw [heq], h⟩
      · cases h

namespace Engine

variable {σ ν μ : Type} [TokenSource σ]

/-- A start of the body of the rule at the cursor. -/
def startOf (e : Engine σ) (id : RuleId) : Start :=
  ⟨id, e.buffer.position, e.compactions, e.isSpeculating⟩

/-- The bodies that a run of the rule starts, in order. -/
def starts (g : Grammar ν) : Nat → Rule ν → Engine σ → List Start
  | 0, _, _ => []
  | fuel + 1, rule, e =>
    match rule with
    | .token _ | .const _ | .ahead _ _ | .stack _ => []
    | .both first second =>
      starts g fuel first e ++ Run.following true (eval g fuel first e) (starts g fuel second)
    | .either first second =>
      starts g fuel first e ++ Run.following false (eval g fuel first e) (starts g fuel second)
    | .negate rule => starts g fuel rule e
    | .attempt rule => starts g fuel rule e.pushed
    | .trail delimiter element =>
      Run.following true (atDelimiter delimiter e) fun e =>
        Run.following true (matchKind delimiter e) fun e =>
          starts g fuel element e ++
            Run.following true (eval g fuel element e) (starts g fuel (.trail delimiter element))
    | .memo id body =>
      if e.settings.memoize && e.isSpeculating then
        match e.memo.get? id e.buffer.cursor with
        | some _ => []
        | none => e.startOf id :: starts g fuel body (e.fresh id).pushed
      else e.startOf id :: starts g fuel body (e.counted id).pushed
    | .nested body =>
      if e.settings.maxDepth ≤ e.depth then []
      else starts g fuel body { e with depth := e.depth + 1 }
    | .ref name => starts g fuel (g name) e

/-- A grammar starts the same bodies under other names. -/
theorem starts_rename {f : ν → μ} {g : Grammar ν} {h : Grammar μ}
    (hg : ∀ name, h (f name) = (g name).rename f) (n : Nat) (rule : Rule ν) (e : Engine σ) :
    starts h n (rule.rename f) e = starts g n rule e := by
  induction n generalizing rule e with
  | zero => rfl
  | succ n ih =>
      have hsame : ∀ rule : Rule ν, starts h n (rule.rename f) = starts (σ := σ) g n rule :=
        fun rule => funext (ih rule)
      have heval : ∀ rule : Rule ν, _ = eval (σ := σ) g n rule := eval_rename hg n
      cases rule with
      | token kind => rfl
      | const answer => rfl
      | both first second => simp only [Rule.rename, starts, hsame, heval]
      | either first second => simp only [Rule.rename, starts, hsame, heval]
      | negate rule => simp only [Rule.rename, starts, hsame]
      | attempt rule => simp only [Rule.rename, starts, hsame]
      | trail delimiter element =>
          have hagain := hsame (.trail delimiter element)
          simp only [Rule.rename] at hagain
          simp only [Rule.rename, starts, hsame, heval, hagain]
      | memo id body => simp only [Rule.rename, starts, hsame]
      | nested body => simp only [Rule.rename, starts, hsame]
      | ref name => simp only [Rule.rename, starts, hg, hsame]
      | ahead k kind => rfl
      | stack step => rfl

/-- The bodies that a step of a session starts. -/
def stepStarts (g : Grammar ν) (n : Nat) (step : Step ν) (e : Engine σ) : List Start :=
  match step with
  | .parse entry | .tryParse entry => starts ListGrammar.grammar n entry.rule e.begun.pushed
  | .recognize rule => starts g n rule e.begun.pushed
  | .run rule => starts g n rule e
  | .stack _ | .kindAhead _ | .tokenAhead _ | .outcomeAt _ _ | .tokenAt _ | .tokensBetween _ _
  | .absolute _ | .settings => []

end Engine
end Packrat
