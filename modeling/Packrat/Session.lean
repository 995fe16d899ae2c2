/-
  Packrat.Session

  A session drives one engine through a list of steps: recognitions, bare runs
  of a rule, operations on the rollback marks, and looks at the state.  A step
  either answers or faults; a fault ends the session.
-/

import Packrat.Parse

namespace Packrat

/-- One step of a session over a grammar with rule names `ν`. -/
inductive Step (ν : Type) where
  /-- Parse an entry of the list grammar. -/
  | parse (entry : Entry)
  /-- Whether an entry of the list grammar parses. -/
  | tryParse (entry : Entry)
  /-- Recognize a rule. -/
  | recognize (rule : Rule ν)
  /-- Run a rule without a recognition around it. -/
  | run (rule : Rule ν)
  /-- An operation on the rollback marks. -/
  | stack (step : StackStep)
  /-- The kind of the token `k` places ahead. -/
  | kindAhead (k : Nat)
  /-- The token `k` places ahead. -/
  | tokenAhead (k : Nat)
  /-- The memo of a rule at a position. -/
  | outcomeAt (rule : RuleId) (pos : Nat)
  /-- The buffered token at a position. -/
  | tokenAt (pos : Nat)
  /-- The buffered tokens in a range of positions. -/
  | tokensBetween (start stop : Nat)
  /-- The input-wide number of a position. -/
  | absolute (pos : Nat)
  /-- The settings. -/
  | settings
deriving DecidableEq, Repr

/-- What a step answers. -/
inductive Answer where
  | done
  | result (r : Except ParseError Match)
  | flag (b : Bool)
  | kind (k : Kind)
  | token (t : Option Token)
  | tokens (ts : List Token)
  | number (n : Nat)
  /-- No table for the rule, or the outcome in its table. -/
  | outcome (o : Option (Option Outcome))
  | settings (s : Settings)

namespace Engine

variable {σ ν : Type} [TokenSource σ]

/-- Performs a step; whatever it runs, runs on the given fuel. -/
def perform (g : Grammar ν) (fuel : Nat) : Step ν → Run σ Answer
  | .parse entry => return .result (← recognizeEntry fuel entry)
  | .tryParse entry => return .flag (← recognizeEntry fuel entry).isOk
  | .recognize rule => return .result (← recognize g fuel rule)
  | .run rule => return .flag (← eval g fuel rule)
  | .stack step => do
    stackStep step
    return .done
  | .kindAhead k => return .kind (← peek k).kind
  | .tokenAhead k => return .token (some (← peek k))
  | .outcomeAt rule pos => do
    let table := (← get).memo.table? rule
    return .outcome (table.map (·.get? pos))
  | .tokenAt pos => return .token ((← get).buffer.get? pos)
  | .tokensBetween start stop => return .tokens (← onBuffer (Lookahead.slice start stop))
  | .absolute pos => return .number (← onBuffer (Lookahead.absolute pos))
  | .settings => return .settings (← get).settings

/-- The answers of a session, each with the engine after it, up to the first fault. -/
def session (g : Grammar ν) (fuel : Nat) :
    List (Step ν) → Engine σ → List (Except Fault Answer × Engine σ)
  | [], _ => []
  | step :: steps, e =>
    match perform g fuel step e with
    | .ok answer e => (.ok answer, e) :: session g fuel steps e
    | .error fault e => [(.error fault, e)]

end Engine

/-- Rule names of a session with rules of its own beside those of the list grammar. -/
inductive RuleName where
  | list (name : Nonterminal)
  | own (name : String)
deriving DecidableEq, Repr

/-- The list grammar together with rules of one's own; a name without a rule never matches. -/
def extendedGrammar (own : List (String × Rule RuleName)) : Grammar RuleName
  | .list name => ListGrammar.rule .list name
  | .own name => (own.lookup name).getD (.const false)

end Packrat
