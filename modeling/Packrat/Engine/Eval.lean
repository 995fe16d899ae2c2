/-
  Packrat.Engine.Eval

  Running a rule of a grammar.  `Engine.eval` is structural in its fuel, which
  bounds how deep the run may recurse; a run that needs more ends in
  `Fault.exhausted`.
-/

import Packrat.Engine
import Packrat.Rule

namespace Packrat
namespace Engine

variable {σ ν : Type} [TokenSource σ]

/-- An operation on the rollback marks. -/
def stackStep : StackStep → Run σ Unit
  | .openMark => openMark
  | .abandon => abandon
  | .commit => commit
  | .compact => compact

/-- Whether another delimiter follows; if not, it is noted as expected. -/
def atDelimiter (delimiter : Kind) : Run σ Bool := do
  let token ← next
  if token.kind = delimiter then return true
  else
    expect delimiter token
    return false

/-- Runs a rule and says whether it matched. -/
def eval (g : Grammar ν) : Nat → Rule ν → Run σ Bool
  | 0, _ => throw .exhausted
  | fuel + 1, rule =>
    match rule with
    | .token kind => matchKind kind
    | .const answer => pure answer
    | .both first second => do
      if ← eval g fuel first then eval g fuel second else return false
    | .either first second => do
      if ← eval g fuel first then return true else eval g fuel second
    | .negate rule => return !(← eval g fuel rule)
    | .attempt rule => speculate (eval g fuel rule)
    | .trail delimiter element => do
      if ← atDelimiter delimiter then
        if ← matchKind delimiter then
          if ← eval g fuel element then eval g fuel (.trail delimiter element)
          else return false
        else return false
      else return true
    | .memo id body => memoized id (eval g fuel body)
    | .nested body => nested (eval g fuel body)
    | .ref name => eval g fuel (g name)
    | .ahead k kind => return (← peek k).kind = kind
    | .stack step => do
      stackStep step
      return true

end Engine
end Packrat
