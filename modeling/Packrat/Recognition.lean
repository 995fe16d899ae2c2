/-
  Packrat.Recognition

  A recognition runs one rule at the cursor.  If the rule matches, the tokens
  it took are copied out and committed; if not, the cursor goes back and the
  furthest mismatch is reported, or the depth limit if that was hit.
-/

import Packrat.Engine.Eval
import Packrat.Match
import Packrat.ParseError

namespace Packrat
namespace Engine

variable {σ ν : Type} [TokenSource σ]

/-- Forgets the mismatches and the depth hit of the recognition before. -/
def beginRecognition : Run σ Unit :=
  modify fun e => { e with furthest := none, depthHit := none }

/-- Why a recognition failed. -/
def failure : Run σ ParseError := do
  let e ← get
  match e.depthHit, e.furthest with
  | some hit, _ => return .nestingLimit e.settings.maxDepth hit.position hit.span
  | none, some m => return .syntaxError (.ofToken m.position m.found m.expected)
  | none, none =>
    let token ← next
    return .syntaxError (.ofToken e.buffer.position token .empty)

/-- Runs the body as a recognition. -/
@[inline] def recognizing (body : Run σ Bool) : Run σ (Except ParseError Match) := do
  beginRecognition
  openMark
  let start ← cursor
  let first ← position
  if ← body then
    let stop ← cursor
    let tokens ← onBuffer (Lookahead.slice start stop)
    commit
    return .ok ⟨first, tokens⟩
  else
    abandon
    return .error (← failure)

/-- Recognizes a rule of a grammar. -/
def recognize (g : Grammar ν) (fuel : Nat) (rule : Rule ν) : Run σ (Except ParseError Match) :=
  recognizing (eval g fuel rule)

end Engine
end Packrat
