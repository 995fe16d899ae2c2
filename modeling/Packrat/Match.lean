/-
  Packrat.Match

  The tokens of a successful recognition and where in the input they start.
-/

import Packrat.Machine
import Packrat.Token

namespace Packrat

/-- The tokens that a recognition took, in order. -/
structure Match where
  /-- The input-wide number of the first token. -/
  start : Nat
  tokens : List Token
deriving DecidableEq, Repr

namespace Match

/-- How many tokens were taken. -/
def length (m : Match) : Nat := m.tokens.length

/-- Whether no token was taken. -/
def isEmpty (m : Match) : Bool := m.tokens.isEmpty

/-- The input-wide number of the token behind the last one. -/
def stop (m : Match) : Nat := m.start + m.length

/-- The number of the token behind the last one, if it fits the machine. -/
def stop? (m : Match) : Option Nat := if m.stop < Machine.wordLimit then some m.stop else none

/-- The place from the first token to the last. -/
def span? (m : Match) : Option Span := do
  let first ← m.tokens.head?
  let last ← m.tokens.getLast?
  return first.span.merge last.span

/-- The texts of the tokens. -/
def lexemes (m : Match) : List String := m.tokens.map Token.text

end Match
end Packrat
