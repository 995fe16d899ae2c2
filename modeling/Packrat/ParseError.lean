/-
  Packrat.ParseError

  Why an input was rejected: a character that starts no token, a token that
  no alternative accepts, or brackets nested too deep.
-/

import Packrat.Scanner.InvalidCharacter
import Packrat.Settings
import Packrat.Token

namespace Packrat

/-- The input stopped matching: the furthest token that any alternative reached, and every
    kind that would have let some alternative go on there. -/
structure SyntaxError where
  /-- The input-wide number of the token. -/
  position : Nat
  found : Kind
  lexeme : String
  span : Span
  expected : KindSet
deriving DecidableEq, Repr

namespace SyntaxError

/-- The error about `found`. -/
def ofToken (position : Nat) (found : Token) (expected : KindSet) : SyntaxError :=
  ⟨position, found.kind, found.text, found.span, expected⟩

/-- Whether the input ended while more was expected. -/
def isUnexpectedEnd (e : SyntaxError) : Bool := e.found == .eof

/-- The code of the error. -/
def code (e : SyntaxError) : Code :=
  if e.isUnexpectedEnd then .unexpectedEnd else .unexpectedToken

/-- How the token that was found reads. -/
def foundPhrase (e : SyntaxError) : String :=
  if e.isUnexpectedEnd then e.found.phrase else "`" ++ e.lexeme ++ "`"

/-- The wording of the error. -/
def message (e : SyntaxError) : String :=
  if e.expected.isEmpty then "unexpected " ++ e.foundPhrase
  else "expected " ++ e.expected.describe ++ ", found " ++ e.foundPhrase

/-- The error as it is shown to the user. -/
def toDiagnostic (e : SyntaxError) : Diagnostic :=
  .errorAt e.code e.message e.span
    (if e.expected.isEmpty then "unexpected token" else "expected " ++ e.expected.describe) []

end SyntaxError

/-- Why an input was rejected. -/
inductive ParseError where
  | lexical (error : InvalidCharacter)
  | syntaxError (error : SyntaxError)
  /-- Brackets nest deeper than `limit`; the next token is the one too deep. -/
  | nestingLimit (limit position : Nat) (span : Span)
deriving DecidableEq, Repr

namespace ParseError

/-- The code of the error. -/
def code : ParseError → Code
  | lexical _ => .invalidCharacter
  | syntaxError error => error.code
  | nestingLimit _ _ _ => .nestingTooDeep

/-- The place of the error. -/
def span : ParseError → Span
  | lexical error => error.span
  | syntaxError error => error.span
  | nestingLimit _ _ span => span

/-- The wording of the error. -/
def message : ParseError → String
  | lexical error => error.message
  | syntaxError error => error.message
  | nestingLimit limit _ _ => "input nests deeper than " ++ toString limit ++ " levels"

/-- The error as it is shown to the user. -/
def toDiagnostic : ParseError → Diagnostic
  | lexical error => error.toDiagnostic
  | syntaxError error => error.toDiagnostic
  | nestingLimit limit position span =>
    .errorAt .nestingTooDeep (nestingLimit limit position span).message span
      "nesting limit reached here" ["raise the limit with " ++ Settings.depthVariable]

end ParseError
end Packrat
