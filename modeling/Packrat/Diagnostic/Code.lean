/-
  Packrat.Diagnostic.Code

  The codes that diagnostics carry.  The first digit says which phase speaks:
  `E0` codes come from scanning, `E1` codes from recognition.
-/

import Packrat.Text.Blank

namespace Packrat

/-- What a diagnostic is about. -/
inductive Code where
  /-- A character that starts no token. -/
  | invalidCharacter
  /-- A token that no alternative accepts. -/
  | unexpectedToken
  /-- The input ended too early. -/
  | unexpectedEnd
  /-- Brackets nested past the limit. -/
  | nestingTooDeep
deriving DecidableEq, Repr, Inhabited

namespace Code

/-- Every code, in order. -/
def all : List Code := [invalidCharacter, unexpectedToken, unexpectedEnd, nestingTooDeep]

/-- The code as it is printed. -/
def text : Code → String
  | invalidCharacter => "E0001"
  | unexpectedToken => "E1001"
  | unexpectedEnd => "E1002"
  | nestingTooDeep => "E1003"

/-- One line on what the code means. -/
def description : Code → String
  | invalidCharacter => "the scanner found a character that starts no token; it was skipped"
  | unexpectedToken => "no grammar alternative accepts the token at this position"
  | unexpectedEnd => "the input ended while a rule still expected more tokens"
  | nestingTooDeep => "input nested deeper than the configured maximum depth"

/-- The code with the given text; ASCII capitals and small letters count as the same. -/
def ofText? (text : String) : Option Code :=
  all.find? fun code => Text.lowered code.text == Text.lowered text

/-- Whether the code comes from scanning. -/
def isLexical : Code → Bool
  | invalidCharacter => true
  | _ => false

end Code
end Packrat
