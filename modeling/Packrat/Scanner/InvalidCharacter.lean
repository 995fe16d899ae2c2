/-
  Packrat.Scanner.InvalidCharacter

  The only thing that can go wrong while scanning: a character that starts no
  token.  It is skipped and recorded.
-/

import Packrat.Diagnostic
import Packrat.Text.Escaped

namespace Packrat

/-- A character that starts no token, and its bytes in the source. -/
structure InvalidCharacter where
  span : Span
  found : Char
deriving DecidableEq, Repr

namespace InvalidCharacter

/-- The wording of the error; the character is escaped. -/
def message (e : InvalidCharacter) : String :=
  "invalid character `" ++ Text.escape e.found ++ "`"

/-- The error as it is shown to the user. -/
def toDiagnostic (e : InvalidCharacter) : Diagnostic :=
  .errorAt .invalidCharacter e.message e.span "not part of any token"
    ["names are ASCII letters; the only punctuation is `[`, `]`, `,` and `=`"]

end InvalidCharacter
end Packrat
