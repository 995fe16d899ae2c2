/-
  Packrat.Command.Tokens

  The tokens command: every token of a text with its place, and every invalid
  character of it.
-/

import Packrat.Command.Check

namespace Packrat
namespace Tokens

/-- The line of a token; the spans start in one column behind all but very long tokens. -/
def line (token : Token) : String :=
  Text.padRight 16 token.display ++ " " ++ token.span.text ++ "\n"

end Tokens

/-- Lists the tokens of a text; it succeeds if the text has no invalid character. -/
def listTokens (source : String) (color : ColorMode) (isTerminal : Bool) : Report :=
  let (tokens, errors) := lex source
  let out := String.join (tokens.map Tokens.line)
  let err :=
    if errors.isEmpty then ""
    else
      Check.rejection source (color.useColors isTerminal)
        (errors.map InvalidCharacter.toDiagnostic)
  ⟨errors.isEmpty, out, err⟩

end Packrat
