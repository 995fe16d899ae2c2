/-
  Packrat.Token

  Tokens: a kind, the text that was scanned, and where it stood.
-/

import Packrat.Span
import Packrat.Token.Kind
import Packrat.Token.KindSet

namespace Packrat

/-- One token of the list language. -/
structure Token where
  kind : Kind
  text : String
  span : Span
deriving DecidableEq, Repr, Inhabited

namespace Token

/-- The text that every end-of-input token carries. -/
def eofText : String := "<EOF>"

/-- The end-of-input token at `offset`. -/
def eof (offset : UInt32) : Token := ⟨.eof, eofText, .point offset⟩

/-- A token that was not scanned from a text. -/
def unplaced (kind : Kind) (text : String) : Token := ⟨kind, text, .origin⟩

/-- Whether this is an end of input. -/
def isEof (t : Token) : Bool := t.kind == .eof

/-- The token as dumps show it: `<'text', KIND>`. -/
def display (t : Token) : String := "<'" ++ t.text ++ "', " ++ t.kind.label ++ ">"

/-- The token with its place: `<'text', KIND> @ start..stop`. -/
def displayPlaced (t : Token) : String := t.display ++ " @ " ++ t.span.text

@[simp] theorem kind_eof (offset : UInt32) : (eof offset).kind = .eof := rfl

@[simp] theorem isEof_eof (offset : UInt32) : (eof offset).isEof = true := rfl

end Token
end Packrat
