/-
  Packrat.Diagnostic.Location

  Where a span stands in a text: its line, its column and the text of that
  line.  Columns and widths count bytes.  A span that starts inside a
  character or past the end stands nowhere.
-/

import Packrat.Span
import Packrat.Text.Bytes

namespace Packrat

/-- A place in a text, for showing its line with marks underneath. -/
structure Location where
  /-- The number of the line, from one. -/
  line : Nat
  /-- The number of the first marked byte in the line, from one. -/
  column : Nat
  /-- The line without its line feed. -/
  lineText : List Char
  /-- How many marks to set: at least one, and none past the end of the line. -/
  width : Nat
deriving DecidableEq, Repr

namespace Location

/-- Whether `c` does not end a line. -/
def inLine (c : Char) : Bool := c != '\n'

/-- The part of the last line of `front` that is there. -/
def lineStart (front : List Char) : List Char := (front.reverse.takeWhile inLine).reverse

/-- The part of the first line of `back` that is there. -/
def lineRest (back : List Char) : List Char := back.takeWhile inLine

/-- Where `span` stands in `source`. -/
def of? (source : List Char) (span : Span) : Option Location :=
  (Text.splitAt? span.start.toNat source).map fun (front, back) =>
    let before := lineStart front
    let after := lineRest back
    { line := front.count '\n' + 1
      column := Text.byteLength before + 1
      lineText := before ++ after
      width := max 1 (min span.length.toNat (Text.byteLength after)) }

end Location
end Packrat
