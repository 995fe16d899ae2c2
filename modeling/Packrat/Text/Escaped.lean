/-
  Packrat.Text.Escaped

  One character as it is quoted in a message: printable ASCII stands for
  itself, quotes and the backslash get a backslash, tab, carriage return and
  line feed their letter, everything else its code point in hexadecimal.
-/

namespace Packrat.Text

/-- The code point of `c` as `\u{…}`, lower-case and without leading zeros. -/
def escapeCodePoint (c : Char) : String :=
  "\\u\x7b" ++ String.ofList (Nat.toDigits 16 c.toNat) ++ "\x7d"

/-- Whether `c` stands for itself: a printable ASCII character. -/
def isPrintable (c : Char) : Bool := 0x20 ≤ c.toNat && c.toNat ≤ 0x7e

/-- The escaped form of one character. -/
def escape (c : Char) : String :=
  if c = '\t' then "\\t"
  else if c = '\r' then "\\r"
  else if c = '\n' then "\\n"
  else if c = '\'' then "\\'"
  else if c = '"' then "\\\""
  else if c = '\\' then "\\\\"
  else if isPrintable c then c.toString
  else escapeCodePoint c

end Packrat.Text
