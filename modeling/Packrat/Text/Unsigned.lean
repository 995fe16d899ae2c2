/-
  Packrat.Text.Unsigned

  Decimal numbers that a machine word holds: one or more ASCII digits, possibly after a
  single plus sign, and nothing else.
-/

import Packrat.Machine

namespace Packrat.Text

/-- The number that a list of digits spells, read after `value`; none at the first
    character that is no digit. -/
def digitsFrom? (value : Nat) : List Char → Option Nat
  | [] => some value
  | c :: cs => if c.isDigit then digitsFrom? (10 * value + (c.toNat - '0'.toNat)) cs else none

/-- The number that a nonempty list of digits spells. -/
def digits? : List Char → Option Nat
  | [] => none
  | cs => digitsFrom? 0 cs

/-- The number that a text spells. -/
def unsigned? (text : String) : Option Nat :=
  let digits := match text.toList with
    | '+' :: cs => digits? cs
    | cs => digits? cs
  digits.filter (· < Machine.wordLimit)

/-- The number that a text spells, if it is above zero. -/
def positive? (text : String) : Option Nat := (unsigned? text).filter (0 < ·)

end Packrat.Text
