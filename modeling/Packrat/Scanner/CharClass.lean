/-
  Packrat.Scanner.CharClass

  What the scanner makes of one character.
-/

import Packrat.Token.Kind

namespace Packrat

/-- The role of a character in the list language. -/
inductive CharClass where
  /-- Separates tokens and means nothing. -/
  | blank
  /-- Part of a name. -/
  | letter
  /-- A token of its own. -/
  | mark (kind : Kind)
  /-- Starts no token. -/
  | invalid
deriving DecidableEq, Repr

/-- The role of `c`: names are made of ASCII letters, blanks are space, tab, carriage return
    and line feed. -/
def CharClass.of (c : Char) : CharClass :=
  if c.isAlpha then .letter
  else if c = ',' then .mark .comma
  else if c = '[' then .mark .lbracket
  else if c = ']' then .mark .rbracket
  else if c = '=' then .mark .equals
  else if c = ' ' ∨ c = '\t' ∨ c = '\r' ∨ c = '\n' then .blank
  else .invalid

end Packrat
