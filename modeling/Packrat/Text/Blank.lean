/-
  Packrat.Text.Blank

  The characters with the Unicode property White_Space, and texts without
  their leading and trailing ones.
-/

namespace Packrat.Text

/-- The ranges of code points with the property White_Space. -/
def blankRanges : List (Nat × Nat) :=
  [(0x9, 0xd), (0x20, 0x20), (0x85, 0x85), (0xa0, 0xa0), (0x1680, 0x1680), (0x2000, 0x200a),
   (0x2028, 0x2029), (0x202f, 0x202f), (0x205f, 0x205f), (0x3000, 0x3000)]

/-- Whether `c` has the property White_Space. -/
def isBlank (c : Char) : Bool :=
  blankRanges.any fun range => range.1 ≤ c.toNat && c.toNat ≤ range.2

/-- The text without its leading and trailing blanks. -/
def trim (text : String) : String :=
  String.ofList
    ((text.toList.dropWhile isBlank).reverse.dropWhile isBlank).reverse

/-- The text with its ASCII capitals lowered and everything else kept. -/
def lowered (text : String) : String := String.ofList (text.toList.map Char.toLower)

end Packrat.Text
