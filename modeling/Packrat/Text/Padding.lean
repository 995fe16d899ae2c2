/-
  Packrat.Text.Padding

  Runs of one character, and texts filled up to a width.  Widths count
  characters.
-/

namespace Packrat.Text

/-- A run of one character. -/
def repeated (n : Nat) (c : Char) : String := String.ofList (List.replicate n c)

/-- The text filled up with blanks on the right; a text that is wide enough stays. -/
def padRight (width : Nat) (text : String) : String :=
  text ++ repeated (width - text.length) ' '

@[simp] theorem length_repeated (n : Nat) (c : Char) : (repeated n c).length = n := by
  simp [repeated]

theorem length_padRight (width : Nat) (text : String) :
    (padRight width text).length = max width text.length := by
  simp [padRight]
  omega

end Packrat.Text
