/-
  Packrat.Mismatch

  The furthest mismatch of a recognition: the last token that any attempt
  tripped over, and every kind that some attempt expected there.  Of two
  mismatches the further one wins; at the same place their expectations add
  up and the token first recorded stays.
-/

import Packrat.Memo
import Packrat.Token

namespace Packrat

/-- A token that did not match, and what was expected in its place. -/
structure Mismatch where
  /-- The input-wide number of the token. -/
  position : Nat
  found : Token
  expected : KindSet
deriving DecidableEq, Repr

namespace Mismatch

/-- The mismatch without its token. -/
def point (m : Mismatch) : FailurePoint := ⟨m.position, m.expected⟩

/-- The furthest mismatch after `new`, where `old` was the furthest before. -/
def furthest (old : Option Mismatch) (new : Mismatch) : Mismatch :=
  match old with
  | none => new
  | some m =>
    if new.position < m.position then m
    else if new.position = m.position then { m with expected := m.expected.union new.expected }
    else new

@[simp] theorem furthest_none (new : Mismatch) : furthest none new = new := rfl

/-- The furthest mismatch is as far as the further of the two. -/
theorem position_furthest_some (old new : Mismatch) :
    (furthest (some old) new).position = max old.position new.position := by
  simp only [furthest]
  split
  · omega
  · split
    · show old.position = _
      omega
    · omega

end Mismatch
end Packrat
