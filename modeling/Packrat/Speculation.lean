/-
  Packrat.Speculation

  The stack of rollback marks.  Opening a speculation pushes the position of
  the cursor; abandoning or committing it pops that mark again.
-/

import Packrat.Fault

namespace Packrat

/-- The open rollback marks and how often each operation was called. -/
structure Speculation where
  /-- The open marks, the innermost first. -/
  marks : List Nat
  opens : Nat
  abandons : Nat
  commits : Nat
deriving DecidableEq, Repr

namespace Speculation

/-- Nothing open yet. -/
def empty : Speculation := ⟨[], 0, 0, 0⟩

/-- How many speculations are open. -/
def depth (s : Speculation) : Nat := s.marks.length

/-- Whether no speculation is open. -/
def isEmpty (s : Speculation) : Bool := s.marks.isEmpty

/-- The outermost open mark. -/
def oldest? (s : Speculation) : Option Nat := s.marks.getLast?

/-- Opens a speculation at `mark`. -/
def push (s : Speculation) (mark : Nat) : Speculation :=
  { s with marks := mark :: s.marks, opens := s.opens + 1 }

/-- Closes the innermost speculation to rewind to its mark. -/
def abandon (s : Speculation) : Except Fault (Nat × Speculation) :=
  match s.marks with
  | [] => .error (.unbalanced .abandon)
  | mark :: marks => .ok (mark, { s with marks, abandons := s.abandons + 1 })

/-- Closes the innermost speculation and keeps the cursor. -/
def commit (s : Speculation) : Except Fault (Nat × Speculation) :=
  match s.marks with
  | [] => .error (.unbalanced .commit)
  | mark :: marks => .ok (mark, { s with marks, commits := s.commits + 1 })

end Speculation
end Packrat
