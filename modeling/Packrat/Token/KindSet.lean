/-
  Packrat.Token.KindSet

  Sets of token kinds, one bit per kind.  `contains` is the view: every
  operation is described by what it does to membership, and two sets with the
  same members are equal (`ext`).
-/

import Packrat.Token.Kind

namespace Packrat

/-- A set of token kinds; bit `k.index` says whether `k` is a member. -/
structure KindSet where
  bits : BitVec 6
deriving DecidableEq, Repr

namespace KindSet

/-- No kind at all. -/
def empty : KindSet := ⟨0#6⟩

instance : EmptyCollection KindSet := ⟨empty⟩

instance : Inhabited KindSet := ⟨empty⟩

/-- Just one kind. -/
def single (k : Kind) : KindSet := ⟨BitVec.twoPow 6 k.index⟩

/-- The kinds of either set. -/
def union (s t : KindSet) : KindSet := ⟨s.bits ||| t.bits⟩

/-- The set with one kind more. -/
def insert (s : KindSet) (k : Kind) : KindSet := s.union (single k)

/-- The set of the listed kinds. -/
def ofList (ks : List Kind) : KindSet := ks.foldl insert empty

/-- Whether `k` is a member. -/
def contains (s : KindSet) (k : Kind) : Bool := s.bits.getLsbD k.index

/-- Whether there is no member. -/
def isEmpty (s : KindSet) : Bool := s.bits == 0#6

/-- The members, in the order of `Kind.all`. -/
def members (s : KindSet) : List Kind := Kind.all.filter s.contains

/-- How many members there are. -/
def count (s : KindSet) : Nat := s.members.length

/-- Phrases joined for a reader: nothing, `a`, `a or b`, `a, b, or c`. -/
def joinPhrases : List String → String
  | [] => "nothing"
  | [a] => a
  | [a, b] => a ++ " or " ++ b
  | phrases => ", ".intercalate phrases.dropLast ++ ", or " ++ phrases.getLastD ""

/-- The members as a reader is told what was expected. -/
def describe (s : KindSet) : String := joinPhrases (s.members.map Kind.phrase)

/-! ## Membership -/

@[simp] theorem contains_empty (k : Kind) : empty.contains k = false := by
  simp [empty, contains]

@[simp] theorem contains_single (j k : Kind) : (single j).contains k = decide (j = k) := by
  cases j <;> cases k <;> rfl

@[simp] theorem contains_union (s t : KindSet) (k : Kind) :
    (s.union t).contains k = (s.contains k || t.contains k) := by
  simp [union, contains]

@[simp] theorem contains_insert (s : KindSet) (j k : Kind) :
    (s.insert j).contains k = (s.contains k || decide (j = k)) := by
  simp [insert]

@[simp] theorem mem_members {s : KindSet} {k : Kind} : k ∈ s.members ↔ s.contains k = true := by
  simp [members]

theorem ext {s t : KindSet} (h : ∀ k, s.contains k = t.contains k) : s = t := by
  have hbits : s.bits = t.bits := by
    apply BitVec.eq_of_getLsbD_eq
    intro i hi
    match i, hi with
    | 0, _ => exact h .eof
    | 1, _ => exact h .name
    | 2, _ => exact h .comma
    | 3, _ => exact h .lbracket
    | 4, _ => exact h .rbracket
    | 5, _ => exact h .equals
  cases s
  cases t
  exact congrArg KindSet.mk hbits

theorem isEmpty_iff {s : KindSet} : s.isEmpty = true ↔ s = empty := by
  cases s
  simp [isEmpty, empty]

end KindSet
end Packrat
