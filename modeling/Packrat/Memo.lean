/-
  Packrat.Memo

  The memo: what became of a rule at a position.  An outcome records whether
  the rule matched, where it stopped and the furthest mismatch met on the way.
  Positions are positions of the lookahead buffer, so the memo is emptied
  together with the buffer.
-/

import Packrat.Token.KindSet
import Std.Data.TreeMap

namespace Packrat

/-- The name of a memoized rule. -/
structure RuleId where
  name : String
deriving DecidableEq, Repr

/-- A place where a match failed, and the kinds that were expected there. -/
structure FailurePoint where
  /-- The input-wide number of the token. -/
  position : Nat
  expected : KindSet
deriving DecidableEq, Repr

/-- What became of a rule at a position. -/
inductive Outcome where
  /-- The rule matched up to position `stop`. -/
  | parsed (stop : Nat) (furthest : Option FailurePoint)
  /-- The rule did not match. -/
  | failed (furthest : Option FailurePoint)
deriving DecidableEq, Repr

/-- The furthest mismatch met on the way to an outcome. -/
def Outcome.furthest : Outcome → Option FailurePoint
  | parsed _ furthest => furthest
  | failed furthest => furthest

/-- The outcomes of one rule by position. -/
structure MemoTable where
  outcomes : Std.TreeMap Nat Outcome

namespace MemoTable

/-- No outcome at all. -/
def empty : MemoTable := ⟨∅⟩

/-- The outcome at a position. -/
def get? (t : MemoTable) (pos : Nat) : Option Outcome := t.outcomes[pos]?

/-- Keeps an outcome, in place of one that was kept for the position before. -/
def insert (t : MemoTable) (pos : Nat) (outcome : Outcome) : MemoTable :=
  ⟨t.outcomes.insert pos outcome⟩

/-- How many outcomes there are. -/
def size (t : MemoTable) : Nat := t.outcomes.size

/-- Whether there is no outcome. -/
def isEmpty (t : MemoTable) : Bool := t.outcomes.isEmpty

theorem get?_insert (t : MemoTable) (pos pos' : Nat) (outcome : Outcome) :
    (t.insert pos outcome).get? pos' = if pos = pos' then some outcome else t.get? pos' := by
  simp [insert, get?, Std.TreeMap.getElem?_insert]

end MemoTable

/-- Where an outcome belongs. -/
structure MemoKey where
  pos : Nat
  rule : RuleId
deriving DecidableEq, Repr

namespace MemoKey

/-- Keys go by position and then by the name of the rule. -/
instance : Ord MemoKey :=
  ⟨compareLex (compareOn MemoKey.pos) (compareOn fun key => key.rule.name)⟩

instance : Std.TransOrd MemoKey :=
  inferInstanceAs (Std.TransCmp
    (compareLex (compareOn MemoKey.pos) (compareOn fun key => key.rule.name)))

instance : Std.LawfulEqOrd MemoKey where
  compare_self := Std.ReflCmp.compare_self
  eq_of_compare {a b} h := by
    have hlex : (compare a.pos b.pos).then (compare a.rule.name b.rule.name) = .eq := h
    obtain ⟨hpos, hname⟩ := Ordering.then_eq_eq.1 hlex
    obtain ⟨pos, ⟨name⟩⟩ := a
    obtain ⟨pos', ⟨name'⟩⟩ := b
    obtain rfl : pos = pos' := Std.LawfulEqOrd.eq_of_compare hpos
    obtain rfl : name = name' := Std.LawfulEqOrd.eq_of_compare hname
    rfl

end MemoKey

/-- The outcomes of all rules. -/
structure Memo where
  /-- The outcomes by position and rule. -/
  outcomes : Std.TreeMap MemoKey Outcome
  /-- The rules that ever had an outcome recorded, each once. -/
  rules : List RuleId
  /-- How many lookups found an outcome. -/
  hits : Nat
  /-- How many lookups found none. -/
  misses : Nat

namespace Memo

/-- No outcome at all. -/
def empty : Memo := ⟨∅, [], 0, 0⟩

/-- The outcome of a rule at a position, without counting a lookup. -/
def get? (m : Memo) (rule : RuleId) (pos : Nat) : Option Outcome := m.outcomes[MemoKey.mk pos rule]?

/-- The outcome of a rule at a position, counted as a hit or a miss. -/
def lookup (m : Memo) (rule : RuleId) (pos : Nat) : Option Outcome × Memo :=
  match m.get? rule pos with
  | some outcome => (some outcome, { m with hits := m.hits + 1 })
  | none => (none, { m with misses := m.misses + 1 })

/-- Keeps an outcome, in place of one that was kept for the rule and position before. -/
def record (m : Memo) (rule : RuleId) (pos : Nat) (outcome : Outcome) : Memo :=
  { m with
    outcomes := m.outcomes.insert ⟨pos, rule⟩ outcome
    rules := m.rules.insert rule }

/-- Forgets every outcome, but not which rules had one. -/
def clear (m : Memo) : Memo := { m with outcomes := ∅ }

/-- How many outcomes there are. -/
def size (m : Memo) : Nat := m.outcomes.size

/-- Whether there is no outcome. -/
def isEmpty (m : Memo) : Bool := m.outcomes.isEmpty

/-- The outcomes of one rule, if it ever had one. -/
def table? (m : Memo) (rule : RuleId) : Option MemoTable :=
  if rule ∈ m.rules then
    some (m.outcomes.foldl (fun t key outcome =>
      if key.rule = rule then t.insert key.pos outcome else t) .empty)
  else none

/-! ## What each operation does to `get?` and `size` -/

@[simp] theorem get?_empty (rule : RuleId) (pos : Nat) : empty.get? rule pos = none := by
  simp [empty, get?]

theorem get?_record (m : Memo) (rule rule' : RuleId) (pos pos' : Nat) (outcome : Outcome) :
    (m.record rule pos outcome).get? rule' pos' =
      if rule = rule' ∧ pos = pos' then some outcome else m.get? rule' pos' := by
  simp [record, get?, Std.TreeMap.getElem?_insert, and_comm]

@[simp] theorem get?_clear (m : Memo) (rule : RuleId) (pos : Nat) :
    m.clear.get? rule pos = none := by
  simp [clear, get?]

@[simp] theorem fst_lookup (m : Memo) (rule : RuleId) (pos : Nat) :
    (m.lookup rule pos).1 = m.get? rule pos := by
  unfold lookup
  split <;> simp [*]

@[simp] theorem get?_snd_lookup (m : Memo) (rule rule' : RuleId) (pos pos' : Nat) :
    (m.lookup rule pos).2.get? rule' pos' = m.get? rule' pos' := by
  unfold lookup
  split <;> rfl

theorem size_record (m : Memo) (rule : RuleId) (pos : Nat) (outcome : Outcome) :
    (m.record rule pos outcome).size =
      if (m.get? rule pos).isSome then m.size else m.size + 1 := by
  simp [record, size, get?, Std.TreeMap.size_insert]

end Memo
end Packrat
