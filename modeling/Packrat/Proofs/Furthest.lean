/-
  Packrat.Proofs.Furthest

  The algebra of furthest mismatches.  `Mismatch.join` adds one furthest
  mismatch to another; it is associative, and it commutes where both stand on
  one stream of tokens, because the token of a mismatch is then settled by its
  position.  What a run notes on the way is the join of single mismatches
  (`Mismatch.noted`), so it does not matter in which order or in how many pieces
  they are noted.
-/

import Packrat.Mismatch
import Packrat.Proofs.Stream

namespace Packrat

namespace KindSet

theorem union_comm (s t : KindSet) : s.union t = t.union s := by
  apply ext
  intro k
  simp [Bool.or_comm]

theorem union_assoc (s t u : KindSet) : (s.union t).union u = s.union (t.union u) := by
  apply ext
  intro k
  simp [Bool.or_assoc]

end KindSet

namespace Mismatch

/-- The furthest mismatch of two searches; what the first found stays where both are as far. -/
def join (old new : Option Mismatch) : Option Mismatch :=
  match new with
  | none => old
  | some m => some (furthest old m)

/-- The mismatch that token `i` of the stream is not of the kind. -/
def single (t : Nat → Token) (i : Nat) (kind : Kind) : Mismatch := ⟨i, t i, .single kind⟩

/-- The furthest of the mismatches of a stream at the listed places. -/
def noted (t : Nat → Token) (misses : List (Nat × Kind)) : Option Mismatch :=
  misses.foldl (fun m miss => join m (some (single t miss.1 miss.2))) none

/-- The token of the mismatch is the one that the stream has there. -/
def OnStream (t : Nat → Token) (a : Option Mismatch) : Prop :=
  ∀ m, a = some m → m.found = t m.position

-- ============================================================================
-- Laws of the join
-- ============================================================================

@[simp] theorem join_none (a : Option Mismatch) : join a none = a := rfl

@[simp] theorem none_join (a : Option Mismatch) : join none a = a := by
  cases a <;> rfl

theorem join_some_of_lt {m n : Mismatch} (h : m.position < n.position) :
    join (some m) (some n) = some n := by
  simp only [join, furthest]
  rw [if_neg (by omega), if_neg (by omega)]

theorem join_some_of_gt {m n : Mismatch} (h : n.position < m.position) :
    join (some m) (some n) = some m := by
  simp only [join, furthest]
  rw [if_pos h]

theorem join_some_of_eq {m n : Mismatch} (h : n.position = m.position) :
    join (some m) (some n) = some { m with expected := m.expected.union n.expected } := by
  simp only [join, furthest]
  rw [if_neg (by omega), if_pos h]

theorem join_assoc (a b c : Option Mismatch) : join (join a b) c = join a (join b c) := by
  match a, b, c with
  | none, b, c => simp
  | some a, none, c => simp
  | some a, some b, none => rfl
  | some a, some b, some c =>
      have hbc : (furthest (some b) c).position = max b.position c.position :=
        position_furthest_some b c
      rcases Nat.lt_trichotomy a.position b.position with h | h | h
      · rw [join_some_of_lt h]
        exact (join_some_of_lt (n := furthest (some b) c) (by omega)).symm
      · rw [join_some_of_eq h.symm]
        rcases Nat.lt_trichotomy b.position c.position with h' | h' | h'
        · rw [join_some_of_lt h', join_some_of_lt (by show a.position < _; omega)]
          exact (join_some_of_lt (by omega)).symm
        · rw [join_some_of_eq h'.symm, join_some_of_eq (by show c.position = a.position; omega),
            join_some_of_eq (by show b.position = a.position; omega), KindSet.union_assoc]
        · rw [join_some_of_gt h', join_some_of_eq h.symm]
          exact join_some_of_gt (by show _ < a.position; omega)
      · rw [join_some_of_gt h]
        by_cases h' : b.position < c.position
        · rw [join_some_of_lt h']
        · rw [join_some_of_gt (by omega)]
          exact (join_some_of_gt (n := furthest (some b) c) (by omega)).symm

/-- On one stream the order does not matter. -/
theorem join_comm {t : Nat → Token} {a b : Option Mismatch} (ha : OnStream t a)
    (hb : OnStream t b) : join a b = join b a := by
  cases a with
  | none => simp
  | some m =>
      cases b with
      | none => simp
      | some n =>
          rcases Nat.lt_trichotomy m.position n.position with h | h | h
          · rw [join_some_of_lt h, join_some_of_gt h]
          · rw [join_some_of_eq h.symm, join_some_of_eq h, KindSet.union_comm]
            have hfound : m.found = n.found := by rw [ha m rfl, hb n rfl, h]
            cases m
            cases n
            simp_all
          · rw [join_some_of_gt h, join_some_of_lt h]

theorem onStream_none (t : Nat → Token) : OnStream t none := fun _ h => nomatch h

theorem onStream_single (t : Nat → Token) (i : Nat) (kind : Kind) :
    OnStream t (some (single t i kind)) := by
  rintro m ⟨⟩
  rfl

theorem OnStream.join {t : Nat → Token} {a b : Option Mismatch} (ha : OnStream t a)
    (hb : OnStream t b) : OnStream t (join a b) := by
  cases b with
  | none => exact ha
  | some n =>
      cases a with
      | none => simpa using hb
      | some m =>
          rcases Nat.lt_trichotomy m.position n.position with h | h | h
          · rwa [join_some_of_lt h]
          · rw [join_some_of_eq h.symm]
            rintro _ ⟨⟩
            exact ha m rfl
          · rwa [join_some_of_gt h]

-- ============================================================================
-- What is noted on the way
-- ============================================================================

theorem foldl_join_eq (t : Nat → Token) (a : Option Mismatch) (misses : List (Nat × Kind)) :
    misses.foldl (fun m miss => join m (some (single t miss.1 miss.2))) a
      = join a (noted t misses) := by
  induction misses generalizing a with
  | nil => rfl
  | cons miss misses ih =>
      rw [noted, List.foldl_cons, List.foldl_cons, ih, ih, none_join, join_assoc]

/-- Notes add up. -/
theorem noted_append (t : Nat → Token) (xs ys : List (Nat × Kind)) :
    noted t (xs ++ ys) = join (noted t xs) (noted t ys) := by
  rw [noted, List.foldl_append, foldl_join_eq]
  rfl

theorem noted_cons (t : Nat → Token) (miss : Nat × Kind) (misses : List (Nat × Kind)) :
    noted t (miss :: misses) = join (some (single t miss.1 miss.2)) (noted t misses) :=
  noted_append t [miss] misses

theorem onStream_noted (t : Nat → Token) (misses : List (Nat × Kind)) :
    OnStream t (noted t misses) := by
  induction misses with
  | nil => exact onStream_none t
  | cons miss misses ih =>
      rw [noted_cons]
      exact (onStream_single t miss.1 miss.2).join ih

/-- The furthest mismatch stands at one of the noted places. -/
theorem position_noted_mem {t : Nat → Token} {misses : List (Nat × Kind)} {m : Mismatch}
    (h : noted t misses = some m) : ∃ kind, (m.position, kind) ∈ misses := by
  induction misses generalizing m with
  | nil => exact nomatch h
  | cons miss misses ih =>
      rw [noted_cons] at h
      cases hrest : noted t misses with
      | none =>
          rw [hrest, join_none, Option.some.injEq] at h
          exact ⟨miss.2, by simp [← h, single]⟩
      | some rest =>
          obtain ⟨kind, hkind⟩ := ih hrest
          rw [hrest] at h
          rcases Nat.lt_trichotomy miss.1 rest.position with hlt | heq | hgt
          · rw [join_some_of_lt hlt, Option.some.injEq] at h
            exact ⟨kind, by simp [← h, hkind]⟩
          · rw [join_some_of_eq heq.symm, Option.some.injEq] at h
            exact ⟨miss.2, by simp [← h, single]⟩
          · rw [join_some_of_gt hgt, Option.some.injEq] at h
            exact ⟨miss.2, by simp [← h, single]⟩

theorem noted_ne_none {t : Nat → Token} {misses : List (Nat × Kind)} (h : misses ≠ []) :
    noted t misses ≠ none := by
  cases misses with
  | nil => exact absurd rfl h
  | cons miss misses =>
      rw [noted_cons]
      cases noted t misses <;> simp [join]

/-- The furthest mismatch is as far as any that was noted. -/
theorem le_position_noted {t : Nat → Token} {misses : List (Nat × Kind)} {m : Mismatch}
    (h : noted t misses = some m) {miss : Nat × Kind} (hmem : miss ∈ misses) :
    miss.1 ≤ m.position := by
  induction misses generalizing m with
  | nil => cases hmem
  | cons first misses ih =>
      rw [noted_cons] at h
      cases hrest : noted t misses with
      | none =>
          obtain rfl : misses = [] := Classical.not_not.1 fun hne => noted_ne_none hne hrest
          rw [hrest, join_none, Option.some.injEq] at h
          rw [List.mem_singleton.1 hmem, ← h]
          exact Nat.le_refl _
      | some rest =>
          rw [hrest, join, Option.some.injEq] at h
          have hposition := position_furthest_some (single t first.1 first.2) rest
          rw [h] at hposition
          rw [hposition]
          rcases List.mem_cons.1 hmem with rfl | hmem
          · exact Nat.le_max_left _ _
          · exact Nat.le_trans (ih hrest hmem) (Nat.le_max_right _ _)

/-- The furthest mismatch expects the kinds that were noted at its place. -/
theorem contains_noted {t : Nat → Token} {misses : List (Nat × Kind)} {m : Mismatch}
    (h : noted t misses = some m) (kind : Kind) :
    m.expected.contains kind = true ↔ (m.position, kind) ∈ misses := by
  induction misses generalizing m with
  | nil => exact nomatch h
  | cons miss misses ih =>
      obtain ⟨i, expected⟩ := miss
      rw [noted_cons] at h
      cases hrest : noted t misses with
      | none =>
          obtain rfl : misses = [] := Classical.not_not.1 fun hne => noted_ne_none hne hrest
          rw [hrest, join_none, Option.some.injEq] at h
          simp [← h, single, eq_comm]
      | some rest =>
          have hmem := ih hrest
          rw [hrest] at h
          rcases Nat.lt_trichotomy i rest.position with hlt | heq | hgt
          · rw [join_some_of_lt hlt, Option.some.injEq] at h
            have hne : rest.position ≠ i := by omega
            rw [← h, hmem, List.mem_cons, Prod.mk.injEq]
            simp [hne]
          · rw [join_some_of_eq heq.symm, Option.some.injEq] at h
            rw [← h, List.mem_cons, Prod.mk.injEq]
            simp only [single, KindSet.contains_union, KindSet.contains_single, Bool.or_eq_true,
              decide_eq_true_eq, true_and]
            rw [hmem, ← heq, eq_comm]
          · rw [join_some_of_gt hgt, Option.some.injEq] at h
            have hnot : (i, kind) ∉ misses := by
              intro hin
              have := le_position_noted hrest hin
              omega
            simp [← h, single, hnot, eq_comm]

end Mismatch
end Packrat
