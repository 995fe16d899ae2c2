/-
  Packrat.Text.Bytes

  Byte offsets into a text.  A text is a list of characters, each one to four
  bytes long; `splitAt?` cuts it at a byte offset and has no answer for an
  offset inside a character or past the end.
-/

namespace Packrat.Text

/-- How many bytes the characters take. -/
def byteLength : List Char → Nat
  | [] => 0
  | c :: cs => c.utf8Size + byteLength cs

/-- The characters before and after a byte offset. -/
def splitAt? : Nat → List Char → Option (List Char × List Char)
  | 0, cs => some ([], cs)
  | _ + 1, [] => none
  | n + 1, c :: cs =>
    if n + 1 < c.utf8Size then none
    else (splitAt? (n + 1 - c.utf8Size) cs).map fun (front, back) => (c :: front, back)

@[simp] theorem byteLength_nil : byteLength [] = 0 := rfl

@[simp] theorem byteLength_cons (c : Char) (cs : List Char) :
    byteLength (c :: cs) = c.utf8Size + byteLength cs := rfl

@[simp] theorem byteLength_append (cs ds : List Char) :
    byteLength (cs ++ ds) = byteLength cs + byteLength ds := by
  induction cs with
  | nil => simp
  | cons c cs ih => simp [ih, Nat.add_assoc]

theorem splitAt?_byteLength (cs ds : List Char) :
    splitAt? (byteLength cs) (cs ++ ds) = some (cs, ds) := by
  induction cs with
  | nil => simp [splitAt?]
  | cons c cs ih =>
      have hpos : 0 < c.utf8Size := c.utf8Size_pos
      obtain ⟨n, hn⟩ : ∃ n, c.utf8Size + byteLength cs = n + 1 :=
        ⟨c.utf8Size + byteLength cs - 1, by omega⟩
      have hge : ¬ n + 1 < c.utf8Size := by omega
      have hrest : n + 1 - c.utf8Size = byteLength cs := by omega
      rw [byteLength_cons, hn, List.cons_append, splitAt?, if_neg hge, hrest, ih]
      rfl

theorem splitAt?_eq_some {n : Nat} {cs front back : List Char}
    (h : splitAt? n cs = some (front, back)) : cs = front ++ back ∧ byteLength front = n := by
  fun_induction splitAt? n cs generalizing front back with
  | case1 cs =>
      simp only [Option.some.injEq, Prod.mk.injEq] at h
      obtain ⟨rfl, rfl⟩ := h
      simp
  | case2 => simp at h
  | case3 => simp at h
  | case4 n c cs hlt ih =>
      obtain ⟨⟨front', back'⟩, hsplit, heq⟩ := Option.map_eq_some_iff.1 h
      simp only [Prod.mk.injEq] at heq
      obtain ⟨rfl, rfl⟩ := heq
      obtain ⟨rfl, hlen⟩ := ih hsplit
      exact ⟨rfl, by rw [byteLength_cons, hlen]; omega⟩

end Packrat.Text
