/-
  Packrat.Proofs.ListReading

  Readings of the list grammar do what the outlook allows.

  Every rule of the grammar passes or fails by its outlook: ordered choice, the
  optional value and the loop over commas lose nothing, because the kind of the
  next token alone tells which way can go on.  Proven by induction on the
  tokens left before the end of the input; the fuel that a reading needs is
  bounded along the way, so a reading on that fuel ends.
-/

import Packrat.Proofs.PlainRules
import Packrat.Proofs.Verdict

namespace Packrat
namespace Ground

variable (G : Ground Nonterminal)

-- ============================================================================
-- The rules as passes
-- ============================================================================

/-- What the rule of a list does around its elements. -/
def bracketed (elements : Pass Bool) : Pass Bool := do
  if ← G.takeKind .lbracket then
    if ← elements then G.takeKind .rbracket else return false
  else return false

/-- An element and then `(',' element)*`. -/
def elementsOn (n d : Nat) : Pass Bool := do
  if ← G.read n d (.ref .element) then G.read n d (.trail .comma (.ref .element))
  else return false

variable {G}

theorem read_list (hG : G.grammar = ListGrammar.grammar) (n d : Nat) :
    G.read (n + 6) d (.ref .list) = Pass.rewind (if G.maxDepth ≤ d then do
        Pass.hit
        return false
      else G.bracketed (G.read (n + 1) (d + 1) (.ref .elements))) := by
  show G.read (n + 5) d (G.grammar .list) = _
  rw [hG]
  rfl

theorem read_elements (hG : G.grammar = ListGrammar.grammar) (n d : Nat) :
    G.read (n + 5) d (.ref .elements) = (G.elementsOn (n + 1) d).rewind.rewind := by
  show G.read (n + 4) d (G.grammar .elements) = _
  rw [hG]
  rfl

theorem read_element (hG : G.grammar = ListGrammar.grammar) (n d : Nat) :
    G.read (n + 8) d (.ref .element) = do
      if ← G.read (n + 6) d (.attempt ListGrammar.nameElement) then return true
      else if ← (G.read (n + 4) d (.ref .list)).rewind then return true else return false := by
  show G.read (n + 7) d (G.grammar .element) = _
  rw [hG]
  rfl

-- ============================================================================
-- Names
-- ============================================================================

theorem read_nameElement_of_ne {n d i : Nat} (h : (G.tokens i).kind ≠ .name) :
    ∃ seen, G.read (n + 6) d (.attempt ListGrammar.nameElement) i
      = ⟨.ok false, i, seen, [(i, .name)], []⟩ := by
  refine ⟨i + 1, ?_⟩
  simp [read, ListGrammar.nameElement, Rule.optional, Pass.rewind, Pass.bind_apply,
    Reading.andThen, Reading.append, Pass.pure_apply, takeKind_of_ne G h]

/-- A name alone. -/
theorem read_nameElement_of_name {n d i : Nat} (h : (G.tokens i).kind = .name)
    (h' : (G.tokens (i + 1)).kind ≠ .equals) :
    ∃ seen, G.read (n + 6) d (.attempt ListGrammar.nameElement) i
      = ⟨.ok true, i + 1, seen, [(i + 1, .equals)], []⟩ := by
  refine ⟨i + 2, ?_⟩
  simp [read, ListGrammar.nameElement, Rule.optional, Pass.rewind, Pass.bind_apply,
    Reading.andThen, Reading.append, Pass.pure_apply, takeKind_of_eq G h, takeKind_of_ne G h']

/-- A name and a value. -/
theorem read_nameElement_of_value {n d i : Nat} (h : (G.tokens i).kind = .name)
    (h' : (G.tokens (i + 1)).kind = .equals) (h'' : (G.tokens (i + 2)).kind = .name) :
    ∃ seen, G.read (n + 6) d (.attempt ListGrammar.nameElement) i
      = ⟨.ok true, i + 3, seen, [], []⟩ := by
  refine ⟨i + 3, ?_⟩
  simp [read, ListGrammar.nameElement, Rule.optional, Pass.rewind, Pass.bind_apply,
    Reading.andThen, Reading.append, Pass.pure_apply, takeKind_of_eq G h, takeKind_of_eq G h',
    takeKind_of_eq G h'']

/-- A name and an `=` that no value follows; the `=` is left behind. -/
theorem read_nameElement_of_equals {n d i : Nat} (h : (G.tokens i).kind = .name)
    (h' : (G.tokens (i + 1)).kind = .equals) (h'' : (G.tokens (i + 2)).kind ≠ .name) :
    ∃ seen, G.read (n + 6) d (.attempt ListGrammar.nameElement) i
      = ⟨.ok true, i + 1, seen, [(i + 2, .name)], []⟩ := by
  refine ⟨i + 3, ?_⟩
  simp [read, ListGrammar.nameElement, Rule.optional, Pass.rewind, Pass.bind_apply,
    Reading.andThen, Reading.append, Pass.pure_apply, takeKind_of_eq G h, takeKind_of_eq G h',
    takeKind_of_ne G h'']

-- ============================================================================
-- Lists
-- ============================================================================

/-- Behind an element, in the bracket that the outlook tells. -/
def Behind (outer : Nat) (entry : Entry) (q : Outlook) : Prop :=
  ∃ spot : Spot, spot.Full ∧ q = .inside spot outer entry

theorem Behind.step_rbracket {outer : Nat} {entry : Entry} {q : Outlook}
    (h : Behind outer entry q) : q.step .rbracket = some (.leave outer entry) := by
  obtain ⟨spot, hfull, rfl⟩ := h
  cases spot with
  | named => rfl
  | ended => rfl
  | element => exact hfull.elim
  | bound => exact hfull.elim

theorem Behind.step_comma {outer : Nat} {entry : Entry} {q : Outlook}
    (h : Behind outer entry q) : q.step .comma = some (.inside .element outer entry) := by
  obtain ⟨spot, hfull, rfl⟩ := h
  cases spot with
  | named => rfl
  | ended => rfl
  | element => exact hfull.elim
  | bound => exact hfull.elim

/-- Inside a bracket the reading passes behind an element, fails, or is doomed. -/
def Settles (G : Ground Nonterminal) (d i : Nat) (left : Kind → Prop) (r : Reading Bool) : Prop :=
  ∀ outer entry limit, limit + d = G.maxDepth + (outer + 1) →
    Verdict G.tokens limit (.inside .element outer entry) i left (Behind outer entry) r ∨
    Doomed G.tokens limit (.inside .element outer entry) i r

variable {q : Outlook} {outer limit d i : Nat} {entry : Entry} {before : List (Nat × Kind)}

/-- The closing bracket is all that is left to be tried behind the elements. -/
theorem verdict_bracketed {elements : Pass Bool} (hlimit : outer + 1 ≤ limit)
    (hopen : q.step .lbracket = some (.inside .element outer entry))
    (hbefore : ∀ miss ∈ before, miss.1 = i) (hkind : (G.tokens i).kind = .lbracket)
    (helements : Verdict G.tokens limit (.inside .element outer entry) (i + 1) (· = .rbracket)
        (Behind outer entry) (elements (i + 1)) ∨
      Doomed G.tokens limit (.inside .element outer entry) (i + 1) (elements (i + 1))) :
    Verdict G.tokens limit q i (fun _ => True) (· = .leave outer entry)
      ((G.bracketed elements i).behind before) := by
  have hpass : (G.bracketed elements i).behind before
      = (⟨.ok true, i + 1, i + 1, before, []⟩ : Reading Bool).append
        ((elements (i + 1)).andThen fun a => if a then G.takeKind .rbracket else pure false) := by
    rw [bracketed, Pass.bind_apply, takeKind_of_eq G hkind, Reading.andThen_of_ok rfl]
    rfl
  have hbracket : Reaches G.tokens limit q i (fun _ => True) (.inside .element outer entry)
      (i + 1) before := .token (by rw [hkind, hopen]) hlimit hbefore
  rw [hpass]
  refine .after hbracket rfl ?_
  rcases helements with hverdict | hdoomed
  · refine hverdict.thenKind ?_ (fun _ _ _ _ hleft => hleft) (by decide)
    intro q' htarget
    refine ⟨_, htarget.step_rbracket, ?_, rfl⟩
    rw [Outlook.level_leave]
    omega
  · exact hdoomed.thenKind (by decide)

/-- A list passes behind its closing bracket, or fails; `before` is what was noted in its place
    already. -/
theorem verdict_list_of_elements (hG : G.grammar = ListGrammar.grammar) {n : Nat}
    (hlimit : limit + d = G.maxDepth + outer)
    (hopen : q.step .lbracket = some (.inside .element outer entry))
    (hcan : (G.tokens i).kind ≠ .lbracket → q.step (G.tokens i).kind = none)
    (hbefore : ∀ miss ∈ before, miss.1 = i)
    (hnoted : ∀ kind, (i, kind) ∈ before ++ [(i, .lbracket)] ↔ q.step kind ≠ none)
    (helements : (G.tokens i).kind = .lbracket → d < G.maxDepth →
      Settles G (d + 1) (i + 1) (· = .rbracket)
        (G.read (n + 1) (d + 1) (.ref .elements) (i + 1))) :
    Verdict G.tokens limit q i (fun _ => True) (· = .leave outer entry)
      ((G.read (n + 6) d (.ref .list) i).behind before) := by
  have hstart : q.runWithin limit (word G.tokens i i) = some q := by
    rw [word_self]
    rfl
  have hother : ∃ kind, q.step kind ≠ none := ⟨.lbracket, by simp [hopen]⟩
  rw [read_list hG]
  refine .rewind_behind ?_
  by_cases hdeep : G.maxDepth ≤ d
  · -- The limit is hit, and an opening bracket here would indeed be one too many.
    rw [if_pos hdeep]
    refine .failed rfl ⟨Nat.le_refl i, q, hstart, ?_, hother, fun hnil => ?_⟩
    · apply Outlook.stepWithin_eq_none
      intro q' hstep
      by_cases hkind : (G.tokens i).kind = .lbracket
      · rw [hkind, hopen, Option.some.injEq] at hstep
        rw [← hstep, Outlook.level_inside]
        omega
      · rw [hcan hkind] at hstep
        cases hstep
    · cases hnil
  · rw [if_neg hdeep]
    by_cases hkind : (G.tokens i).kind = .lbracket
    · exact verdict_bracketed (by omega) hopen hbefore hkind
        (helements hkind (by omega) outer entry limit (by omega))
    · have hpass : G.bracketed (G.read (n + 1) (d + 1) (.ref .elements)) i
          = ⟨.ok false, i, i + 1, [(i, .lbracket)], []⟩ := by
        rw [bracketed, Pass.bind_apply, takeKind_of_ne G hkind, Reading.andThen_of_ok rfl]
        rfl
      rw [hpass]
      refine .failed rfl
        ⟨Nat.le_refl i, q, hstart, ?_, hother, fun _ => ⟨hcan hkind, ?_, hnoted, fun _ => ?_⟩⟩
      · apply Outlook.stepWithin_eq_none
        intro q' hstep
        rw [hcan hkind] at hstep
        cases hstep
      · intro miss hmem
        rcases List.mem_append.1 hmem with hmem | hmem
        · exact Nat.le_of_eq (hbefore miss hmem)
        · obtain rfl := List.mem_singleton.1 hmem
          exact Nat.le_refl i
      · have hlevel : (Outlook.inside .element outer entry).level = q.level + 1 :=
          Outlook.level_step hopen
        rw [Outlook.level_inside] at hlevel
        omega

-- ============================================================================
-- Elements
-- ============================================================================

theorem read_element_of_name (hG : G.grammar = ListGrammar.grammar) {n j seen : Nat}
    {misses : List (Nat × Kind)}
    (h : G.read (n + 6) d (.attempt ListGrammar.nameElement) i
      = ⟨.ok true, j, seen, misses, []⟩) :
    ∃ seen', G.read (n + 8) d (.ref .element) i = ⟨.ok true, j, seen', misses, []⟩ := by
  refine ⟨max seen 0, ?_⟩
  rw [read_element hG, Pass.bind_apply, h, Reading.andThen_of_ok rfl]
  simp [Reading.append, Pass.pure_apply]

/-- An element that starts with a name passes, or is doomed by an `=` without a value. -/
theorem settles_element_of_name (hG : G.grammar = ListGrammar.grammar) {n : Nat}
    (hd : d ≤ G.maxDepth) (hname : (G.tokens i).kind = .name) :
    Settles G d i (fun kind => kind = .rbracket ∨ kind = .comma)
      (G.read (n + 8) d (.ref .element) i) := by
  intro outer entry limit hlimit
  have hlevel : outer + 1 ≤ limit := by omega
  have hnamed : Reaches G.tokens limit (.inside .element outer entry) i (fun _ => True)
      (.inside .named outer entry) (i + 1) [] :=
    .token (by rw [hname]; rfl) hlevel (by simp)
  by_cases hequals : (G.tokens (i + 1)).kind = .equals
  · have hbound : Reaches G.tokens limit (.inside .named outer entry) (i + 1) (fun _ => True)
        (.inside .bound outer entry) (i + 2) [] :=
      .token (by rw [hequals]; rfl) hlevel (by simp)
    by_cases hvalue : (G.tokens (i + 2)).kind = .name
    · obtain ⟨seen, hread⟩ := read_nameElement_of_value (n := n) (d := d) hname hequals hvalue
      obtain ⟨seen', hread⟩ := read_element_of_name hG hread
      have hended : Reaches G.tokens limit (.inside .bound outer entry) (i + 2) (fun _ => True)
          (.inside .ended outer entry) (i + 3) [] :=
        .token (by rw [hvalue]; rfl) hlevel (by simp)
      rw [hread]
      refine .inl (.passed ⟨.ended, trivial, rfl⟩ rfl rfl
        (((hnamed.append hbound).append hended).weaken ?_))
      intro kind hcan
      cases kind <;> simp_all [Outlook.step]
    · obtain ⟨seen, hread⟩ := read_nameElement_of_equals (n := n) (d := d) hname hequals hvalue
      obtain ⟨seen', hread⟩ := read_element_of_name hG hread
      rw [hread]
      refine .inr ⟨rfl, hequals, i + 2, Nat.lt_succ_self _, ?_⟩
      have hcan : (Outlook.inside .bound outer entry).step .name ≠ none := by simp [Outlook.step]
      refine ((hnamed.append hbound).miss hvalue hcan (by decide)).halts ⟨.name, hcan⟩ ?_ []
      intro kind hcan
      cases kind <;> simp_all [Outlook.step]
  · obtain ⟨seen, hread⟩ := read_nameElement_of_name (n := n) (d := d) hname hequals
    obtain ⟨seen', hread⟩ := read_element_of_name hG hread
    rw [hread]
    refine .inl (.passed ⟨.named, trivial, rfl⟩ rfl rfl
      ((hnamed.miss hequals (by simp [Outlook.step]) (by decide)).weaken ?_))
    intro kind hcan
    cases kind <;> simp_all [Outlook.step]

/-- Any other element is a list, with a name noted in its place. -/
theorem settles_element_of_ne (hG : G.grammar = ListGrammar.grammar) {n : Nat}
    (hname : (G.tokens i).kind ≠ .name)
    (helements : (G.tokens i).kind = .lbracket → d < G.maxDepth →
      Settles G (d + 1) (i + 1) (· = .rbracket)
        (G.read (n + 1) (d + 1) (.ref .elements) (i + 1))) :
    Settles G d i (fun kind => kind = .rbracket ∨ kind = .comma)
      (G.read (n + 10) d (.ref .element) i) := by
  intro outer entry limit hlimit
  have hlist : Verdict G.tokens limit (.inside .element outer entry) i (fun _ => True)
      (· = .leave (outer + 1) entry)
      (((G.read (n + 6) d (.ref .list)).rewind i).behind [(i, .name)]) := by
    refine .rewind_behind (verdict_list_of_elements hG hlimit rfl ?_ (by simp) ?_ helements)
    · intro hkind
      cases hnext : (G.tokens i).kind <;> simp_all [Outlook.step]
    · intro kind
      cases kind <;> simp [Outlook.step]
  obtain ⟨seen, hread⟩ := read_nameElement_of_ne (n := n + 2) (d := d) hname
  rw [read_element hG (n + 2)]
  refine .inl (.either (by rw [hread]) (by rw [hread]) (by rw [hread]) ?_)
  rw [hread]
  apply hlist.imp
  rintro q' rfl
  refine ⟨⟨.ended, trivial, rfl⟩, fun kind hcan => ?_⟩
  cases kind <;> simp_all [Outlook.step, Outlook.leave]

-- ============================================================================
-- Elements in a row
-- ============================================================================

/-- What follows an element: a comma and more elements, or nothing. -/
def trailOn (G : Ground Nonterminal) (n d : Nat) : Pass Bool := do
  if ← G.atDelimiter .comma then
    if ← G.takeKind .comma then G.elementsOn n d else return false
  else return true

theorem trailOn_of_eq {n : Nat} (h : (G.tokens i).kind = .comma) :
    G.trailOn n d i = (⟨.ok true, i + 1, i + 1, [], []⟩ : Reading Bool).append
      (G.elementsOn n d (i + 1)) := by
  rw [trailOn, Pass.bind_apply, atDelimiter_of_eq G h, Reading.andThen_of_ok rfl, if_pos rfl,
    Pass.bind_apply, takeKind_of_eq G h, Reading.andThen_of_ok rfl, if_pos rfl]
  simp only [Reading.append, List.nil_append]
  rw [← Nat.max_assoc, Nat.max_self]

theorem trailOn_of_ne {n : Nat} (h : (G.tokens i).kind ≠ .comma) :
    G.trailOn n d i = ⟨.ok true, i, i + 1, [(i, .comma)], []⟩ := by
  rw [trailOn, Pass.bind_apply, atDelimiter_of_ne G h, Reading.andThen_of_ok rfl]
  rfl

theorem elementsOn_succ (n d : Nat) :
    G.elementsOn (n + 1) d = do
      if ← G.read (n + 1) d (.ref .element) then G.trailOn n d else return false := rfl

/-- Where a comma follows, it is taken, and the rest of the elements decides. -/
theorem settles_elementsOn_succ {n : Nat} (hd : d ≤ G.maxDepth)
    (helement : Settles G d i (fun kind => kind = .rbracket ∨ kind = .comma)
      (G.read (n + 1) d (.ref .element) i))
    (hrest : ∀ j, i < j → (G.tokens j).kind = .comma →
      Settles G d (j + 1) (· = .rbracket) (G.elementsOn n d (j + 1))) :
    Settles G d i (· = .rbracket) (G.elementsOn (n + 1) d i) := by
  intro outer entry limit hlimit
  rw [elementsOn_succ, Pass.bind_apply]
  have hsettles := helement outer entry limit hlimit
  generalize G.read (n + 1) d (.ref .element) i = r at hsettles
  rcases hsettles with (⟨htarget, hresult, hhits, hreaches⟩ | ⟨hresult, hhalts⟩) | hdoomed
  · rw [Reading.andThen_of_ok hresult, if_pos rfl]
    by_cases hnext : (G.tokens r.stop).kind = .comma
    · have htoken : Reaches G.tokens limit _ r.stop (fun _ => True)
          (.inside .element outer entry) (r.stop + 1) [] :=
        .token (by rw [hnext, htarget.step_comma]) (by rw [Outlook.level_inside]; omega)
          (by simp)
      rw [trailOn_of_eq hnext]
      rcases hrest r.stop hreaches.lt hnext outer entry limit hlimit with hverdict | hdoomed
      · exact .inl (.after hreaches hhits (.after htoken rfl hverdict))
      · exact .inr (.after hreaches hhits (.after htoken rfl hdoomed))
    · rw [trailOn_of_ne hnext]
      refine .inl (.passed htarget rfl ?_
        ((hreaches.miss hnext (by rw [htarget.step_comma]; simp) (by decide)).weaken ?_))
      · simp [Reading.append, hhits]
      · intro kind _
        cases kind <;> simp
  · rw [Reading.andThen_of_ok hresult]
    exact .inl (.failed_append hhalts rfl (by simp [Pass.pure_apply]))
  · have hnext : (G.tokens r.stop).kind ≠ .comma := by
      rw [hdoomed.equals]
      decide
    obtain ⟨m, hlt, hhalts⟩ := hdoomed.halts
    rw [Reading.andThen_of_ok hdoomed.result, if_pos rfl, trailOn_of_ne hnext]
    exact .inr ⟨rfl, hdoomed.equals, m, hlt, hhalts.append (by simpa using hlt) _⟩

/-- On enough fuel the elements inside a bracket settle. -/
theorem settles_elementsOn (hG : G.grammar = ListGrammar.grammar) {bound : Nat}
    (hend : TokenSource.EndsBy G.tokens bound) {n d i : Nat} (hd : d ≤ G.maxDepth)
    (hfuel : 16 * (bound - i) + 10 ≤ n) :
    Settles G d i (· = .rbracket) (G.elementsOn n d i) := by
  -- Induction on the tokens left; both an opening bracket and a comma take one.
  generalize hc : bound - i = c at hfuel
  induction c using Nat.strongRecOn generalizing n d i with
  | ind c ih =>
      obtain ⟨n, rfl⟩ : ∃ k, n = k + 10 := ⟨n - 10, by omega⟩
      refine settles_elementsOn_succ hd ?_ ?_
      · by_cases hname : (G.tokens i).kind = .name
        · exact settles_element_of_name hG hd hname
        · refine settles_element_of_ne hG hname fun hkind hdepth => ?_
          have hi : i < bound := hend.lt (by rw [hkind]; decide)
          obtain ⟨k, rfl⟩ : ∃ k, n = k + 4 := ⟨n - 4, by omega⟩
          rw [read_elements hG]
          intro outer entry limit hlimit
          have hsettles := ih (c - 1) (by omega) (n := k + 1) (i := i + 1) hdepth (by omega)
            (by omega) outer entry limit hlimit
          exact hsettles.imp (fun h => h.rewind.rewind) fun h => h.rewind.rewind
      · intro j hj hcomma
        have hlt : j < bound := hend.lt (by rw [hcomma]; decide)
        exact ih (bound - (j + 1)) (by omega) hd rfl (by omega)

end Ground
end Packrat
