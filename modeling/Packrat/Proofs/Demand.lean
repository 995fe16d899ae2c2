/-
  Packrat.Proofs.Demand

  A parse pulls exactly the tokens that it needs.

  Whatever a reading of the list grammar looks at is awaited (`Awaited`): the
  tokens before it lead to an outlook at which something can come.  That is
  shown by the same induction on the tokens left that gives the verdicts, which
  tell where a reading stops or halts.  Nothing is awaited behind the end of a
  sentence or behind the place of an error; and up to there a reading has to
  look, to take the tokens or to note what should have come.
-/

import Packrat.Proofs.DepthLimit
import Packrat.Proofs.Retries

namespace Packrat

variable {t : Nat → Token} {limit i j m x : Nat} {q q' : Outlook} {left : Kind → Prop}
variable {misses : List (Nat × Kind)} {hits : List Nat} {α β : Type}

-- ============================================================================
-- Places where something can come
-- ============================================================================

/-- The tokens from `i` to `x` lead to an outlook at which something can come. -/
structure Awaited (t : Nat → Token) (limit : Nat) (q : Outlook) (i x : Nat) : Prop where
  le : i ≤ x
  run : ∃ q', q.runWithin limit (word t i x) = some q' ∧ ∃ kind, q'.step kind ≠ none

theorem Awaited.here {kind : Kind} (hcan : q.step kind ≠ none) : Awaited t limit q i i := by
  refine ⟨Nat.le_refl i, q, ?_, kind, hcan⟩
  rw [word_self]
  rfl

/-- On the way to another outlook something can come everywhere. -/
theorem Awaited.of_run (hrun : q.runWithin limit (word t i j) = some q') (hle : i ≤ x)
    (hlt : x < j) : Awaited t limit q i x := by
  rw [← word_append t hle (Nat.le_of_lt hlt), Outlook.runWithin_append] at hrun
  obtain ⟨q₁, hfront, hrest⟩ := Option.bind_eq_some_iff.1 hrun
  rw [word_cons t hlt, Outlook.runWithin] at hrest
  obtain ⟨q₂, hstep, -⟩ := Option.bind_eq_some_iff.1 hrest
  refine ⟨hle, q₁, hfront, (t x).kind, ?_⟩
  rw [(Outlook.stepWithin_eq_some_iff.1 hstep).1]
  exact Option.some_ne_none q₂

theorem Reaches.append_awaited (hreaches : Reaches t limit q i left q' j misses)
    (h : Awaited t limit q' j x) : Awaited t limit q i x := by
  have hle := Nat.le_of_lt hreaches.lt
  obtain ⟨q'', hrun, hcan⟩ := h.run
  refine ⟨Nat.le_trans hle h.le, q'', ?_, hcan⟩
  rw [← word_append t hle h.le, Outlook.runWithin_append, hreaches.run, Option.bind_some, hrun]

theorem Reaches.awaited_stop (hreaches : Reaches t limit q i left q' j misses) {kind : Kind}
    (hcan : q'.step kind ≠ none) : Awaited t limit q i j :=
  hreaches.append_awaited (.here hcan)

theorem Halts.awaited (h : Halts t limit q i m misses hits) (hle : i ≤ x) (hm : x ≤ m) :
    Awaited t limit q i x := by
  obtain ⟨q', hrun, -, hcan, -⟩ := h.run
  rcases Nat.lt_or_eq_of_le hm with hlt | rfl
  · exact .of_run hrun hle hlt
  · exact ⟨hle, q', hrun, hcan⟩

/-- Nothing is awaited behind the place where an outlook halts. -/
theorem Halts.le_of_awaited (h : Halts t limit q i m misses hits) (hx : Awaited t limit q i x) :
    x ≤ m := by
  obtain ⟨q', hrun, hstep, -⟩ := h.run
  obtain ⟨q'', hrun', -⟩ := hx.run
  refine Nat.le_of_not_lt fun hlt => ?_
  rw [← word_append t h.le (by omega : m ≤ x), Outlook.runWithin_append, hrun, Option.bind_some,
    word_cons t (by omega), Outlook.runWithin, hstep] at hrun'
  cases hrun'

theorem Outlook.exists_step_closed (entry : Entry) :
    ∃ kind, (Outlook.closed entry).step kind ≠ none := by
  cases entry with
  | stat => exact ⟨.eof, by simp [step]⟩
  | list => exact ⟨.eof, by simp [step]⟩
  | assign => exact ⟨.equals, by simp [step]⟩

-- ============================================================================
-- Readings that look where something can come
-- ============================================================================

/-- Every token from `j` on that the reading looked at is awaited. -/
def Reading.Attends (r : Reading α) (t : Nat → Token) (limit : Nat) (q : Outlook) (i j : Nat) :
    Prop :=
  ∀ x, j ≤ x → x < r.seen → Awaited t limit q i x

theorem Reaches.attends (hreaches : Reaches t limit q i left q' j misses) {r : Reading α} {k : Nat}
    (h : r.Attends t limit q' j k) : r.Attends t limit q i k :=
  fun x hle hlt => hreaches.append_awaited (h x hle hlt)

namespace Reading.Attends

variable {r : Reading α}

/-- A reading that looks at nothing. -/
theorem of_seen_eq (h : r.seen = 0) : r.Attends t limit q i j := by
  intro x _ hlt
  rw [h] at hlt
  exact absurd hlt (Nat.not_lt_zero x)

/-- A reading that looks at one token. -/
theorem of_seen_succ (h : r.seen = j + 1) (hj : Awaited t limit q i j) :
    r.Attends t limit q i j := by
  intro x hle hlt
  obtain rfl : x = j := by omega
  exact hj

theorem append {r' : Reading β} (hwithin : r.Within j) (h : r.Attends t limit q i j)
    (h' : r'.Attends t limit q i r.stop) : (r.append r').Attends t limit q i j := by
  intro x hle hlt
  have hstop := hwithin.stop_le
  by_cases hseen : x < r.seen
  · exact h x hle hseen
  · have hlt' : x < max r.seen r'.seen := hlt
    exact h' x (by omega) (by omega)

theorem andThen {f : α → Pass β} (hwithin : r.Within j) (h : r.Attends t limit q i j)
    (hf : ∀ a, r.result = .ok a → (f a r.stop).Attends t limit q i r.stop) :
    (r.andThen f).Attends t limit q i j := by
  cases hresult : r.result with
  | ok a =>
      rw [Reading.andThen_of_ok hresult]
      exact append hwithin h (hf a hresult)
  | error fault =>
      rw [Reading.andThen_of_error hresult]
      exact h

theorem rewind {p : Pass Bool} (h : (p i).Attends t limit q m j) :
    (p.rewind i).Attends t limit q m j := by
  have hseen : (p.rewind i).seen = (p i).seen := by
    simp only [Pass.rewind]
    split <;> rfl
  intro x hle hlt
  rw [hseen] at hlt
  exact h x hle hlt

/-- What goes on only after a yes. -/
theorem andThen_cond {r : Reading Bool} {p : Pass Bool} (hwithin : r.Within j)
    (h : r.Attends t limit q i j)
    (hp : r.result = .ok true → (p r.stop).Attends t limit q i r.stop) :
    (r.andThen fun a => if a then p else pure false).Attends t limit q i j := by
  refine andThen hwithin h fun a hresult => ?_
  cases a with
  | true => exact hp hresult
  | false => exact of_seen_eq rfl

end Reading.Attends

/-- A yes comes of two yeses. -/
theorem Reading.andThen_cond_of_true {r : Reading Bool} {p : Pass Bool}
    (h : (r.andThen fun a => if a then p else pure false).result = .ok true) :
    r.result = .ok true ∧ (p r.stop).result = .ok true ∧
      (r.andThen fun a => if a then p else pure false).stop = (p r.stop).stop := by
  cases hresult : r.result with
  | error fault =>
      rw [andThen_of_error hresult] at h
      cases h
  | ok a =>
      rw [andThen_of_ok hresult] at h ⊢
      cases a with
      | true => exact ⟨rfl, h, rfl⟩
      | false => cases h

/-- Nothing is rewound after a yes. -/
theorem Pass.rewind_of_true {p : Pass Bool} (h : (p.rewind i).result = .ok true) :
    p.rewind i = p i := by
  simp only [rewind] at h ⊢
  split
  · next hfalse =>
      rw [hfalse] at h
      cases h
  · rfl

/-- To answer what a pass answers is to run the pass. -/
theorem Pass.answer_eq (p : Pass Bool) :
    (do if ← p then return true else return false : Pass Bool) = p := by
  funext i
  rw [Pass.bind_apply]
  obtain ⟨result, stop, seen, misses, hits⟩ := p i
  cases result with
  | error fault => rfl
  | ok a => cases a <;> simp [Reading.andThen, Reading.append, Pass.pure_apply]

namespace Ground

variable {G : Ground Nonterminal} {bound n d outer : Nat} {entry : Entry} {kind : Kind}

theorem attends_takeKind (h : Awaited G.tokens limit q i j) :
    (G.takeKind kind j).Attends G.tokens limit q i j := by
  by_cases hkind : (G.tokens j).kind = kind
  · rw [G.takeKind_of_eq hkind]
    exact .of_seen_succ rfl h
  · rw [G.takeKind_of_ne hkind]
    exact .of_seen_succ rfl h

/-- Something can come behind an element, whether or not it is doomed. -/
theorem Settles.awaited_stop {r : Reading Bool} (h : Settles G d i left r)
    (hlimit : limit + d = G.maxDepth + (outer + 1)) (hresult : r.result = .ok true)
    (hle : i ≤ r.stop) :
    Awaited G.tokens limit (.inside .element outer entry) i r.stop := by
  rcases h outer entry limit hlimit with hverdict | hdoomed
  · cases hverdict with
    | failed hfail => cases hresult.symm.trans hfail
    | passed htarget _ _ hreaches =>
        exact hreaches.awaited_stop (by rw [htarget.step_rbracket]; exact Option.some_ne_none _)
  · obtain ⟨m, hlt, hhalts⟩ := hdoomed.halts
    exact hhalts.awaited hle (Nat.le_of_lt hlt)

-- ============================================================================
-- Lists and elements
-- ============================================================================

theorem attends_list_of_elements (hG : G.grammar = ListGrammar.grammar)
    (hlimit : limit + d = G.maxDepth + outer)
    (hopen : q.step .lbracket = some (.inside .element outer entry))
    (helements : (G.tokens i).kind = .lbracket → d < G.maxDepth →
      (G.read (n + 1) (d + 1) (.ref .elements) (i + 1)).Attends G.tokens limit
          (.inside .element outer entry) (i + 1) (i + 1) ∧
        Settles G (d + 1) (i + 1) (· = .rbracket)
          (G.read (n + 1) (d + 1) (.ref .elements) (i + 1))) :
    (G.read (n + 6) d (.ref .list) i).Attends G.tokens limit q i i := by
  have hcan : q.step .lbracket ≠ none := by simp [hopen]
  rw [read_list hG]
  apply Reading.Attends.rewind
  by_cases hdeep : G.maxDepth ≤ d
  · rw [if_pos hdeep]
    exact .of_seen_eq rfl
  · rw [if_neg hdeep, bracketed, Pass.bind_apply]
    refine .andThen_cond (G.within_takeKind _ i) (attends_takeKind (.here hcan)) fun hresult => ?_
    by_cases hkind : (G.tokens i).kind = .lbracket
    · obtain ⟨hattends, hsettles⟩ := helements hkind (by omega)
      have hbracket : Reaches G.tokens limit q i (fun _ => True) (.inside .element outer entry)
          (i + 1) [] :=
        .token (by rw [hkind, hopen]) (by rw [Outlook.level_inside]; omega) (by simp)
      have hwithin := G.within_read (n + 1) (d + 1) (.ref .elements) (i + 1)
      rw [G.takeKind_of_eq hkind, Pass.bind_apply]
      refine .andThen_cond hwithin (hbracket.attends hattends) fun hresult => ?_
      exact attends_takeKind (hbracket.append_awaited
        (hsettles.awaited_stop (by omega) hresult hwithin.le_stop))
    · rw [G.takeKind_of_ne hkind] at hresult
      cases hresult

/-- What follows a name. -/
def valueOn (G : Ground Nonterminal) : Pass Bool := do
  if ← G.takeKind .equals then G.takeKind .name else return false

theorem read_nameElement (n d : Nat) :
    G.read (n + 6) d (.attempt ListGrammar.nameElement) = Pass.rewind (do
      if ← G.takeKind .name then
        if ← G.valueOn.rewind then return true else return true
      else return false) := rfl

/-- An `=` and a value are looked for behind a name only. -/
theorem attends_nameElement (hlevel : outer + 1 ≤ limit) :
    (G.read (n + 6) d (.attempt ListGrammar.nameElement) i).Attends G.tokens limit
      (.inside .element outer entry) i i := by
  have hname : (Outlook.inside .element outer entry).step .name ≠ none := Option.some_ne_none _
  have hequals : (Outlook.inside .named outer entry).step .equals ≠ none := Option.some_ne_none _
  have hvalue : (Outlook.inside .bound outer entry).step .name ≠ none := Option.some_ne_none _
  rw [read_nameElement]
  apply Reading.Attends.rewind
  rw [Pass.bind_apply]
  refine .andThen_cond (G.within_takeKind .name i) (attends_takeKind (.here hname))
    fun hresult => ?_
  by_cases hkind : (G.tokens i).kind = .name
  · have hnamed : Reaches G.tokens limit (.inside .element outer entry) i (fun _ => True)
        (.inside .named outer entry) (i + 1) [] :=
      .token (by rw [hkind]; rfl) hlevel (by simp)
    have hclause : (G.valueOn (i + 1)).Attends G.tokens limit (.inside .element outer entry) i
        (i + 1) := by
      rw [valueOn, Pass.bind_apply]
      refine .andThen_cond (G.within_takeKind .equals _)
        (attends_takeKind (hnamed.awaited_stop hequals)) fun hresult' => ?_
      by_cases hkind' : (G.tokens (i + 1)).kind = .equals
      · have hbound : Reaches G.tokens limit (.inside .named outer entry) (i + 1) (fun _ => True)
            (.inside .bound outer entry) (i + 2) [] :=
          .token (by rw [hkind']; rfl) hlevel (by simp)
        rw [G.takeKind_of_eq hkind']
        exact attends_takeKind (hnamed.append_awaited (hbound.awaited_stop hvalue))
      · rw [G.takeKind_of_ne hkind'] at hresult'
        cases hresult'
    have hwithin : (G.valueOn (i + 1)).Within (i + 1) :=
      G.within_read 2 d (.both (.token .equals) (.token .name)) (i + 1)
    rw [G.takeKind_of_eq hkind, Pass.bind_apply]
    refine .andThen hwithin.rewind hclause.rewind fun a _ => ?_
    cases a with
    | true => exact .of_seen_eq rfl
    | false => exact .of_seen_eq rfl
  · rw [G.takeKind_of_ne hkind] at hresult
    cases hresult

/-- An element is tried as a name first and then as a list. -/
theorem attends_element (hG : G.grammar = ListGrammar.grammar) (hlevel : outer + 1 ≤ limit)
    (hlist : (G.read (n + 4) d (.ref .list) i).Attends G.tokens limit
      (.inside .element outer entry) i i) :
    (G.read (n + 8) d (.ref .element) i).Attends G.tokens limit
      (.inside .element outer entry) i i := by
  rw [read_element hG, Pass.bind_apply]
  refine .andThen (G.within_read _ _ _ i) (attends_nameElement hlevel) fun a hresult => ?_
  cases a with
  | true => exact .of_seen_eq rfl
  | false =>
      rw [show (G.read (n + 6) d (.attempt ListGrammar.nameElement) i).stop = i from
        Pass.stop_rewind_of_false hresult, if_neg Bool.false_ne_true, Pass.answer_eq]
      exact hlist.rewind

/-- The elements inside a bracket look for a comma or the bracket behind each of them. -/
theorem attends_elementsOn (hG : G.grammar = ListGrammar.grammar)
    (hend : TokenSource.EndsBy G.tokens bound) {n d i outer : Nat} (hd : d ≤ G.maxDepth)
    (hfuel : 16 * (bound - i) + 10 ≤ n) (hlimit : limit + d = G.maxDepth + (outer + 1)) :
    (G.elementsOn n d i).Attends G.tokens limit (.inside .element outer entry) i i := by
  -- Induction on the tokens left; both an opening bracket and a comma take one.
  generalize hc : bound - i = c at hfuel
  induction c using Nat.strongRecOn generalizing n d i outer with
  | ind c ih =>
      obtain ⟨n, rfl⟩ : ∃ k, n = k + 10 := ⟨n - 10, by omega⟩
      have hlevel : outer + 1 ≤ limit := by omega
      have hopen : (Outlook.inside .element outer entry).step .lbracket
          = some (.inside .element (outer + 1) entry) := rfl
      have hlist : (G.read (n + 6) d (.ref .list) i).Attends G.tokens limit
          (.inside .element outer entry) i i := by
        refine attends_list_of_elements hG hlimit hopen fun hkind hdepth => ?_
        have hi : i < bound := hend.lt (by rw [hkind]; decide)
        obtain ⟨k, rfl⟩ : ∃ k, n = k + 4 := ⟨n - 4, by omega⟩
        refine ⟨?_, settles_elements hG hend hdepth (by omega)⟩
        rw [read_elements hG]
        exact (ih (c - 1) (by omega) hdepth (by omega) (by omega) (by omega)).rewind.rewind
      have hsettles : Settles G d i _ (G.read (n + 10) d (.ref .element) i) :=
        settles_element hG hend hd (by omega)
      have hwithin := G.within_read (n + 10) d (.ref .element) i
      have helement : (G.read (n + 10) d (.ref .element) i).Attends G.tokens limit
          (.inside .element outer entry) i i := attends_element (n := n + 2) hG hlevel hlist
      rw [elementsOn_succ, Pass.bind_apply]
      generalize G.read (n + 10) d (.ref .element) i = r at hsettles hwithin helement
      refine .andThen_cond hwithin helement fun hresult => ?_
      have hstop : Awaited G.tokens limit (.inside .element outer entry) i r.stop :=
        hsettles.awaited_stop hlimit hresult hwithin.le_stop
      by_cases hnext : (G.tokens r.stop).kind = .comma
      · rw [trailOn_of_eq hnext]
        rcases hsettles outer entry limit hlimit with hverdict | hdoomed
        · cases hverdict with
          | failed hfail => cases hresult.symm.trans hfail
          | passed htarget _ _ hreaches =>
              have hcomma : Reaches G.tokens limit _ r.stop (fun _ => True)
                  (.inside .element outer entry) (r.stop + 1) [] :=
                .token (by rw [hnext, htarget.step_comma])
                  (by rw [Outlook.level_inside]; omega) (by simp)
              have hlt : i < r.stop := hreaches.lt
              have hbound : r.stop < bound := hend.lt (by rw [hnext]; decide)
              have hrest := ih (bound - (r.stop + 1)) (by omega) (n := n + 9) hd hlimit rfl
                (by omega)
              refine .append ?_ (.of_seen_succ rfl hstop)
                (hreaches.attends (hcomma.attends hrest))
              exact ⟨Nat.le_succ _, Nat.le_max_right _ _, by simp, by simp⟩
        · rw [hdoomed.equals] at hnext
          cases hnext
      · rw [trailOn_of_ne hnext]
        exact .of_seen_succ rfl hstop

-- ============================================================================
-- Entries
-- ============================================================================

/-- The first list of an entry. -/
theorem attends_list (hG : G.grammar = ListGrammar.grammar)
    (hend : TokenSource.EndsBy G.tokens bound) (hfuel : 16 * (bound - i) + 10 ≤ n)
    (entry : Entry) :
    (G.read n 0 (.ref .list) i).Attends G.tokens G.maxDepth (.opening entry) i i := by
  obtain ⟨n, rfl⟩ : ∃ k, n = k + 6 := ⟨n - 6, by omega⟩
  have hlimit : G.maxDepth + 0 = G.maxDepth + 0 := rfl
  have hopen : (Outlook.opening entry).step .lbracket = some (.inside .element 0 entry) := rfl
  refine attends_list_of_elements hG hlimit hopen fun hkind hdepth => ?_
  have hi : i < bound := hend.lt (by rw [hkind]; decide)
  refine ⟨?_, settles_elements hG hend hdepth (by omega)⟩
  obtain ⟨k, rfl⟩ : ∃ k, n = k + 4 := ⟨n - 4, by omega⟩
  rw [read_elements hG]
  exact (attends_elementsOn hG hend hdepth (by omega) (by omega)).rewind.rewind

/-- Something can come behind the first list of an entry. -/
theorem reaches_list (hG : G.grammar = ListGrammar.grammar)
    (hend : TokenSource.EndsBy G.tokens bound) (hfuel : 16 * (bound - i) + 10 ≤ n)
    (entry : Entry) (hresult : (G.read n 0 (.ref .list) i).result = .ok true) :
    Reaches G.tokens G.maxDepth (.opening entry) i (fun _ => True) (.closed entry)
      (G.read n 0 (.ref .list) i).stop (G.read n 0 (.ref .list) i).misses := by
  cases verdict_list hG hend hfuel entry with
  | failed hfail => cases hresult.symm.trans hfail
  | passed htarget _ _ hreaches => exact htarget ▸ hreaches

/-- The end of the input is looked for where the entry can end. -/
theorem attends_thenEnd {name : Nonterminal}
    (hname : (G.read (n + 1) 0 (.ref name) i).Attends G.tokens G.maxDepth q i i)
    (hstop : (G.read (n + 1) 0 (.ref name) i).result = .ok true →
      Awaited G.tokens G.maxDepth q i (G.read (n + 1) 0 (.ref name) i).stop) :
    (G.read (n + 2) 0 (ListGrammar.thenEnd id name) i).Attends G.tokens G.maxDepth q i i := by
  rw [read_thenEnd, Pass.bind_apply]
  exact .andThen_cond (G.within_read _ _ _ i) hname fun hresult => attends_takeKind (hstop hresult)

/-- What an assignment comes to behind its first list. -/
theorem attends_assignTail (hG : G.grammar = ListGrammar.grammar)
    (hend : TokenSource.EndsBy G.tokens bound) (hfuel : 16 * (bound - (j + 1)) + 10 ≤ n)
    (hentry : entry ≠ .list) :
    (G.assignTail n j).Attends G.tokens G.maxDepth (.closed entry) j j ∧
      ((G.assignTail n j).result = .ok true →
        Awaited G.tokens G.maxDepth (.closed entry) j (G.assignTail n j).stop) := by
  have hequals : (Outlook.closed entry).step .equals = some (.opening .list) := by
    cases entry with
    | list => exact absurd rfl hentry
    | stat => rfl
    | assign => rfl
  have hcan : (Outlook.closed entry).step .equals ≠ none := by simp [hequals]
  by_cases hkind : (G.tokens j).kind = .equals
  · have hreaches : Reaches G.tokens G.maxDepth (.closed entry) j (fun _ => True) (.opening .list)
        (j + 1) [] :=
      .token (by rw [hkind, hequals]) (Nat.zero_le _) (by simp)
    have hread : G.assignTail n j = (⟨.ok true, j + 1, j + 1, [], []⟩ : Reading Bool).append
        (G.read n 0 (.ref .list) (j + 1)) := by
      rw [assignTail, Pass.bind_apply, G.takeKind_of_eq hkind, Pass.answer_eq]
      rfl
    obtain ⟨kind, hclosed⟩ := Outlook.exists_step_closed .list
    rw [hread]
    refine ⟨.append ⟨Nat.le_succ _, Nat.le_max_right _ _, by simp, by simp⟩ (.of_seen_succ rfl
      (.here hcan)) (hreaches.attends (attends_list hG hend hfuel .list)), fun hresult => ?_⟩
    exact hreaches.append_awaited ((reaches_list hG hend hfuel .list hresult).awaited_stop hclosed)
  · have hread : G.assignTail n j = ⟨.ok false, j, j + 1, [(j, .equals)], []⟩ := by
      rw [assignTail, Pass.bind_apply, G.takeKind_of_ne hkind]
      simp [Reading.andThen, Reading.append, Pass.pure_apply]
    rw [hread]
    exact ⟨.of_seen_succ rfl (.here hcan), by simp⟩

theorem attends_assign (hG : G.grammar = ListGrammar.grammar)
    (hend : TokenSource.EndsBy G.tokens bound) (hfuel : 16 * (bound - i) + 16 ≤ n)
    (hentry : entry ≠ .list) :
    (G.read n 0 (.ref .assign) i).Attends G.tokens G.maxDepth (.opening entry) i i ∧
      ((G.read n 0 (.ref .assign) i).result = .ok true →
        Awaited G.tokens G.maxDepth (.opening entry) i (G.read n 0 (.ref .assign) i).stop) := by
  obtain ⟨n, rfl⟩ : ∃ k, n = k + 8 := ⟨n - 8, by omega⟩
  have hwithin := G.within_read (n + 4) 0 (.ref .list) i
  have hlist := attends_list hG hend (n := n + 4) (i := i) (by omega) entry
  have hreaches := reaches_list hG hend (n := n + 4) (i := i) (by omega) entry
  rw [read_assign hG]
  generalize hr : G.read (n + 4) 0 (.ref .list) i = r at hwithin hlist hreaches
  have hle : i ≤ r.stop := hwithin.le_stop
  have htail := attends_assignTail hG hend (n := n + 2) (j := r.stop) (by omega) hentry
  refine ⟨?_, fun hresult => ?_⟩
  · apply Reading.Attends.rewind
    apply Reading.Attends.rewind
    rw [Pass.bind_apply, hr]
    exact .andThen_cond hwithin hlist fun hresult => (hreaches hresult).attends htail.1
  · have houter := Pass.rewind_of_true hresult
    rw [houter] at hresult ⊢
    have hinner := Pass.rewind_of_true hresult
    rw [hinner, Pass.bind_apply, hr] at hresult ⊢
    obtain ⟨hyes, hon, hstop⟩ := Reading.andThen_cond_of_true hresult
    rw [hstop]
    exact (hreaches hyes).append_awaited (htail.2 hon)

theorem attends_stat (hG : G.grammar = ListGrammar.grammar)
    (hend : TokenSource.EndsBy G.tokens bound) (hfuel : 16 * (bound - i) + 24 ≤ n) :
    (G.read n 0 (.ref .stat) i).Attends G.tokens G.maxDepth (.opening .stat) i i := by
  obtain ⟨n, rfl⟩ : ∃ k, n = k + 7 := ⟨n - 7, by omega⟩
  have hlist : (G.read (n + 3) 0 (ListGrammar.thenEnd id .list) i).Attends G.tokens G.maxDepth
      (.opening .stat) i i := by
    refine attends_thenEnd (attends_list hG hend (by omega) .stat) fun hresult => ?_
    obtain ⟨kind, hclosed⟩ := Outlook.exists_step_closed .stat
    exact (reaches_list hG hend (by omega) .stat hresult).awaited_stop hclosed
  obtain ⟨hassign, hstop⟩ := attends_assign hG hend (n := n + 1) (i := i) (by omega)
    (show Entry.stat ≠ .list by decide)
  rw [read_stat hG, eitherEnd]
  apply Reading.Attends.rewind
  rw [Pass.bind_apply]
  refine .andThen (.rewind (G.within_read _ _ _ i)) hlist.rewind fun a hresult => ?_
  cases a with
  | true => exact .of_seen_eq rfl
  | false =>
      rw [Pass.stop_rewind_of_false hresult, if_neg Bool.false_ne_true, Pass.answer_eq]
      exact (attends_thenEnd hassign hstop).rewind

/-- Whatever the reading of an entry looks at is awaited. -/
theorem attends_entry (hG : G.grammar = ListGrammar.grammar)
    (hend : TokenSource.EndsBy G.tokens bound) (hfuel : 16 * (bound - i) + 24 ≤ n)
    (entry : Entry) :
    (G.read n 0 entry.rule i).Attends G.tokens G.maxDepth (.opening entry) i i := by
  obtain ⟨n, rfl⟩ : ∃ k, n = k + 2 := ⟨n - 2, by omega⟩
  cases entry with
  | stat => exact attends_stat hG hend hfuel
  | list =>
      refine attends_thenEnd (attends_list hG hend (by omega) .list) fun hresult => ?_
      obtain ⟨kind, hclosed⟩ := Outlook.exists_step_closed .list
      exact (reaches_list hG hend (by omega) .list hresult).awaited_stop hclosed
  | assign =>
      obtain ⟨hassign, hstop⟩ := attends_assign hG hend (n := n + 1) (i := i) (by omega)
        (show Entry.assign ≠ .list by decide)
      exact attends_thenEnd hassign hstop

end Ground

-- ============================================================================
-- What a parse needs
-- ============================================================================

/-- How many tokens it takes to tell that the result is what it is: those of the match, or those
    up to the one that an error is about. -/
def needed : Except ParseError Match → Nat
  | .ok found => found.length
  | .error (.syntaxError err) => err.position + 1
  | .error (.nestingLimit _ position _) => position + 1
  | .error (.lexical _) => 0

/-- Invalid characters are no business of a recognition. -/
theorem Reading.recognition_ne_lexical (r : Reading Bool) {start : Nat} {err : InvalidCharacter} :
    r.recognition t limit start ≠ .error (.lexical err) := by
  intro h
  simp only [recognition] at h
  split at h
  · cases h
  · simp only [failure] at h
    split at h <;> cases h

/-- Nothing is awaited behind the end of a sentence. -/
theorem not_awaited_of_done (hrun : q.runWithin limit (word t i x) = some .done) :
    ¬Awaited t limit q i x := by
  rintro ⟨-, q', hrun', kind, hcan⟩
  obtain rfl : Outlook.done = q' := Option.some.inj (hrun.symm.trans hrun')
  exact hcan (Outlook.step_done kind)

variable {entry : Entry} {r : Reading Bool}

/-- A reading that passes looks at the sentence and at nothing else. -/
theorem Reading.Attends.seen_of_passed (hattends : r.Attends t limit (.opening entry) 0 0)
    (hwithin : r.Within 0)
    (hreaches : Reaches t limit (.opening entry) 0 left .done r.stop misses) :
    r.seen = r.stop := by
  refine Nat.le_antisymm (Nat.le_of_not_lt fun hlt => ?_) ?_
  · exact not_awaited_of_done hreaches.run (hattends r.stop (Nat.zero_le _) hlt)
  · have := hwithin.stop_le
    omega

/-- A reading looks at nothing behind the place where it halts. -/
theorem Reading.Attends.seen_le_of_halts (hattends : r.Attends t limit q i 0)
    (hhalts : Halts t limit q i m misses hits) : r.seen ≤ m + 1 := by
  refine Nat.le_of_not_lt fun hlt => ?_
  have := hhalts.le_of_awaited (hattends (m + 1) (Nat.zero_le _) hlt)
  omega

/-- What stops a reading is found in the last token that it looks at. -/
theorem Verdict.extent_eq_needed
    (hverdict : Verdict t limit (.opening entry) 0 left (· = .done) r)
    (hattends : r.Attends t limit (.opening entry) 0 0) (hwithin : r.Within 0)
    (hhits : ∀ hit ∈ r.hits, AtLimit t limit (.opening entry) 0 hit) :
    r.extent none = needed (r.recognition t limit 0) := by
  cases hverdict with
  | passed htarget hresult hnone hreaches =>
      rw [Reading.extent_of_nil hnone, hattends.seen_of_passed hwithin (htarget ▸ hreaches)]
      simp [Reading.recognition, hresult, needed, Match.length]
  | @failed m hresult hhalts =>
      have hseen := hattends.seen_le_of_halts hhalts
      simp only [Reading.recognition, hresult]
      cases hhit : r.hits with
      | cons hit rest =>
          obtain rfl : m = hit := hhalts.unique (hhits hit (by simp [hhit])).halts
          simp only [Reading.failure, hhit, Reading.extent, needed]
          omega
      | nil =>
          rw [hhit] at hhalts
          obtain ⟨q', -, -, ⟨kind, hcan⟩, hexact⟩ := hhalts.run
          have hmem : (m, kind) ∈ r.misses := ((hexact rfl).noted kind).2 hcan
          obtain ⟨a, ha⟩ := Option.ne_none_iff_exists'.1
            (Mismatch.noted_ne_none (t := t) (List.ne_nil_of_mem hmem))
          obtain ⟨kind', hmem'⟩ := Mismatch.position_noted_mem ha
          have hposition := (hexact rfl).le _ hmem'
          have hback := Mismatch.le_position_noted ha hmem
          have hlt := (hwithin.misses _ hmem).2
          rw [Reading.extent_of_nil hhit]
          simp only [Reading.failure, hhit, ha, needed, SyntaxError.ofToken]
          omega

namespace Engine

variable {σ ν : Type} [TokenSource σ] {s : σ} {settings : Settings} {n bound : Nat}
variable {e : Engine σ} {result : Except ParseError Match}

theorem extent_entryReading (hend : TokenSource.EndsBy (TokenSource.stream s) bound)
    (hfuel : parseFuel bound ≤ n) (maxDepth : Nat) (entry : Entry) :
    (entryReading s maxDepth n entry).extent none = needed
      ((entryReading s maxDepth n entry).recognition (TokenSource.stream s) maxDepth 0) := by
  have hG : (groundAt s ListGrammar.grammar (.ofSource ⟨false, maxDepth⟩ s)).grammar
      = ListGrammar.grammar := rfl
  have hfuel' : 16 * (bound - 0) + 24 ≤ n := by
    simp only [parseFuel] at hfuel
    omega
  exact (verdict_entryReading hend hfuel maxDepth entry).extent_eq_needed
    (Ground.attends_entry hG hend hfuel' entry) (Ground.within_read _ _ _ _ _)
    fun hit => Ground.atLimit_entry hG hend hfuel'

/-- A recognition with nothing open around it that takes everything that is pulled, and something
    of it itself, empties the buffer and the memo when it commits, and never before. -/
theorem exists_compacted_of_match {g : Grammar ν} (hg : ∀ name, (g name).StackFree)
    {rule : Rule ν} (hrule : rule.StackFree) {e' : Engine σ} {low : Nat} {found : Match}
    (hcoherent : Coherent s low e) (hmarks : e.speculation.marks = [])
    (hrun : recognize g n rule e = .ok (.ok found) e') (hpulled : e.buffer.base < e'.buffer.pulled)
    (hend : e'.buffer.position = e'.buffer.pulled) :
    ∃ e₁ : Engine σ, e₁.compactions = e.compactions ∧ e₁.depth = e.depth ∧
      e₁.speculation.marks = [] ∧ e' = e₁.compacted := by
  obtain ⟨e₁, ⟨hbody, hcommit, -⟩ | ⟨-, _, _, -, -, herror⟩⟩ := recognizing_eq_ok hrun
  · have htidy := Steady.eval hg n hrule _ _ _ hbody
    have hgrown := htidy.grown (List.cons_ne_nil _ _)
    have hcoherent₁ : Coherent s low e₁ := Upholds.eval hg n hrule _ _ _ _
      hcoherent.begun.pushed hbody
    have hmarks₁ : e₁.speculation.marks = [e.buffer.cursor] := by
      rw [htidy.balanced.marks, ← hmarks]
      rfl
    have hbase : e₁.buffer.base = e.buffer.base := hgrown.base
    have hsize := hcoherent₁.window.pulled_eq
    rw [position_of_commit hcommit, pulled_of_commit hcommit, Lookahead.position] at hend
    rw [pulled_of_commit hcommit] at hpulled
    have hcursor : e₁.buffer.cursor = e₁.buffer.size := by omega
    have hcan : (e₁.committed []).canCompact = true := by
      simp [canCompact, committed, Speculation.isEmpty, Lookahead.atEnd, hcursor]
    have hsome : e₁.buffer.isEmpty = false := by
      have : 0 < e₁.buffer.tokens.size := by
        rw [← Lookahead.size]
        omega
      simpa [Lookahead.isEmpty] using Array.ne_empty_of_size_pos this
    rw [commit_of_cons hmarks₁, hcan, hsome] at hcommit
    obtain ⟨-, -, rfl⟩ := compact_eq_ok hcommit
    exact ⟨e₁.committed [], hgrown.compactions, htidy.balanced.depth, rfl, rfl⟩
  · cases herror

/-- So does a first recognition. -/
theorem exists_compacted_of_recognize {g : Grammar ν} (hg : ∀ name, (g name).StackFree)
    {rule : Rule ν} (hrule : rule.StackFree) {found : Match}
    (hrun : recognize g n rule (ofSource settings s) = .ok (.ok found) e)
    (hpulled : 0 < e.buffer.pulled) (hend : e.buffer.position = e.buffer.pulled) :
    ∃ e₁ : Engine σ, e₁.compactions = 0 ∧ e = e₁.compacted := by
  obtain ⟨e₁, hcompactions, -, -, heq⟩ := exists_compacted_of_match hg hrule
    (coherent_ofSource settings s) rfl hrun hpulled hend
  exact ⟨e₁, hcompactions, heq⟩

omit [TokenSource σ] in
/-- The table of a rule that has one is emptied as well. -/
theorem isEmpty_table_compacted {id : RuleId} {table : MemoTable}
    (h : e.compacted.memo.table? id = some table) : table.isEmpty = true := by
  simp only [Memo.table?, Option.ite_none_right_eq_some] at h
  obtain ⟨-, h⟩ := h
  obtain rfl := Option.some.inj h
  rfl

/-- What a parse on a fresh engine pulls, and where it leaves the cursor. -/
theorem pulled_of_recognizeEntry
    (hrun : recognizeEntry n entry (ofSource settings s) = .ok result e) :
    e.buffer.pulled = needed result ∧ (∀ err, result ≠ .error (.lexical err)) ∧
      ∀ found, result = .ok found → 0 < found.length ∧ e.buffer.position = found.length := by
  -- The parse is that of a list of all the tokens that it pulled.
  let limit := e.buffer.pulled
  have hend := TokenSource.endsBy_taken s limit
  have hfuel : parseFuel limit ≤ max n (parseFuel limit) := Nat.le_max_right _ _
  obtain ⟨e₂, hbeside⟩ := beside_ofSource settings (TokenSource.taken s limit)
  have hfrom : (ofSource settings s).buffer.From s := rfl
  have hsame := recognizeEntry_onto hfrom (TokenSource.agreeBelow_taken s limit)
    (Nat.le_max_left n (parseFuel limit)) (by rw [hrun]; trivial)
    (by rw [hrun]; exact Nat.le_refl limit)
  obtain ⟨e', hrun', hpulled, hposition, -⟩ := hbeside.recognizeEntry hend hfuel entry
  have hextent := extent_entryReading hend hfuel settings.maxDepth entry
  have hverdict := verdict_entryReading hend hfuel settings.maxDepth entry
  rw [hrun, show (ofSource settings s).onto (TokenSource.taken s limit)
    = ofSource settings (TokenSource.taken s limit) from rfl, hrun', Run.onto] at hsame
  injection hsame with hresult he
  subst he
  rw [← hresult]
  generalize entryReading (TokenSource.taken s limit) settings.maxDepth _ entry = r
    at hpulled hposition hextent hverdict hresult
  refine ⟨(hpulled.trans (Nat.zero_max _)).trans hextent, fun err => r.recognition_ne_lexical,
    fun found hfound => ?_⟩
  cases hverdict with
  | failed hfail =>
      simp only [Reading.recognition, hfail] at hfound
      cases hfound
  | passed _ hpass _ hreaches =>
      simp only [Reading.recognition, hpass, Except.ok.injEq] at hfound
      subst hfound
      simp only [landing, hpass] at hposition
      simpa [Match.length] using ⟨hreaches.lt, hposition⟩

/-- A parse on a fresh engine that returns has pulled exactly the tokens that it needs: those of
    the match, and then nothing is buffered or kept and the engine has compacted once, or those
    up to the one that the error is about. -/
theorem parse_pulls_needed (hrun : recognizeEntry n entry (ofSource settings s) = .ok result e) :
    (∀ found, result = .ok found →
      e.buffer.pulled = found.length ∧ e.buffer.isEmpty = true ∧ e.memo.isEmpty = true ∧
      (∀ id table, e.memo.table? id = some table → table.isEmpty = true) ∧ e.compactions = 1) ∧
    (∀ err, result = .error (.syntaxError err) → e.buffer.pulled = err.position + 1) ∧
    (∀ limit position span, result = .error (.nestingLimit limit position span) →
      e.buffer.pulled = position + 1) ∧
    ∀ err, result ≠ .error (.lexical err) := by
  obtain ⟨hpulled, hlexical, hfound⟩ := pulled_of_recognizeEntry hrun
  refine ⟨?_, ?_, ?_, hlexical⟩
  · rintro found rfl
    obtain ⟨hpos, hposition⟩ := hfound found rfl
    obtain ⟨e₁, hzero, rfl⟩ := exists_compacted_of_recognize stackFree_list entry.stackFree_rule
      hrun (by rw [hpulled]; exact hpos) (by rw [hpulled]; exact hposition)
    refine ⟨hpulled, rfl, ?_, fun id table => isEmpty_table_compacted, ?_⟩
    · simp [compacted, Memo.isEmpty, Memo.clear]
    · show e₁.compactions + 1 = 1
      rw [hzero]
  · rintro err rfl
    exact hpulled
  · rintro limit position span rfl
    exact hpulled

/-- A statement, to which the end of the input belongs, a token that cannot come behind a list,
    and a bracket too many. -/
theorem parse_pulls_needed_of_lists :
    (∃ found, ∃ e : Engine TokenList,
      recognizeEntry 200 .stat (ofSource ⟨true, 2⟩ nestedAssignment) = .ok (.ok found) e ∧
      found.length = 10 ∧ e.buffer.pulled = 10 ∧ e.compactions = 1) ∧
    (∃ err, ∃ e : Engine TokenList,
      recognizeEntry 200 .stat (ofSource ⟨true, 2⟩ (TokenList.ofTokens strayTokens))
        = .ok (.error (.syntaxError err)) e ∧ err.position = 3 ∧ e.buffer.pulled = 4) ∧
    ∃ span, ∃ e : Engine TokenList,
      recognizeEntry 200 .stat (ofSource ⟨true, 1⟩ nestedAssignment)
        = .ok (.error (.nestingLimit 1 1 span)) e ∧ e.buffer.pulled = 2 := by
  have hmatch : (match recognizeEntry 200 .stat (ofSource ⟨true, 2⟩ nestedAssignment) with
      | .ok (.ok found) _ => found.length == 10
      | .ok (.error _) _ => false
      | .error _ _ => false) = true := by decide +kernel
  have herror : (match recognizeEntry 200 .stat
        (ofSource ⟨true, 2⟩ (TokenList.ofTokens strayTokens)) with
      | .ok (.error (.syntaxError _)) e => e.buffer.pulled == 4
      | .ok (.error (.lexical _)) _ => false
      | .ok (.error (.nestingLimit ..)) _ => false
      | .ok (.ok _) _ => false
      | .error _ _ => false) = true := by decide +kernel
  have hlimit : (match recognizeEntry 200 .stat (ofSource ⟨true, 1⟩ nestedAssignment) with
      | .ok (.error (.nestingLimit limit position _)) _ => limit == 1 && position == 1
      | .ok (.error (.lexical _)) _ => false
      | .ok (.error (.syntaxError _)) _ => false
      | .ok (.ok _) _ => false
      | .error _ _ => false) = true := by decide +kernel
  refine ⟨?_, ?_, ?_⟩
  · split at hmatch
    · next found e hrun =>
        have hlength := beq_iff_eq.1 hmatch
        obtain ⟨hpulled, -, -, -, hcompactions⟩ := (parse_pulls_needed hrun).1 found rfl
        exact ⟨found, e, hrun, hlength, hpulled.trans hlength, hcompactions⟩
    all_goals cases hmatch
  · split at herror
    · next err e hrun =>
        have hcount := beq_iff_eq.1 herror
        have hpulled := (parse_pulls_needed hrun).2.1 err rfl
        exact ⟨err, e, hrun, Nat.succ.inj (hpulled.symm.trans hcount), hcount⟩
    all_goals cases herror
  · split at hlimit
    · next limit position span e hrun =>
        simp only [Bool.and_eq_true, beq_iff_eq] at hlimit
        obtain ⟨rfl, rfl⟩ := hlimit
        exact ⟨span, e, hrun, (parse_pulls_needed hrun).2.2.1 1 1 span rfl⟩
    all_goals cases hlimit

end Engine
end Packrat
