/-
  Packrat.Proofs.EntryReading

  Readings of whole inputs: each entry of the list grammar passes behind the
  end of the input exactly if the outlook comes to its end there, and otherwise
  halts where the outlook does (`verdict_entry`).

  A statement is tried as a list and then as an assignment; the second try
  reads the same list again and notes the same mismatches, so the two together
  have tried all that can follow the list.
-/

import Packrat.Proofs.ListReading

namespace Packrat
namespace Ground

variable {G : Ground Nonterminal} {bound n i j : Nat} {entry : Entry}
variable {left : Kind → Prop} {misses before : List (Nat × Kind)}

-- ============================================================================
-- Lists
-- ============================================================================

theorem settles_elements (hG : G.grammar = ListGrammar.grammar)
    (hend : TokenSource.EndsBy G.tokens bound) {d : Nat} (hd : d ≤ G.maxDepth)
    (hfuel : 16 * (bound - i) + 14 ≤ n) :
    Settles G d i (· = .rbracket) (G.read n d (.ref .elements) i) := by
  obtain ⟨n, rfl⟩ : ∃ k, n = k + 5 := ⟨n - 5, by omega⟩
  rw [read_elements hG]
  intro outer entry limit hlimit
  have hsettles := settles_elementsOn hG hend hd (n := n + 1) (i := i) (by omega) outer entry
    limit hlimit
  exact hsettles.imp (fun h => h.rewind.rewind) fun h => h.rewind.rewind

/-- The first list of an entry. -/
theorem verdict_list (hG : G.grammar = ListGrammar.grammar)
    (hend : TokenSource.EndsBy G.tokens bound) (hfuel : 16 * (bound - i) + 10 ≤ n)
    (entry : Entry) :
    Verdict G.tokens G.maxDepth (.opening entry) i (fun _ => True) (· = .closed entry)
      (G.read n 0 (.ref .list) i) := by
  obtain ⟨n, rfl⟩ : ∃ k, n = k + 6 := ⟨n - 6, by omega⟩
  have hopen : (Outlook.opening entry).step .lbracket = some (.inside .element 0 entry) := rfl
  have hlimit : G.maxDepth + 0 = G.maxDepth + 0 := rfl
  have hbefore : ∀ miss ∈ ([] : List (Nat × Kind)), miss.1 = i := by simp
  refine verdict_list_of_elements hG hlimit hopen ?_ hbefore ?_ ?_
  · intro hkind
    cases hnext : (G.tokens i).kind <;> simp_all [Outlook.step]
  · intro kind
    cases kind <;> simp [Outlook.step]
  · intro hkind hdepth
    have hi : i < bound := hend.lt (by rw [hkind]; decide)
    exact settles_elements hG hend hdepth (by omega)

theorem read_thenEnd (n d : Nat) (name : Nonterminal) :
    G.read (n + 2) d (ListGrammar.thenEnd id name) = do
      if ← G.read (n + 1) d (.ref name) then G.takeKind .eof else return false := rfl

/-- What closed its last list ends with the input. -/
theorem verdict_thenEnd {name : Nonterminal} {q : Outlook}
    (h : Verdict G.tokens G.maxDepth q i (fun _ => True) (· = .closed .list)
      ((G.read (n + 1) 0 (.ref name) i).behind before)) :
    Verdict G.tokens G.maxDepth q i (fun _ => True) (· = .done)
      ((G.read (n + 2) 0 (ListGrammar.thenEnd id name) i).behind before) := by
  rw [read_thenEnd, Pass.bind_apply, Reading.behind_andThen]
  refine h.thenKind ?_ ?_ (by decide)
  · rintro q' rfl
    exact ⟨.done, rfl, Nat.zero_le _, rfl⟩
  · rintro q' rfl kind hcan -
    cases kind <;> simp_all [Outlook.step]

-- ============================================================================
-- Assignments
-- ============================================================================

/-- What an assignment does behind its first list. -/
def assignTail (G : Ground Nonterminal) (n : Nat) : Pass Bool := do
  if ← G.takeKind .equals then
    if ← G.read n 0 (.ref .list) then return true else return false
  else return false

theorem read_assign (hG : G.grammar = ListGrammar.grammar) (n : Nat) :
    G.read (n + 8) 0 (.ref .assign) = (do
      if ← G.read (n + 4) 0 (.ref .list) then G.assignTail (n + 2)
      else return false : Pass Bool).rewind.rewind := by
  show G.read (n + 7) 0 (G.grammar .assign) = _
  rw [hG]
  rfl

/-- Behind the first list an `=` goes on with another list. -/
theorem verdict_assignTail (hG : G.grammar = ListGrammar.grammar)
    (hend : TokenSource.EndsBy G.tokens bound) (hfuel : 16 * (bound - (j + 1)) + 10 ≤ n)
    (hentry : entry ≠ .list)
    (h : Reaches G.tokens G.maxDepth (.opening entry) i left (.closed entry) j misses)
    (hleft : ∀ kind, (Outlook.closed entry).step kind ≠ none → left kind → kind = .equals) :
    Verdict G.tokens G.maxDepth (.opening entry) i (fun _ => True) (· = .closed .list)
      ((G.assignTail n j).behind misses) := by
  have hequals : (Outlook.closed entry).step .equals = some (.opening .list) := by
    cases entry with
    | list => exact absurd rfl hentry
    | stat => rfl
    | assign => rfl
  by_cases hkind : (G.tokens j).kind = .equals
  · refine .behind h ?_
    have hlist := verdict_list hG hend hfuel .list
    have htoken : Reaches G.tokens G.maxDepth (.closed entry) j (fun _ => True) (.opening .list)
        (j + 1) [] := .token (by rw [hkind, hequals]) (Nat.zero_le _) (by simp)
    rw [assignTail, Pass.bind_apply, takeKind_of_eq G hkind, Reading.andThen_of_ok rfl,
      if_pos rfl]
    refine .after htoken rfl ?_
    rw [Pass.bind_apply]
    obtain ⟨matched, hresult⟩ := hlist.result
    cases hlist with
    | passed htarget hpass hhits hreaches =>
        rw [Reading.andThen_of_ok hpass]
        refine .passed htarget rfl ?_ ?_
        · simp [Reading.append, hhits, Pass.pure_apply]
        · simpa [Reading.append, Pass.pure_apply] using hreaches
    | failed hfail hhalts =>
        rw [Reading.andThen_of_ok hfail]
        exact .failed_append hhalts rfl (by simp [Pass.pure_apply])
  · have hcan : (Outlook.closed entry).step .equals ≠ none := by simp [hequals]
    have hmiss := h.miss hkind hcan (by decide)
    have htail : G.assignTail n j = ⟨.ok false, j, j + 1, [(j, .equals)], []⟩ := by
      rw [assignTail, Pass.bind_apply, takeKind_of_ne G hkind, Reading.andThen_of_ok rfl]
      rfl
    rw [htail]
    refine .failed rfl (hmiss.halts ⟨.equals, hcan⟩ ?_ [])
    rintro kind hcan ⟨hl, hne⟩
    exact hne (hleft kind hcan hl)

/-- An assignment whose first list passes; `before` was noted before it. -/
theorem verdict_assign_of_ok (hG : G.grammar = ListGrammar.grammar)
    (hend : TokenSource.EndsBy G.tokens bound) (hfuel : 16 * (bound - i) + 12 ≤ n + 4)
    (hentry : entry ≠ .list) (hresult : (G.read (n + 4) 0 (.ref .list) i).result = .ok true)
    (hhits : (G.read (n + 4) 0 (.ref .list) i).hits = [])
    (h : Reaches G.tokens G.maxDepth (.opening entry) i left (.closed entry)
      (G.read (n + 4) 0 (.ref .list) i).stop
      (before ++ (G.read (n + 4) 0 (.ref .list) i).misses))
    (hleft : ∀ kind, (Outlook.closed entry).step kind ≠ none → left kind → kind = .equals) :
    Verdict G.tokens G.maxDepth (.opening entry) i (fun _ => True) (· = .closed .list)
      ((G.read (n + 8) 0 (.ref .assign) i).behind before) := by
  have hlt := h.lt
  have htail := verdict_assignTail hG hend (n := n + 2) (by omega) hentry h hleft
  rw [read_assign hG]
  refine .rewind_behind (.rewind_behind ?_)
  rw [Pass.bind_apply, Reading.andThen_of_ok hresult, if_pos rfl]
  generalize G.read (n + 4) 0 (.ref .list) i = r at *
  cases htail with
  | passed htarget hpass hnil hreaches =>
      refine .passed htarget hpass ?_ ?_
      · have hnil' : (G.assignTail (n + 2) r.stop).hits = [] := hnil
        simp [Reading.append, Reading.behind, hhits, hnil']
      · simpa [Reading.append, Reading.behind] using hreaches
  | @failed m hfail hhalts =>
      have hsame : Halts G.tokens G.maxDepth (.opening entry) i m
          (before ++ (r.misses ++ (G.assignTail (n + 2) r.stop).misses))
          (r.hits ++ (G.assignTail (n + 2) r.stop).hits) := by
        simpa [Reading.behind, hhits] using hhalts
      exact .failed hfail hsame

/-- An assignment whose first list fails. -/
theorem read_assign_of_not_ok (hG : G.grammar = ListGrammar.grammar)
    (hresult : (G.read (n + 4) 0 (.ref .list) i).result = .ok false) :
    (G.read (n + 8) 0 (.ref .assign) i).result = .ok false ∧
      (G.read (n + 8) 0 (.ref .assign) i).misses = (G.read (n + 4) 0 (.ref .list) i).misses ∧
      (G.read (n + 8) 0 (.ref .assign) i).hits = (G.read (n + 4) 0 (.ref .list) i).hits := by
  rw [read_assign hG]
  simp [Pass.rewind, Pass.bind_apply, Reading.andThen_of_ok hresult, Reading.append,
    Pass.pure_apply]

theorem verdict_assign (hG : G.grammar = ListGrammar.grammar)
    (hend : TokenSource.EndsBy G.tokens bound) (hfuel : 16 * (bound - i) + 16 ≤ n) :
    Verdict G.tokens G.maxDepth (.opening .assign) i (fun _ => True) (· = .closed .list)
      (G.read n 0 (.ref .assign) i) := by
  obtain ⟨n, rfl⟩ : ∃ k, n = k + 8 := ⟨n - 8, by omega⟩
  cases verdict_list hG hend (n := n + 4) (i := i) (by omega) .assign with
  | passed htarget hresult hhits hreaches =>
      subst htarget
      have hentry : Entry.assign ≠ .list := by decide
      have hbefore : Reaches _ _ _ _ _ _ _ ([] ++ (G.read (n + 4) 0 (.ref .list) i).misses) :=
        hreaches
      refine verdict_assign_of_ok hG hend (by omega) hentry hresult hhits hbefore ?_
      intro kind hcan _
      cases kind <;> simp_all [Outlook.step]
  | failed hresult hhalts =>
      obtain ⟨hfail, hmisses, hhits⟩ := read_assign_of_not_ok hG hresult
      rw [← hmisses, ← hhits] at hhalts
      exact .failed hfail hhalts

-- ============================================================================
-- Statements
-- ============================================================================

/-- A list and the end of the input, or else an assignment and the end. -/
def eitherEnd (G : Ground Nonterminal) (n : Nat) : Pass Bool := do
  if ← (G.read (n + 3) 0 (ListGrammar.thenEnd id .list)).rewind then return true
  else if ← (G.read (n + 2) 0 (ListGrammar.thenEnd id .assign)).rewind then return true
  else return false

theorem read_stat (hG : G.grammar = ListGrammar.grammar) (n : Nat) :
    G.read (n + 7) 0 (.ref .stat) = (G.eitherEnd n).rewind := by
  show G.read (n + 6) 0 (G.grammar .stat) = _
  rw [hG]
  rfl

/-- Both alternatives read the list, on different fuel. -/
theorem read_list_eq (hG : G.grammar = ListGrammar.grammar)
    (hend : TokenSource.EndsBy G.tokens bound) {n' : Nat} (hfuel : 16 * (bound - i) + 10 ≤ n)
    (hfuel' : 16 * (bound - i) + 10 ≤ n') :
    G.read n' 0 (.ref .list) i = G.read n 0 (.ref .list) i := by
  obtain ⟨matched, hresult⟩ := (verdict_list hG hend hfuel .list).result
  obtain ⟨matched', hresult'⟩ := (verdict_list hG hend hfuel' .list).result
  exact G.read_eq_of_ends (by rw [hresult]; simp) (by rw [hresult']; simp)

/-- Behind its list a statement ends with the input or goes on as an assignment. -/
theorem verdict_eitherEnd_of_ok (hG : G.grammar = ListGrammar.grammar)
    (hend : TokenSource.EndsBy G.tokens bound) (hfuel : 16 * (bound - i) + 24 ≤ n + 14)
    (hresult : (G.read (n + 4) 0 (.ref .list) i).result = .ok true)
    (hhits : (G.read (n + 4) 0 (.ref .list) i).hits = [])
    (hreaches : Reaches G.tokens G.maxDepth (.opening .stat) i (fun _ => True) (.closed .stat)
      (G.read (n + 4) 0 (.ref .list) i).stop (G.read (n + 4) 0 (.ref .list) i).misses) :
    Verdict G.tokens G.maxDepth (.opening .stat) i (fun _ => True) (· = .done)
      (G.eitherEnd (n + 7) i) := by
  have hfirst : G.read (n + 10) 0 (ListGrammar.thenEnd id .list) i
      = (G.read (n + 4) 0 (.ref .list) i).append
        (G.takeKind .eof (G.read (n + 4) 0 (.ref .list) i).stop) := by
    have hsame : G.read (n + 9) 0 (.ref .list) i = G.read (n + 4) 0 (.ref .list) i :=
      read_list_eq hG hend (by omega) (by omega)
    rw [read_thenEnd, Pass.bind_apply, hsame, Reading.andThen_of_ok hresult, if_pos rfl]
  by_cases heof : (G.tokens (G.read (n + 4) 0 (.ref .list) i).stop).kind = .eof
  · have hdone : Verdict G.tokens G.maxDepth (.opening .stat) i (fun _ => True) (· = .done)
        (G.read (n + 10) 0 (ListGrammar.thenEnd id .list) i) := by
      rw [hfirst, takeKind_of_eq G heof]
      refine .after hreaches hhits (.passed rfl rfl rfl (.token ?_ (Nat.zero_le _) (by simp)))
      rw [heof]
      rfl
    refine .either_of_ok ?_ hdone.rewind
    simp [Pass.rewind, hfirst, Reading.append, takeKind_of_eq G heof]
  · rw [takeKind_of_ne G heof] at hfirst
    have hback : (G.read (n + 10) 0 (ListGrammar.thenEnd id .list)).rewind i
        = { G.read (n + 10) 0 (ListGrammar.thenEnd id .list) i with stop := i } := by
      simp [Pass.rewind, hfirst, Reading.append]
    refine .either (by rw [hback, hfirst]; rfl) (by rw [hback]) ?_ ?_
    · rw [hback, hfirst]
      simp [Reading.append, hhits]
    · have hentry : Entry.stat ≠ .list := by decide
      have hmisses : ((G.read (n + 10) 0 (ListGrammar.thenEnd id .list)).rewind i).misses
          = (G.read (n + 4) 0 (.ref .list) i).misses
            ++ [((G.read (n + 4) 0 (.ref .list) i).stop, .eof)] := by
        rw [hback, hfirst]
        rfl
      have hmiss : Reaches _ _ _ _ _ _ _ (_ ++ (G.read (n + 4) 0 (.ref .list) i).misses) :=
        (hreaches.miss heof (by simp [Outlook.step]) (by decide)).again
          fun miss hmem => List.mem_append_left _ hmem
      rw [hmisses]
      refine .rewind_behind (verdict_thenEnd
        (verdict_assign_of_ok hG hend (by omega) hentry hresult hhits hmiss ?_))
      rintro kind hcan ⟨-, hne⟩
      cases kind <;> simp_all [Outlook.step]

/-- Where its list fails, a statement fails as the list does. -/
theorem verdict_eitherEnd_of_not_ok (hG : G.grammar = ListGrammar.grammar)
    (hend : TokenSource.EndsBy G.tokens bound) (hfuel : 16 * (bound - i) + 24 ≤ n + 14) {m : Nat}
    (hresult : (G.read (n + 4) 0 (.ref .list) i).result = .ok false)
    (hhalts : Halts G.tokens G.maxDepth (.opening .stat) i m
      (G.read (n + 4) 0 (.ref .list) i).misses (G.read (n + 4) 0 (.ref .list) i).hits) :
    Verdict G.tokens G.maxDepth (.opening .stat) i (fun _ => True) (· = .done)
      (G.eitherEnd (n + 7) i) := by
  have hsame : G.read (n + 9) 0 (.ref .list) i = G.read (n + 4) 0 (.ref .list) i :=
    read_list_eq hG hend (by omega) (by omega)
  obtain ⟨hfail, hmisses, -⟩ := read_assign_of_not_ok hG hresult
  have hfirst : (G.read (n + 10) 0 (ListGrammar.thenEnd id .list)).rewind i
      = { G.read (n + 4) 0 (.ref .list) i with stop := i } := by
    simp [Pass.rewind, read_thenEnd, Pass.bind_apply, hsame, Reading.andThen_of_ok hresult,
      Reading.append, Pass.pure_apply, hresult]
  have hsecond : ((G.read (n + 9) 0 (ListGrammar.thenEnd id .assign)).rewind i).result
        = .ok false ∧
      ((G.read (n + 9) 0 (ListGrammar.thenEnd id .assign)).rewind i).misses
        = (G.read (n + 4) 0 (.ref .list) i).misses := by
    simp [Pass.rewind, read_thenEnd, Pass.bind_apply, Reading.andThen_of_ok hfail,
      Reading.append, Pass.pure_apply, hmisses]
  have hhalts' : Halts G.tokens G.maxDepth (.opening .stat) i m
      ((G.read (n + 10) 0 (ListGrammar.thenEnd id .list)).rewind i).misses
      ((G.read (n + 10) 0 (ListGrammar.thenEnd id .list)).rewind i).hits := by
    rw [hfirst]
    exact hhalts
  refine .either_of_halts (by rw [hfirst]; exact hresult) (by rw [hfirst]) hsecond.1 hhalts' ?_
  rw [hsecond.2, hfirst]
  exact fun miss hmem => hmem

theorem verdict_stat (hG : G.grammar = ListGrammar.grammar)
    (hend : TokenSource.EndsBy G.tokens bound) (hfuel : 16 * (bound - i) + 24 ≤ n) :
    Verdict G.tokens G.maxDepth (.opening .stat) i (fun _ => True) (· = .done)
      (G.read n 0 (.ref .stat) i) := by
  obtain ⟨n, rfl⟩ : ∃ k, n = k + 14 := ⟨n - 14, by omega⟩
  rw [read_stat hG]
  refine .rewind ?_
  cases verdict_list hG hend (n := n + 4) (i := i) (by omega) .stat with
  | passed htarget hresult hhits hreaches =>
      subst htarget
      exact verdict_eitherEnd_of_ok hG hend hfuel hresult hhits hreaches
  | failed hresult hhalts => exact verdict_eitherEnd_of_not_ok hG hend hfuel hresult hhalts

/-- Every entry passes behind the end of its input, or halts where its outlook does. -/
theorem verdict_entry (hG : G.grammar = ListGrammar.grammar)
    (hend : TokenSource.EndsBy G.tokens bound) (hfuel : 16 * (bound - i) + 24 ≤ n)
    (entry : Entry) :
    Verdict G.tokens G.maxDepth (.opening entry) i (fun _ => True) (· = .done)
      (G.read n 0 entry.rule i) := by
  obtain ⟨n, rfl⟩ : ∃ k, n = k + 2 := ⟨n - 2, by omega⟩
  cases entry with
  | stat => exact verdict_stat hG hend hfuel
  | list =>
      have hlist := verdict_list hG hend (n := n + 1) (i := i) (by omega) .list
      rw [← Reading.behind_nil (G.read (n + 1) 0 (.ref .list) i)] at hlist
      exact verdict_thenEnd hlist
  | assign =>
      have hassign := verdict_assign hG hend (n := n + 1) (i := i) (by omega)
      rw [← Reading.behind_nil (G.read (n + 1) 0 (.ref .assign) i)] at hassign
      exact verdict_thenEnd hassign

end Ground
end Packrat
