/-
  Packrat.Proofs.DepthLimit

  Where the depth limit is reported.

  Only `list` counts toward the limit, so the limit is hit in front of a place
  where a list is tried with as many brackets open as may be (`AtLimit`).  That
  is shown for every hit of a reading, by the same induction on the tokens left
  that gives the verdicts.  Beyond such a place nothing can be read under the
  limit, so it is the place where the reading halts, and all hits of one
  reading are at that place.

  The limit is tested before the list looks at a token.  So the token at the
  place need not be a bracket; if it is none, it is one that cannot come there.
  A reading that halts without a hit would have had room for a bracket, so the
  limit is reported at these places and nowhere else (`parse_nestingLimit`).
-/

import Packrat.Proofs.SyntaxErrors

namespace Packrat

variable {t : Nat → Token} {limit i j m h : Nat} {q q' : Outlook} {left : Kind → Prop}
variable {misses : List (Nat × Kind)} {hits : List Nat}

-- ============================================================================
-- Places at the limit
-- ============================================================================

/-- The tokens from `i` to `h` lead to an outlook with as many brackets open as may be, where one
    more could open; the token there opens it or cannot come. -/
structure AtLimit (t : Nat → Token) (limit : Nat) (q : Outlook) (i h : Nat) : Prop where
  le : i ≤ h
  run : ∃ q', q.runWithin limit (word t i h) = some q' ∧ q'.level = limit ∧
    q'.step .lbracket ≠ none ∧ ((t h).kind ≠ .lbracket → q'.step (t h).kind = none)

theorem AtLimit.here (hlevel : q.level = limit) (hopen : q.step .lbracket ≠ none)
    (hcan : (t i).kind ≠ .lbracket → q.step (t i).kind = none) : AtLimit t limit q i i := by
  refine ⟨Nat.le_refl i, q, ?_, hlevel, hopen, hcan⟩
  rw [word_self]
  rfl

theorem Reaches.append_atLimit (hreaches : Reaches t limit q i left q' j misses)
    (hat : AtLimit t limit q' j h) : AtLimit t limit q i h := by
  have hlt := hreaches.lt
  obtain ⟨q'', hrun, hrest⟩ := hat.run
  refine ⟨Nat.le_trans (Nat.le_of_lt hlt) hat.le, q'', ?_, hrest⟩
  rw [← word_append t (Nat.le_of_lt hlt) hat.le, Outlook.runWithin_append, hreaches.run,
    Option.bind_some, hrun]

/-- Under the limit nothing goes on from there. -/
theorem AtLimit.halts (hat : AtLimit t limit q i h) : Halts t limit q i h [] [h] := by
  obtain ⟨q', hrun, hlevel, hopen, hcan⟩ := hat.run
  refine ⟨hat.le, q', hrun, ?_, ⟨.lbracket, hopen⟩, fun hnil => nomatch hnil⟩
  apply Outlook.stepWithin_eq_none
  intro q'' hstep
  by_cases hkind : (t h).kind = .lbracket
  · rw [hkind] at hstep
    have hone : q''.level = q'.level + 1 := Outlook.level_step hstep
    omega
  · rw [hcan hkind] at hstep
    cases hstep

/-- An outlook halts at one place. -/
theorem Halts.unique {misses' : List (Nat × Kind)} {hits' : List Nat}
    (hm : Halts t limit q i m misses hits) (hj : Halts t limit q i j misses' hits') : m = j := by
  have hle : ∀ {a b : Nat} {misses misses' : List (Nat × Kind)} {hits hits' : List Nat},
      Halts t limit q i a misses hits → Halts t limit q i b misses' hits' → b ≤ a := by
    intro a b _ _ _ _ ha hb
    obtain ⟨qa, hruna, hstepa, -⟩ := ha.run
    obtain ⟨qb, hrunb, -⟩ := hb.run
    by_cases hlt : a < b
    · rw [← word_append t ha.le (Nat.le_of_lt hlt), Outlook.runWithin_append, hruna,
        Option.bind_some, word_cons t hlt, Outlook.runWithin, hstepa] at hrunb
      cases hrunb
    · exact Nat.le_of_not_lt hlt
  exact Nat.le_antisymm (hle hj hm) (hle hm hj)

-- ============================================================================
-- Hits of readings
-- ============================================================================

theorem Reading.mem_hits_andThen {α β : Type} {r : Reading α} {f : α → Pass β}
    (hmem : h ∈ (r.andThen f).hits) :
    h ∈ r.hits ∨ ∃ a, r.result = .ok a ∧ h ∈ (f a r.stop).hits := by
  cases hresult : r.result with
  | ok a =>
      rw [Reading.andThen_of_ok hresult] at hmem
      exact (List.mem_append.1 hmem).imp_right fun hlater => ⟨a, rfl, hlater⟩
  | error fault =>
      rw [Reading.andThen_of_error hresult] at hmem
      exact .inl hmem

/-- An answer made of what a pass returns adds no hit. -/
theorem Pass.mem_hits_of_answer {p : Pass Bool}
    (hmem : h ∈ ((do if ← p then return true else return false : Pass Bool) i).hits) :
    h ∈ (p i).hits := by
  rw [Pass.bind_apply] at hmem
  rcases Reading.mem_hits_andThen hmem with hpass | ⟨a, -, hanswer⟩
  · exact hpass
  · cases a <;> cases hanswer

theorem Pass.hits_rewind (p : Pass Bool) (i : Nat) : (p.rewind i).hits = (p i).hits := by
  simp only [Pass.rewind]
  split
  · rfl
  · rfl

namespace Ground

variable {G : Ground Nonterminal} {bound n d outer : Nat} {entry : Entry} {kind : Kind}

theorem hits_takeKind : (G.takeKind kind i).hits = [] := by
  by_cases hkind : (G.tokens i).kind = kind
  · rw [G.takeKind_of_eq hkind]
  · rw [G.takeKind_of_ne hkind]

/-- A list hits the limit in its own place, or its elements do behind its bracket. -/
theorem atLimit_list_of_elements (hG : G.grammar = ListGrammar.grammar) (hd : d ≤ G.maxDepth)
    (hlimit : limit + d = G.maxDepth + outer)
    (hopen : q.step .lbracket = some (.inside .element outer entry))
    (hcan : (G.tokens i).kind ≠ .lbracket → q.step (G.tokens i).kind = none)
    (helements : (G.tokens i).kind = .lbracket → d < G.maxDepth →
      ∀ h ∈ (G.read (n + 1) (d + 1) (.ref .elements) (i + 1)).hits,
        AtLimit G.tokens limit (.inside .element outer entry) (i + 1) h)
    (hmem : h ∈ (G.read (n + 6) d (.ref .list) i).hits) : AtLimit G.tokens limit q i h := by
  rw [read_list hG, Pass.hits_rewind] at hmem
  by_cases hdeep : G.maxDepth ≤ d
  · rw [if_pos hdeep] at hmem
    obtain rfl : h = i := List.mem_singleton.1 hmem
    have hone := Outlook.level_step hopen
    simp [Outlook.level_inside] at hone
    exact .here (by omega) (by simp [hopen]) hcan
  · rw [if_neg hdeep, bracketed, Pass.bind_apply] at hmem
    by_cases hkind : (G.tokens i).kind = .lbracket
    · rw [takeKind_of_eq G hkind, Reading.andThen_of_ok rfl, if_pos rfl] at hmem
      have hbracket : Reaches G.tokens limit q i (fun _ => True) (.inside .element outer entry)
          (i + 1) [] :=
        .token (by rw [hkind, hopen]) (by rw [Outlook.level_inside]; omega) (by simp)
      rcases Reading.mem_hits_andThen hmem with hinside | ⟨a, -, hclose⟩
      · exact hbracket.append_atLimit (helements hkind (by omega) h hinside)
      · cases a with
        | true => simp [hits_takeKind] at hclose
        | false => simp [Pass.pure_apply] at hclose
    · rw [takeKind_of_ne G hkind] at hmem
      simp [Reading.andThen, Reading.append, Pass.pure_apply] at hmem

theorem hits_element_of_name (hG : G.grammar = ListGrammar.grammar)
    (hname : (G.tokens i).kind = .name) : (G.read (n + 8) d (.ref .element) i).hits = [] := by
  have hread : ∃ matched j seen misses,
      G.read (n + 6) d (.attempt ListGrammar.nameElement) i = ⟨.ok matched, j, seen, misses, []⟩
        ∧ matched = true := by
    by_cases hequals : (G.tokens (i + 1)).kind = .equals
    · by_cases hvalue : (G.tokens (i + 2)).kind = .name
      · obtain ⟨seen, hread⟩ := read_nameElement_of_value (n := n) (d := d) hname hequals hvalue
        exact ⟨_, _, seen, _, hread, rfl⟩
      · obtain ⟨seen, hread⟩ := read_nameElement_of_equals (n := n) (d := d) hname hequals hvalue
        exact ⟨_, _, seen, _, hread, rfl⟩
    · obtain ⟨seen, hread⟩ := read_nameElement_of_name (n := n) (d := d) hname hequals
      exact ⟨_, _, seen, _, hread, rfl⟩
  obtain ⟨_, j, seen, misses, hread, rfl⟩ := hread
  obtain ⟨seen', hread'⟩ := read_element_of_name hG hread
  rw [hread']

/-- An element that does not start with a name hits the limit where a list does. -/
theorem mem_hits_list_of_element (hG : G.grammar = ListGrammar.grammar)
    (hname : (G.tokens i).kind ≠ .name) (hmem : h ∈ (G.read (n + 10) d (.ref .element) i).hits) :
    h ∈ (G.read (n + 6) d (.ref .list) i).hits := by
  obtain ⟨seen, hread⟩ := read_nameElement_of_ne (n := n + 2) (d := d) hname
  rw [read_element hG (n + 2), Pass.bind_apply, hread] at hmem
  rcases Reading.mem_hits_andThen hmem with hnone | ⟨a, ⟨⟩, hlist⟩
  · cases hnone
  · rw [if_neg Bool.false_ne_true] at hlist
    have hrewound := Pass.mem_hits_of_answer hlist
    rwa [Pass.hits_rewind] at hrewound

/-- The elements inside a bracket hit the limit only where one more bracket could open. -/
theorem atLimit_elementsOn (hG : G.grammar = ListGrammar.grammar)
    (hend : TokenSource.EndsBy G.tokens bound) {n d i h outer : Nat} (hd : d ≤ G.maxDepth)
    (hfuel : 16 * (bound - i) + 10 ≤ n) (hlimit : limit + d = G.maxDepth + (outer + 1))
    (hmem : h ∈ (G.elementsOn n d i).hits) :
    AtLimit G.tokens limit (.inside .element outer entry) i h := by
  -- Induction on the tokens left; both an opening bracket and a comma take one.
  generalize hc : bound - i = c at hfuel
  induction c using Nat.strongRecOn generalizing n d i h outer with
  | ind c ih =>
      obtain ⟨n, rfl⟩ : ∃ k, n = k + 10 := ⟨n - 10, by omega⟩
      rw [elementsOn_succ, Pass.bind_apply] at hmem
      rcases Reading.mem_hits_andThen hmem with helement | ⟨a, hresult, htrail⟩
      · by_cases hname : (G.tokens i).kind = .name
        · rw [hits_element_of_name hG hname] at helement
          cases helement
        · refine atLimit_list_of_elements hG hd hlimit rfl ?_ ?_
            (mem_hits_list_of_element hG hname helement)
          · intro hkind
            cases hnext : (G.tokens i).kind <;> simp_all [Outlook.step]
          · intro hkind hdepth h' hmem'
            have hi : i < bound := hend.lt (by rw [hkind]; decide)
            obtain ⟨k, rfl⟩ : ∃ k, n = k + 4 := ⟨n - 4, by omega⟩
            rw [read_elements hG, Pass.hits_rewind, Pass.hits_rewind] at hmem'
            exact ih (c - 1) (by omega) hdepth (by omega) hmem' (by omega) (by omega)
      · cases a with
        | false => cases htrail
        | true =>
            have hsettles : Settles G d i _ (G.read (n + 10) d (.ref .element) i) :=
              settles_element hG hend hd (by omega)
            generalize G.read (n + 10) d (.ref .element) i = r at hsettles hresult htrail
            by_cases hnext : (G.tokens r.stop).kind = .comma
            · rcases hsettles outer entry limit hlimit with hverdict | hdoomed
              · cases hverdict with
                | failed hfail => rw [hresult] at hfail; cases hfail
                | passed htarget _ _ hreaches =>
                    have hcomma : Reaches G.tokens limit _ r.stop (fun _ => True)
                        (.inside .element outer entry) (r.stop + 1) [] :=
                      .token (by rw [hnext, htarget.step_comma])
                        (by rw [Outlook.level_inside]; omega) (by simp)
                    have hlt : i < r.stop := hreaches.lt
                    have hstop : r.stop < bound := hend.lt (by rw [hnext]; decide)
                    rw [if_pos rfl, trailOn_of_eq hnext] at htrail
                    have hrest : h ∈ (G.elementsOn (n + 9) d (r.stop + 1)).hits := by
                      simpa [Reading.append] using htrail
                    exact hreaches.append_atLimit (hcomma.append_atLimit
                      (ih (bound - (r.stop + 1)) (by omega) hd hlimit hrest rfl (by omega)))
              · rw [hdoomed.equals] at hnext
                cases hnext
            · rw [if_pos rfl, trailOn_of_ne hnext] at htrail
              cases htrail

-- ============================================================================
-- Entries
-- ============================================================================

theorem atLimit_elements (hG : G.grammar = ListGrammar.grammar)
    (hend : TokenSource.EndsBy G.tokens bound) (hd : d ≤ G.maxDepth)
    (hfuel : 16 * (bound - i) + 14 ≤ n) (hlimit : limit + d = G.maxDepth + (outer + 1))
    (hmem : h ∈ (G.read n d (.ref .elements) i).hits) :
    AtLimit G.tokens limit (.inside .element outer entry) i h := by
  obtain ⟨n, rfl⟩ : ∃ k, n = k + 5 := ⟨n - 5, by omega⟩
  rw [read_elements hG, Pass.hits_rewind, Pass.hits_rewind] at hmem
  exact atLimit_elementsOn hG hend hd (by omega) hlimit hmem

theorem atLimit_list (hG : G.grammar = ListGrammar.grammar)
    (hend : TokenSource.EndsBy G.tokens bound) (hfuel : 16 * (bound - i) + 10 ≤ n)
    (entry : Entry) (hmem : h ∈ (G.read n 0 (.ref .list) i).hits) :
    AtLimit G.tokens G.maxDepth (.opening entry) i h := by
  obtain ⟨n, rfl⟩ : ∃ k, n = k + 6 := ⟨n - 6, by omega⟩
  have hlimit : G.maxDepth + 0 = G.maxDepth + 0 := rfl
  have hopen : (Outlook.opening entry).step .lbracket = some (.inside .element 0 entry) := rfl
  refine atLimit_list_of_elements hG (Nat.zero_le _) hlimit hopen ?_ ?_ hmem
  · intro hkind
    cases hnext : (G.tokens i).kind <;> simp_all [Outlook.step]
  · intro hkind hdepth h' hmem'
    have hi : i < bound := hend.lt (by rw [hkind]; decide)
    exact atLimit_elements hG hend hdepth (by omega) (by omega) hmem'

theorem mem_hits_thenEnd {name : Nonterminal}
    (hmem : h ∈ (G.read (n + 2) 0 (ListGrammar.thenEnd id name) i).hits) :
    h ∈ (G.read (n + 1) 0 (.ref name) i).hits := by
  rw [read_thenEnd, Pass.bind_apply] at hmem
  rcases Reading.mem_hits_andThen hmem with hname | ⟨a, -, hend⟩
  · exact hname
  · cases a with
    | true => simp [hits_takeKind] at hend
    | false => cases hend

/-- The second list of an assignment counts its brackets anew. -/
theorem atLimit_assign (hG : G.grammar = ListGrammar.grammar)
    (hend : TokenSource.EndsBy G.tokens bound) (hfuel : 16 * (bound - i) + 16 ≤ n)
    (hentry : entry ≠ .list) (hmem : h ∈ (G.read n 0 (.ref .assign) i).hits) :
    AtLimit G.tokens G.maxDepth (.opening entry) i h := by
  obtain ⟨n, rfl⟩ : ∃ k, n = k + 8 := ⟨n - 8, by omega⟩
  rw [read_assign hG, Pass.hits_rewind, Pass.hits_rewind, Pass.bind_apply] at hmem
  rcases Reading.mem_hits_andThen hmem with hlist | ⟨a, hresult, htail⟩
  · exact atLimit_list hG hend (by omega) entry hlist
  · cases a with
    | false => cases htail
    | true =>
        have hverdict := verdict_list hG hend (n := n + 4) (i := i) (by omega) entry
        generalize G.read (n + 4) 0 (.ref .list) i = r at hverdict hresult htail
        cases hverdict with
        | failed hfail => rw [hresult] at hfail; cases hfail
        | passed htarget _ _ hreaches =>
            subst htarget
            have hlt := hreaches.lt
            rw [if_pos rfl, assignTail, Pass.bind_apply] at htail
            by_cases hkind : (G.tokens r.stop).kind = .equals
            · have hequals : Reaches G.tokens G.maxDepth (.closed entry) r.stop (fun _ => True)
                  (.opening .list) (r.stop + 1) [] := by
                refine .token ?_ (Nat.zero_le _) (by simp)
                rw [hkind]
                cases entry with
                | list => exact absurd rfl hentry
                | stat => rfl
                | assign => rfl
              rw [takeKind_of_eq G hkind, Reading.andThen_of_ok rfl, if_pos rfl] at htail
              have hsecond : h ∈ (G.read (n + 2) 0 (.ref .list) (r.stop + 1)).hits :=
                Pass.mem_hits_of_answer htail
              exact hreaches.append_atLimit
                (hequals.append_atLimit (atLimit_list hG hend (by omega) .list hsecond))
            · rw [takeKind_of_ne G hkind] at htail
              cases htail

theorem atLimit_stat (hG : G.grammar = ListGrammar.grammar)
    (hend : TokenSource.EndsBy G.tokens bound) (hfuel : 16 * (bound - i) + 24 ≤ n)
    (hmem : h ∈ (G.read n 0 (.ref .stat) i).hits) :
    AtLimit G.tokens G.maxDepth (.opening .stat) i h := by
  obtain ⟨n, rfl⟩ : ∃ k, n = k + 7 := ⟨n - 7, by omega⟩
  rw [read_stat hG, Pass.hits_rewind, eitherEnd, Pass.bind_apply] at hmem
  rcases Reading.mem_hits_andThen hmem with hfirst | ⟨a, hresult, hsecond⟩
  · rw [Pass.hits_rewind] at hfirst
    exact atLimit_list hG hend (by omega) .stat (mem_hits_thenEnd hfirst)
  · cases a with
    | true => cases hsecond
    | false =>
        rw [Pass.stop_rewind_of_false hresult, if_neg Bool.false_ne_true] at hsecond
        have hassign := Pass.mem_hits_of_answer hsecond
        rw [Pass.hits_rewind] at hassign
        exact atLimit_assign hG hend (by omega) (by decide) (mem_hits_thenEnd hassign)

theorem atLimit_entry (hG : G.grammar = ListGrammar.grammar)
    (hend : TokenSource.EndsBy G.tokens bound) (hfuel : 16 * (bound - i) + 24 ≤ n)
    (hmem : h ∈ (G.read n 0 entry.rule i).hits) :
    AtLimit G.tokens G.maxDepth (.opening entry) i h := by
  obtain ⟨n, rfl⟩ : ∃ k, n = k + 2 := ⟨n - 2, by omega⟩
  cases entry with
  | stat => exact atLimit_stat hG hend hfuel hmem
  | list => exact atLimit_list hG hend (by omega) .list (mem_hits_thenEnd hmem)
  | assign => exact atLimit_assign hG hend (by omega) (by decide) (mem_hits_thenEnd hmem)

end Ground

-- ============================================================================
-- Parses
-- ============================================================================

namespace Entry

/-- Token `q` would have to open one bracket too many: the tokens before it start a sentence in
    which a bracket can open there, and have `limit` brackets open there and nowhere more. -/
structure Brimful (entry : Entry) (t : Nat → Token) (limit q : Nat) : Prop where
  viable : entry.Viable (word t 0 q)
  opens : entry.Viable (word t 0 q ++ [.lbracket])
  nests : NestsWithin limit (word t 0 q)
  full : (word t 0 q).count .lbracket = (word t 0 q).count .rbracket + limit

end Entry

variable {entry : Entry}

/-- From the start of an entry, a place at the limit is one that is brimful, and has a bracket or
    what cannot come. -/
theorem atLimit_opening_iff {q : Nat} : AtLimit t limit (.opening entry) 0 q ↔
    entry.Brimful t limit q ∧ ((t q).kind = .lbracket ∨ ¬entry.Viable (word t 0 (q + 1))) := by
  have hstart : (Outlook.opening entry).level = 0 := rfl
  constructor
  · intro hat
    obtain ⟨q', hrun, hlevel, hopen, hcan⟩ := hat.run
    obtain ⟨hrun', hnests⟩ := (Outlook.runWithin_eq_some_iff (Nat.zero_le limit)).1 hrun
    have hcount := Outlook.level_run hrun'
    refine ⟨⟨?_, ?_, ?_, ?_⟩, ?_⟩
    · rw [Outlook.viable_iff, hrun']
      simp
    · rwa [Entry.viable_append_singleton_iff hrun']
    · intro u v hsplit
      have := hnests u v hsplit
      omega
    · omega
    · by_cases hkind : (t q).kind = .lbracket
      · exact .inl hkind
      · refine .inr ?_
        rw [word_succ t (Nat.zero_le q), Entry.viable_append_singleton_iff hrun', hcan hkind]
        simp
  · rintro ⟨hbrimful, hnext⟩
    obtain ⟨q', hrun'⟩ := Option.ne_none_iff_exists'.1 (Outlook.viable_iff.1 hbrimful.viable)
    have hcount := Outlook.level_run hrun'
    have hfull := hbrimful.full
    have hrun : (Outlook.opening entry).runWithin limit (word t 0 q) = some q' := by
      refine (Outlook.runWithin_eq_some_iff (Nat.zero_le limit)).2 ⟨hrun', fun u v hsplit => ?_⟩
      have := hbrimful.nests u v hsplit
      omega
    refine ⟨Nat.zero_le q, q', hrun, by omega, ?_, fun hkind => ?_⟩
    · exact (Entry.viable_append_singleton_iff hrun' _).1 hbrimful.opens
    · rcases hnext with hbracket | hnone
      · exact absurd hbracket hkind
      · rw [word_succ t (Nat.zero_le q), Entry.viable_append_singleton_iff hrun'] at hnone
        exact Classical.not_not.1 hnone

section

variable {r : Reading Bool}

/-- A place at the limit is reported: what is noted without a hit has room for a bracket. -/
theorem Verdict.recognition_eq_nestingLimit
    (hverdict : Verdict t limit (.opening entry) 0 left (· = .done) r)
    (hhits : ∀ h ∈ r.hits, AtLimit t limit (.opening entry) 0 h) {q : Nat}
    (hat : AtLimit t limit (.opening entry) 0 q) :
    r.recognition t limit 0 = .error (.nestingLimit limit q (t q).span) := by
  cases hverdict with
  | passed htarget _ _ hreaches =>
      subst htarget
      exact absurd hreaches.run (hat.halts.runWithin_ne (Nat.zero_le _))
  | failed hresult hhalts =>
      obtain rfl := hhalts.unique hat.halts
      cases hhit : r.hits with
      | cons hit hits =>
          obtain rfl := hhalts.unique (hhits hit (by simp [hhit])).halts
          simp only [Reading.recognition, hresult, Reading.failure, hhit]
      | nil =>
          obtain ⟨q₁, hrun, -, -, hexact⟩ := hhalts.run
          obtain ⟨q₂, hrun', hlevel, hopen, -⟩ := hat.run
          rw [hrun, Option.some.injEq] at hrun'
          subst hrun'
          exact absurd hlevel (Nat.ne_of_lt ((hexact hhit).room hopen))

theorem Reading.mem_hits_of_nestingLimit {limit' q : Nat} {span : Span}
    (herror : r.recognition t limit 0 = .error (.nestingLimit limit' q span)) :
    q ∈ r.hits ∧ limit' = limit ∧ span = (t q).span := by
  have hfailure : r.failure t limit 0 = .nestingLimit limit' q span := by
    simp only [Reading.recognition] at herror
    split at herror
    · cases herror
    · exact Except.error.inj herror
  cases hhit : r.hits with
  | cons hit hits =>
      simp only [Reading.failure, hhit, ParseError.nestingLimit.injEq] at hfailure
      obtain ⟨rfl, rfl, rfl⟩ := hfailure
      exact ⟨List.mem_cons_self, rfl, rfl⟩
  | nil =>
      cases hnoted : Mismatch.noted t r.misses <;>
        simp [Reading.failure, hhit, hnoted] at hfailure

end

/-- Every hit of the reading of a whole input is at the limit. -/
theorem atLimit_listReading {tokens : List Token} {maxDepth : Nat}
    (hmem : h ∈ (listReading tokens maxDepth entry).hits) :
    AtLimit (TokenSource.stream (TokenList.ofTokens tokens)) maxDepth (.opening entry) 0 h := by
  have hG : (Engine.groundAt (TokenList.ofTokens tokens) ListGrammar.grammar
      (.ofSource ⟨false, maxDepth⟩ (TokenList.ofTokens tokens))).grammar
      = ListGrammar.grammar := rfl
  refine Ground.atLimit_entry hG (TokenList.endsBy_stream_ofTokens tokens) ?_ hmem
  simp only [parseFuel]
  omega

namespace Engine

/-- The limit is reported at exactly the places where it is reached: the tokens before it start a
    sentence that has as many brackets open there as may be, and nowhere more, a bracket can come
    there, and what stands there is that bracket or cannot come.  So the first bracket too many is
    reported, and the limit never in front of a sentence that nests within it. -/
theorem parse_nestingLimit (settings : Settings) (tokens : List Token) (entry : Entry) :
    let source := TokenList.ofTokens tokens
    let t := TokenSource.stream source
    ∃ result e, parse entry (ofSource settings source) = .ok result e ∧
      (∀ limit q span, result = .error (.nestingLimit limit q span) ↔
        limit = settings.maxDepth ∧ span = (t q).span ∧ entry.Brimful t settings.maxDepth q ∧
        ((t q).kind = .lbracket ∨ ¬entry.Viable (word t 0 (q + 1)))) ∧
      ∀ n, entry.Sentence (word t 0 n) → NestsWithin settings.maxDepth (word t 0 n) →
        ∀ limit q span, result ≠ .error (.nestingLimit limit q span) := by
  intro source t
  obtain ⟨e, hparse⟩ := parse_eq settings tokens entry
  have hverdict := verdict_listReading tokens settings.maxDepth entry
  refine ⟨_, e, hparse, fun limit q span => ⟨fun herror => ?_, ?_⟩, ?_⟩
  · obtain ⟨hmem, hlimit, hspan⟩ := Reading.mem_hits_of_nestingLimit herror
    exact ⟨hlimit, hspan, atLimit_opening_iff.1 (atLimit_listReading hmem)⟩
  · rintro ⟨rfl, rfl, hreached⟩
    have hat := atLimit_opening_iff.2 hreached
    exact hverdict.recognition_eq_nestingLimit (fun _ => atLimit_listReading) hat
  · intro n hsentence hnests limit q span herror
    have hok := (hverdict.recognition_eq_ok_iff _).2 ⟨n, hsentence, hnests, rfl⟩
    rw [hok] at herror
    cases herror

/-- The tokens of `[]`. -/
def noElements : List Token := [.unplaced .lbracket "[", .unplaced .rbracket "]"]

/-- The tokens of `[[a],[b]]`. -/
def twoInside : List Token :=
  [.unplaced .lbracket "[", .unplaced .lbracket "[", .unplaced .name "a", .unplaced .rbracket "]",
    .unplaced .comma ",", .unplaced .lbracket "[", .unplaced .name "b", .unplaced .rbracket "]",
    .unplaced .rbracket "]"]

/-- The limit may be reported in front of a token that is no bracket, though the brackets of the
    input never nest deeper; and of two brackets too many only the first is reported. -/
theorem nestingLimit_at_other_places :
    ((∃ span e, parse .list (ofSource ⟨true, 1⟩ (TokenList.ofTokens noElements))
        = .ok (.error (.nestingLimit 1 1 span)) e) ∧
      (TokenSource.stream (TokenList.ofTokens noElements) 1).kind = .rbracket ∧
      NestsWithin 1 (noElements.map Token.kind)) ∧
    ((∃ span e, parse .list (ofSource ⟨true, 1⟩ (TokenList.ofTokens twoInside))
        = .ok (.error (.nestingLimit 1 1 span)) e) ∧
      (TokenSource.stream (TokenList.ofTokens twoInside) 5).kind = .lbracket ∧
      Entry.list.Viable (word (TokenSource.stream (TokenList.ofTokens twoInside)) 0 6) ∧
      (word (TokenSource.stream (TokenList.ofTokens twoInside)) 0 5).count .lbracket
        = (word (TokenSource.stream (TokenList.ofTokens twoInside)) 0 5).count .rbracket + 1) := by
  have hreported : ∀ tokens,
      (match parse .list (ofSource ⟨true, 1⟩ (TokenList.ofTokens tokens)) with
        | .ok (.error (.nestingLimit 1 1 _)) _ => true
        | _ => false) = true →
      ∃ span e, parse .list (ofSource ⟨true, 1⟩ (TokenList.ofTokens tokens))
        = .ok (.error (.nestingLimit 1 1 span)) e := by
    intro tokens hrun
    split at hrun
    · next span e hparse => exact ⟨span, e, hparse⟩
    · cases hrun
  have hprefixes : ∀ k, k ≤ 2 → ((noElements.map Token.kind).take k).count .lbracket
      ≤ ((noElements.map Token.kind).take k).count .rbracket + 1 := by decide
  refine ⟨⟨hreported _ (by decide +kernel), by decide, fun u v hsplit => ?_⟩,
    hreported _ (by decide +kernel), by decide, ?_, by decide⟩
  · have hlength : 2 = u.length + v.length := by rw [← List.length_append, ← hsplit]; rfl
    have hprefix := hprefixes u.length (by omega)
    rwa [hsplit, List.take_left] at hprefix
  · exact Outlook.viable_iff.2 (by decide)

end Engine
end Packrat
