/-
  Packrat.Proofs.Outlook

  What may still come: a deterministic reader of the list language.

  An `Outlook` is all that the kinds read so far say about the rest: how many
  brackets are open, where in an element the reader is, and what follows the
  outermost bracket.  A kind either moves it on (`step`) or cannot come here.
  The two theorems of this module tie it to the context-free language: a word
  is a sentence iff it leads to `done` (`sentence_iff`), and it is the start of
  a sentence iff it leads anywhere (`viable_iff`).
-/

import Packrat.Proofs.Language

namespace Packrat

/-- Where the reader is inside the innermost open bracket. -/
inductive Spot where
  /-- In front of an element. -/
  | element
  /-- Behind a name that a value may follow. -/
  | named
  /-- Behind a name and its `=`. -/
  | bound
  /-- Behind an element. -/
  | ended
deriving DecidableEq, Repr

/-- Whether the innermost bracket may close here. -/
def Spot.Full : Spot → Prop
  | .named | .ended => True
  | .element | .bound => False

/-- What the kinds read so far leave to come. -/
inductive Outlook where
  /-- A list is to open, and the rest is that of the entry. -/
  | opening (entry : Entry)
  /-- Some bracket is open, and `outer` more around it. -/
  | inside (spot : Spot) (outer : Nat) (entry : Entry)
  /-- The first list of the entry is closed. -/
  | closed (entry : Entry)
  /-- The end of the input was read. -/
  | done
deriving DecidableEq, Repr

namespace Outlook

/-- The outlook behind the bracket that closes with `outer` more around it. -/
def leave : Nat → Entry → Outlook
  | 0, entry => closed entry
  | outer + 1, entry => inside .ended outer entry

/-- The outlook after one more kind, if that kind can come. -/
def step : Outlook → Kind → Option Outlook
  | opening entry, .lbracket => some (inside .element 0 entry)
  | inside .element outer entry, .name => some (inside .named outer entry)
  | inside .element outer entry, .lbracket => some (inside .element (outer + 1) entry)
  | inside .named outer entry, .equals => some (inside .bound outer entry)
  | inside .named outer entry, .comma => some (inside .element outer entry)
  | inside .named outer entry, .rbracket => some (leave outer entry)
  | inside .bound outer entry, .name => some (inside .ended outer entry)
  | inside .ended outer entry, .comma => some (inside .element outer entry)
  | inside .ended outer entry, .rbracket => some (leave outer entry)
  | closed .list, .eof => some done
  | closed .assign, .equals => some (opening .list)
  | closed .stat, .eof => some done
  | closed .stat, .equals => some (opening .list)
  | _, _ => none

/-- The outlook after a word. -/
def run : Outlook → List Kind → Option Outlook
  | q, [] => some q
  | q, kind :: w => (q.step kind).bind (run · w)

theorem run_cons (q : Outlook) (kind : Kind) (w : List Kind) :
    q.run (kind :: w) = (q.step kind).bind (run · w) := rfl

theorem run_append (q : Outlook) (u v : List Kind) :
    q.run (u ++ v) = (q.run u).bind (run · v) := by
  induction u generalizing q with
  | nil => rfl
  | cons kind u ih =>
      rw [List.cons_append, run_cons, run_cons]
      cases q.step kind with
      | none => rfl
      | some q' => exact ih q'

theorem run_singleton (q : Outlook) (kind : Kind) : q.run [kind] = q.step kind := by
  rw [run_cons]
  cases q.step kind <;> rfl

/-- Nothing comes after the end of the input. -/
theorem step_done (kind : Kind) : done.step kind = none := by
  cases kind <;> rfl

-- ============================================================================
-- Sentences lead to the end
-- ============================================================================

/-- What reading a word that derives from the nonterminal does, wherever it may come. -/
def Takes (w : List Kind) : Nonterminal → Prop
  | .stat => (opening .stat).run w = some done
  | .assign => ∀ entry, entry ≠ .list → (opening entry).run w = some (closed .list)
  | .list => ∀ q outer entry, step q .lbracket = some (inside .element outer entry) →
      q.run w = some (leave outer entry)
  | .elements | .element => ∀ outer entry, ∃ spot : Spot, spot.Full ∧
      (inside .element outer entry).run w = some (inside spot outer entry)

theorem takes_of_derives {name : Nonterminal} {w : List Kind} (h : Derives name w) :
    Takes w name := by
  induction h with
  | listEnd _ ih =>
      show (opening .stat).run _ = _
      rw [run_append, ih _ 0 .stat rfl]
      rfl
  | assignEnd _ ih =>
      show (opening .stat).run _ = _
      rw [run_append, ih .stat (by decide)]
      rfl
  | assign _ _ ihu ihv =>
      intro entry hentry
      have hequals : (closed entry).step .equals = some (opening .list) := by
        cases entry with
        | list => exact absurd rfl hentry
        | stat => rfl
        | assign => rfl
      rw [run_append, ihu _ 0 entry rfl, Option.bind_some, leave, run_cons, hequals]
      exact ihv _ 0 .list rfl
  | list _ ih =>
      intro q outer entry hopen
      obtain ⟨spot, hfull, hrun⟩ := ih outer entry
      rw [run_cons, hopen, Option.bind_some, run_append, hrun, Option.bind_some, run_singleton]
      cases spot with
      | named => rfl
      | ended => rfl
      | element => exact hfull.elim
      | bound => exact hfull.elim
  | single _ ih => exact ih
  | more _ _ ihu ihv =>
      intro outer entry
      obtain ⟨spot, hfull, hrun⟩ := ihu outer entry
      obtain ⟨spot', hfull', hrun'⟩ := ihv outer entry
      refine ⟨spot', hfull', ?_⟩
      rw [run_append, hrun, Option.bind_some, run_cons, ← hrun']
      cases spot with
      | named => rfl
      | ended => rfl
      | element => exact hfull.elim
      | bound => exact hfull.elim
  | name => exact fun outer entry => ⟨.named, trivial, rfl⟩
  | named => exact fun outer entry => ⟨.ended, trivial, rfl⟩
  | nested _ ih => exact fun outer entry => ⟨.ended, trivial, ih _ (outer + 1) entry rfl⟩

-- ============================================================================
-- What leads to the end is a sentence
-- ============================================================================

/-- The words that may come behind an element, up to the bracket that closes. -/
def Tail (w : List Kind) : Prop := w = [] ∨ ∃ v, w = .comma :: v ∧ Derives .elements v

/-- The words that may come at a spot, up to the bracket that closes. -/
def Rest : Spot → List Kind → Prop
  | .element, w => Derives .elements w
  | .named, w => Tail w ∨ ∃ v, w = .equals :: .name :: v ∧ Tail v
  | .bound, w => ∃ v, w = .name :: v ∧ Tail v
  | .ended, w => Tail w

/-- The words that may come behind the first list of an entry. -/
def After : Entry → List Kind → Prop
  | .list, w => w = [.eof]
  | .assign, w => ∃ u, w = .equals :: (u ++ [.eof]) ∧ Derives .list u
  | .stat, w => w = [.eof] ∨ ∃ u, w = .equals :: (u ++ [.eof]) ∧ Derives .list u

/-- The words that may come behind a bracket that closed with `outer` more around it. -/
def Outer (entry : Entry) : Nat → List Kind → Prop
  | 0, w => After entry w
  | outer + 1, w => ∃ u v, w = u ++ .rbracket :: v ∧ Tail u ∧ Outer entry outer v

/-- The words that lead from an outlook to the end. -/
def Completes : Outlook → List Kind → Prop
  | opening entry, w => ∃ u v, w = u ++ v ∧ Derives .list u ∧ After entry v
  | inside spot outer entry, w =>
      ∃ u v, w = u ++ .rbracket :: v ∧ Rest spot u ∧ Outer entry outer v
  | closed entry, w => After entry w
  | done, w => w = []

theorem completes_leave {outer : Nat} {entry : Entry} {w : List Kind} :
    Completes (leave outer entry) w ↔ Outer entry outer w := by
  cases outer <;> rfl

/-- An element and what may come behind it. -/
theorem derives_elements_append {u v : List Kind} (hu : Derives .element u) (hv : Tail v) :
    Derives .elements (u ++ v) := by
  rcases hv with rfl | ⟨v, rfl, hv⟩
  · rw [List.append_nil]
    exact .single hu
  · exact .more hu hv

theorem derives_elements_name {v : List Kind} (h : Rest .named v) :
    Derives .elements (.name :: v) := by
  rcases h with h | ⟨v, rfl, h⟩
  · exact derives_elements_append .name h
  · exact derives_elements_append .named h

theorem completes_cons_inside {spot : Spot} {outer : Nat} {entry : Entry} {q : Outlook}
    {kind : Kind} {w : List Kind} (hstep : (inside spot outer entry).step kind = some q)
    (h : q.Completes w) : (inside spot outer entry).Completes (kind :: w) := by
  cases spot with
  | element =>
      cases kind with
      | name =>
          cases hstep
          obtain ⟨u, v, rfl, hu, hv⟩ := h
          exact ⟨.name :: u, v, rfl, derives_elements_name hu, hv⟩
      | lbracket =>
          cases hstep
          obtain ⟨u, _, rfl, hu, u', v, rfl, hu', hv⟩ := h
          have helement : Derives .element (.lbracket :: (u ++ [.rbracket])) :=
            .nested (.list hu)
          exact ⟨_, v, by simp, derives_elements_append helement hu', hv⟩
      | _ => cases hstep
  | named =>
      cases kind with
      | equals =>
          cases hstep
          obtain ⟨_, v, rfl, ⟨u, rfl, hu⟩, hv⟩ := h
          exact ⟨.equals :: .name :: u, v, rfl, .inr ⟨u, rfl, hu⟩, hv⟩
      | comma =>
          cases hstep
          obtain ⟨u, v, rfl, hu, hv⟩ := h
          exact ⟨.comma :: u, v, rfl, .inl (.inr ⟨u, rfl, hu⟩), hv⟩
      | rbracket =>
          cases hstep
          exact ⟨[], w, rfl, .inl (.inl rfl), completes_leave.1 h⟩
      | _ => cases hstep
  | bound =>
      cases kind with
      | name =>
          cases hstep
          obtain ⟨u, v, rfl, hu, hv⟩ := h
          exact ⟨.name :: u, v, rfl, ⟨u, rfl, hu⟩, hv⟩
      | _ => cases hstep
  | ended =>
      cases kind with
      | comma =>
          cases hstep
          obtain ⟨u, v, rfl, hu, hv⟩ := h
          exact ⟨.comma :: u, v, rfl, .inr ⟨u, rfl, hu⟩, hv⟩
      | rbracket =>
          cases hstep
          exact ⟨[], w, rfl, .inl rfl, completes_leave.1 h⟩
      | _ => cases hstep

theorem completes_cons_closed {entry : Entry} {q : Outlook} {kind : Kind} {w : List Kind}
    (hstep : (closed entry).step kind = some q) (h : q.Completes w) :
    (closed entry).Completes (kind :: w) := by
  cases entry with
  | list =>
      cases kind with
      | eof =>
          cases hstep
          cases h
          rfl
      | _ => cases hstep
  | assign =>
      cases kind with
      | equals =>
          cases hstep
          obtain ⟨u, _, rfl, hu, rfl⟩ := h
          exact ⟨u, rfl, hu⟩
      | _ => cases hstep
  | stat =>
      cases kind with
      | eof =>
          cases hstep
          cases h
          exact .inl rfl
      | equals =>
          cases hstep
          obtain ⟨u, _, rfl, hu, rfl⟩ := h
          exact .inr ⟨u, rfl, hu⟩
      | _ => cases hstep

/-- What completes the outlook after a kind completes the one before it with the kind put in
    front. -/
theorem completes_cons {q q' : Outlook} {kind : Kind} {w : List Kind}
    (hstep : q.step kind = some q') (h : q'.Completes w) : q.Completes (kind :: w) := by
  cases q with
  | opening entry =>
      cases kind with
      | lbracket =>
          cases hstep
          obtain ⟨u, v, rfl, hu, hv⟩ := h
          exact ⟨.lbracket :: (u ++ [.rbracket]), v, by simp, .list hu, hv⟩
      | _ => cases hstep
  | inside spot outer entry => exact completes_cons_inside hstep h
  | closed entry => exact completes_cons_closed hstep h
  | done => cases kind <;> cases hstep

theorem completes_of_run {q : Outlook} {w : List Kind} (h : q.run w = some done) :
    q.Completes w := by
  induction w generalizing q with
  | nil =>
      cases h
      rfl
  | cons kind w ih =>
      rw [run_cons] at h
      obtain ⟨q', hstep, hrun⟩ := Option.bind_eq_some_iff.1 h
      exact completes_cons hstep (ih hrun)

/-- A word is a sentence iff it leads to the end of the input. -/
theorem sentence_iff {entry : Entry} {w : List Kind} :
    entry.Sentence w ↔ (opening entry).run w = some done := by
  constructor
  · intro h
    cases h with
    | stat h => exact takes_of_derives h
    | list h =>
        rw [run_append, takes_of_derives h _ 0 .list rfl]
        rfl
    | assign h =>
        rw [run_append, takes_of_derives h .assign (by decide)]
        rfl
  · intro h
    obtain ⟨u, v, rfl, hu, hv⟩ := completes_of_run h
    cases entry with
    | list =>
        cases hv
        exact .list hu
    | assign =>
        obtain ⟨u', rfl, hu'⟩ := hv
        have hassign := Derives.assign hu hu'
        simpa using Entry.Sentence.assign hassign
    | stat =>
        rcases hv with rfl | ⟨u', rfl, hu'⟩
        · exact .stat (.listEnd hu)
        · have hassign := Derives.assign hu hu'
          simpa using Entry.Sentence.stat (.assignEnd hassign)

-- ============================================================================
-- Starts of sentences
-- ============================================================================

/-- Brackets can be closed one after the other. -/
theorem exists_run_leave (outer : Nat) (entry : Entry) :
    ∃ w, (leave outer entry).run w = some (closed entry) := by
  induction outer with
  | zero => exact ⟨[], rfl⟩
  | succ outer ih =>
      obtain ⟨w, hw⟩ := ih
      exact ⟨.rbracket :: w, hw⟩

theorem exists_run_closed (entry : Entry) : ∃ w, (closed entry).run w = some done := by
  cases entry with
  | list => exact ⟨[.eof], rfl⟩
  | stat => exact ⟨[.eof], rfl⟩
  | assign => exact ⟨[.equals, .lbracket, .name, .rbracket, .eof], rfl⟩

/-- Every outlook can be brought to the end. -/
theorem exists_run_done (q : Outlook) : ∃ w, q.run w = some done := by
  have hleave : ∀ outer entry, ∃ w, (leave outer entry).run w = some done := by
    intro outer entry
    obtain ⟨u, hu⟩ := exists_run_leave outer entry
    obtain ⟨v, hv⟩ := exists_run_closed entry
    exact ⟨u ++ v, by rw [run_append, hu, Option.bind_some, hv]⟩
  cases q with
  | done => exact ⟨[], rfl⟩
  | closed entry => exact exists_run_closed entry
  | opening entry =>
      obtain ⟨w, hw⟩ := hleave 0 entry
      exact ⟨.lbracket :: .name :: .rbracket :: w, hw⟩
  | inside spot outer entry =>
      obtain ⟨w, hw⟩ := hleave outer entry
      cases spot with
      | element => exact ⟨.name :: .rbracket :: w, hw⟩
      | named => exact ⟨.rbracket :: w, hw⟩
      | bound => exact ⟨.name :: .rbracket :: w, hw⟩
      | ended => exact ⟨.rbracket :: w, hw⟩

/-- A word is the start of a sentence iff it leads anywhere. -/
theorem viable_iff {entry : Entry} {u : List Kind} :
    entry.Viable u ↔ (opening entry).run u ≠ none := by
  constructor
  · rintro ⟨v, hv⟩ hnone
    rw [sentence_iff, run_append, hnone] at hv
    cases hv
  · intro h
    obtain ⟨q, hq⟩ := Option.ne_none_iff_exists'.1 h
    obtain ⟨v, hv⟩ := exists_run_done q
    exact ⟨v, sentence_iff.2 (by rw [run_append, hq, Option.bind_some, hv])⟩

/-- No sentence is the start of another. -/
theorem sentence_append {entry : Entry} {w v : List Kind} (h : entry.Sentence w)
    (h' : entry.Sentence (w ++ v)) : v = [] := by
  have hrun := sentence_iff.1 h'
  rw [run_append, sentence_iff.1 h, Option.bind_some] at hrun
  cases v with
  | nil => rfl
  | cons kind v =>
      rw [run_cons, step_done] at hrun
      cases hrun

-- ============================================================================
-- Outlooks under a limit
-- ============================================================================

/-- How many brackets are open. -/
def level : Outlook → Nat
  | inside _ outer _ => outer + 1
  | opening _ | closed _ | done => 0

/-- The outlook after one more kind, if that kind can come and opens no bracket too many. -/
def stepWithin (limit : Nat) (q : Outlook) (kind : Kind) : Option Outlook :=
  (q.step kind).filter fun q' => q'.level ≤ limit

/-- The outlook after a word that never has more than `limit` brackets open. -/
def runWithin (limit : Nat) : Outlook → List Kind → Option Outlook
  | q, [] => some q
  | q, kind :: w => (q.stepWithin limit kind).bind (runWithin limit · w)

theorem level_inside (spot : Spot) (outer : Nat) (entry : Entry) :
    (inside spot outer entry).level = outer + 1 := rfl

theorem level_leave (outer : Nat) (entry : Entry) : (leave outer entry).level = outer := by
  cases outer <;> rfl

theorem stepWithin_eq {limit : Nat} {q q' : Outlook} {kind : Kind}
    (hstep : q.step kind = some q') (hlevel : q'.level ≤ limit) :
    q.stepWithin limit kind = some q' := by
  rw [stepWithin, hstep, Option.filter_some, if_pos (by simpa using hlevel)]

theorem stepWithin_eq_none {limit : Nat} {q : Outlook} {kind : Kind}
    (h : ∀ q', q.step kind = some q' → limit < q'.level) : q.stepWithin limit kind = none := by
  rw [stepWithin]
  cases hstep : q.step kind with
  | none => rfl
  | some q' =>
      have hlevel := h q' hstep
      rw [Option.filter_some, if_neg (by simpa using hlevel)]

theorem stepWithin_eq_some_iff {limit : Nat} {q q' : Outlook} {kind : Kind} :
    q.stepWithin limit kind = some q' ↔ q.step kind = some q' ∧ q'.level ≤ limit := by
  rw [stepWithin, Option.filter_eq_some_iff]
  simp

theorem runWithin_append (limit : Nat) (q : Outlook) (u v : List Kind) :
    q.runWithin limit (u ++ v) = (q.runWithin limit u).bind (runWithin limit · v) := by
  induction u generalizing q with
  | nil => rfl
  | cons kind u ih =>
      show (q.stepWithin limit kind).bind _ = Option.bind (Option.bind _ _) _
      cases q.stepWithin limit kind with
      | none => rfl
      | some q' => exact ih q'

theorem runWithin_singleton (limit : Nat) (q : Outlook) (kind : Kind) :
    q.runWithin limit [kind] = q.stepWithin limit kind := by
  show (q.stepWithin limit kind).bind _ = _
  cases q.stepWithin limit kind <;> rfl

/-- Only brackets change how many are open. -/
theorem level_step {q q' : Outlook} {kind : Kind} (h : q.step kind = some q') :
    q'.level + [kind].count .rbracket = q.level + [kind].count .lbracket := by
  cases q with
  | opening entry => cases kind <;> cases h; rfl
  | inside spot outer entry =>
      cases spot <;> cases kind <;> cases h <;> simp [level_inside, level_leave]
  | closed entry => cases entry <;> cases kind <;> cases h <;> rfl
  | done => cases kind <;> cases h

theorem level_run {q q' : Outlook} {w : List Kind} (hrun : q.run w = some q') :
    q'.level + w.count .rbracket = q.level + w.count .lbracket := by
  induction w generalizing q with
  | nil =>
      cases hrun
      rfl
  | cons kind w ih =>
      rw [run_cons] at hrun
      obtain ⟨q₁, hstep, hrest⟩ := Option.bind_eq_some_iff.1 hrun
      have hone := level_step hstep
      have hlater := ih hrest
      simp only [List.count_singleton] at hone
      rw [List.count_cons, List.count_cons]
      omega

/-- To stay within a limit is to nest within it, on top of what is open already. -/
theorem runWithin_eq_some_iff {limit : Nat} {q q' : Outlook} {w : List Kind}
    (hlevel : q.level ≤ limit) :
    q.runWithin limit w = some q' ↔ q.run w = some q' ∧
      ∀ u v, w = u ++ v → q.level + u.count .lbracket ≤ u.count .rbracket + limit := by
  induction w generalizing q with
  | nil =>
      refine ⟨fun h => ⟨h, ?_⟩, fun h => h.1⟩
      intro u v hnil
      obtain ⟨rfl, rfl⟩ := List.append_eq_nil_iff.1 hnil.symm
      simpa using hlevel
  | cons kind w ih =>
      constructor
      · intro h
        obtain ⟨q₁, hstep, hrest⟩ := Option.bind_eq_some_iff.1 h
        obtain ⟨hstep, hlevel₁⟩ := stepWithin_eq_some_iff.1 hstep
        obtain ⟨hrun, hnest⟩ := (ih hlevel₁).1 hrest
        refine ⟨by rw [run_cons, hstep, Option.bind_some, hrun], ?_⟩
        intro u v hsplit
        cases u with
        | nil => simpa using hlevel
        | cons kind' u =>
            obtain ⟨rfl, rfl⟩ := List.cons.inj hsplit
            have hone := level_step hstep
            have hbelow := hnest u v rfl
            rw [List.count_cons, List.count_cons]
            simp only [List.count_singleton] at hone
            omega
      · rintro ⟨hrun, hnest⟩
        rw [run_cons] at hrun
        obtain ⟨q₁, hstep, hrest⟩ := Option.bind_eq_some_iff.1 hrun
        have hone := level_step hstep
        have hlevel₁ : q₁.level ≤ limit := by
          have hfirst := hnest [kind] w rfl
          omega
        refine Option.bind_eq_some_iff.2 ⟨q₁, stepWithin_eq hstep hlevel₁, ?_⟩
        refine (ih hlevel₁).2 ⟨hrest, ?_⟩
        intro u v hsplit
        have hbelow := hnest (kind :: u) v (by rw [hsplit, List.cons_append])
        rw [List.count_cons, List.count_cons] at hbelow
        simp only [List.count_singleton] at hone
        omega

/-- The sentences that nest within a limit are the words that lead to the end under it. -/
theorem runWithin_opening_iff {limit : Nat} {entry : Entry} {w : List Kind} :
    (opening entry).runWithin limit w = some done
      ↔ entry.Sentence w ∧ NestsWithin limit w := by
  have hlevel : (opening entry).level = 0 := rfl
  rw [runWithin_eq_some_iff (Nat.zero_le limit), hlevel, ← sentence_iff, NestsWithin]
  simp only [Nat.zero_add]

theorem run_of_runWithin {limit : Nat} {q q' : Outlook} {w : List Kind}
    (h : q.runWithin limit w = some q') : q.run w = some q' := by
  induction w generalizing q with
  | nil => exact h
  | cons kind w ih =>
      obtain ⟨q₁, hstep, hrest⟩ := Option.bind_eq_some_iff.1 h
      rw [run_cons, (stepWithin_eq_some_iff.1 hstep).1]
      exact ih hrest

end Outlook
end Packrat
