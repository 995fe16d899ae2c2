/-
  Packrat.Proofs.Verdict

  How a reading of the list language stands to what may still come.

  A reading that goes on `Reaches` an outlook: everything it read can come, and
  of all that can come next it has tried, and noted, whatever is not `left` to
  be tried.  A reading that cannot go on `Halts` at a token: up to there
  everything can come, then something else would have to, and the token there
  cannot under the limit on open brackets; if the depth limit was not hit, the
  token cannot come at all, no mismatch lies behind it, those noted there are all
  kinds that can come, and a bracket among them would not be one too many
  (`Exhausted`).
-/

import Packrat.Proofs.Outlook
import Packrat.Proofs.Reading

namespace Packrat

variable {t : Nat → Token} {limit : Nat} {q q' q'' : Outlook} {i j m : Nat}
variable {left : Kind → Prop} {misses misses' : List (Nat × Kind)} {hits hits' : List Nat}

/-- The tokens from `i` to `j` lead from one outlook to the other, and of the kinds that can
    come at `j` those were noted that are not left to be tried.  A bracket is tried only if it may
    be opened. -/
structure Reaches (t : Nat → Token) (limit : Nat) (q : Outlook) (i : Nat) (left : Kind → Prop)
    (q' : Outlook) (j : Nat) (misses : List (Nat × Kind)) : Prop where
  lt : i < j
  run : q.runWithin limit (word t i j) = some q'
  le : ∀ miss ∈ misses, miss.1 ≤ j
  noted : ∀ kind, (j, kind) ∈ misses ↔ q'.step kind ≠ none ∧ ¬left kind
  next : q'.step (t j).kind ≠ none → left (t j).kind
  room : q'.step .lbracket ≠ none → ¬left .lbracket → q'.level < limit

/-- All that can come at `m` was tried and noted, and nothing behind it; a bracket, if one can come,
    is not one too many. -/
structure Exhausted (t : Nat → Token) (limit : Nat) (q : Outlook) (m : Nat)
    (misses : List (Nat × Kind)) : Prop where
  none : q.step (t m).kind = none
  le : ∀ miss ∈ misses, miss.1 ≤ m
  noted : ∀ kind, (m, kind) ∈ misses ↔ q.step kind ≠ Option.none
  room : q.step .lbracket ≠ Option.none → q.level < limit

/-- The tokens from `i` to `m` lead to an outlook at which token `m` is one too many. -/
structure Halts (t : Nat → Token) (limit : Nat) (q : Outlook) (i m : Nat)
    (misses : List (Nat × Kind)) (hits : List Nat) : Prop where
  le : i ≤ m
  run : ∃ q', q.runWithin limit (word t i m) = some q' ∧
    q'.stepWithin limit (t m).kind = none ∧ (∃ kind, q'.step kind ≠ none) ∧
    (hits = [] → Exhausted t limit q' m misses)

-- ============================================================================
-- Going on
-- ============================================================================

/-- One token that can come. -/
theorem Reaches.token (hstep : q.step (t i).kind = some q') (hlevel : q'.level ≤ limit)
    (hmisses : ∀ miss ∈ misses, miss.1 = i) :
    Reaches t limit q i (fun _ => True) q' (i + 1) misses where
  lt := Nat.lt_succ_self i
  run := by
    rw [word_succ t (Nat.le_refl i), word_self, List.nil_append, Outlook.runWithin_singleton]
    exact Outlook.stepWithin_eq hstep hlevel
  le := by
    intro miss hmem
    rw [hmisses miss hmem]
    exact Nat.le_succ i
  noted := by
    intro kind
    simp only [not_true, and_false, iff_false]
    intro hmem
    have hmiss := hmisses _ hmem
    omega
  next _ := trivial
  room _ hleft := absurd trivial hleft

theorem Reaches.append {left' : Kind → Prop} (h : Reaches t limit q i left q' j misses)
    (h' : Reaches t limit q' j left' q'' m misses') :
    Reaches t limit q i left' q'' m (misses ++ misses') where
  lt := Nat.lt_trans h.lt h'.lt
  run := by
    rw [← word_append t (Nat.le_of_lt h.lt) (Nat.le_of_lt h'.lt), Outlook.runWithin_append,
      h.run, Option.bind_some, h'.run]
  le := by
    intro miss hmem
    rcases List.mem_append.1 hmem with hmem | hmem
    · exact Nat.le_trans (h.le miss hmem) (Nat.le_of_lt h'.lt)
    · exact h'.le miss hmem
  noted := by
    intro kind
    rw [← h'.noted, List.mem_append, or_iff_right]
    intro hmem
    exact absurd (h.le _ hmem) (Nat.not_le.2 h'.lt)
  next := h'.next
  room := h'.room

/-- A kind that can come, and is no bracket, was tried in vain, and is noted. -/
theorem Reaches.miss (h : Reaches t limit q i left q' j misses) {kind : Kind}
    (hkind : (t j).kind ≠ kind) (hstep : q'.step kind ≠ none) (hplain : .lbracket ≠ kind) :
    Reaches t limit q i (fun k => left k ∧ k ≠ kind) q' j (misses ++ [(j, kind)]) where
  lt := h.lt
  run := h.run
  le := by
    intro miss hmem
    rcases List.mem_append.1 hmem with hmem | hmem
    · exact h.le miss hmem
    · obtain rfl := List.mem_singleton.1 hmem
      exact Nat.le_refl j
  noted := by
    intro k
    rw [List.mem_append, h.noted, List.mem_singleton, Prod.mk.injEq]
    constructor
    · rintro (⟨hcan, hleft⟩ | ⟨-, rfl⟩)
      · exact ⟨hcan, fun hboth => hleft hboth.1⟩
      · exact ⟨hstep, fun hboth => hboth.2 rfl⟩
    · rintro ⟨hcan, hnot⟩
      by_cases hk : k = kind
      · exact .inr ⟨rfl, hk⟩
      · exact .inl ⟨hcan, fun hleft => hnot ⟨hleft, hk⟩⟩
  next hcan := ⟨h.next hcan, hkind⟩
  room hopen hnot := h.room hopen fun hleft => hnot ⟨hleft, hplain⟩

/-- What was noted already may be noted again. -/
theorem Reaches.again (h : Reaches t limit q i left q' j misses)
    (hsub : ∀ miss ∈ misses', miss ∈ misses) :
    Reaches t limit q i left q' j (misses ++ misses') where
  lt := h.lt
  run := h.run
  le miss hmem := h.le miss ((List.mem_append.1 hmem).elim (fun h => h) (hsub miss))
  noted kind := by
    rw [← h.noted, List.mem_append, or_iff_left_iff_imp]
    exact hsub _
  next := h.next
  room := h.room

/-- Only the kinds that can come matter among those that are left. -/
theorem Reaches.weaken {left' : Kind → Prop} (h : Reaches t limit q i left q' j misses)
    (hleft : ∀ kind, q'.step kind ≠ none → (left kind ↔ left' kind)) :
    Reaches t limit q i left' q' j misses where
  lt := h.lt
  run := h.run
  le := h.le
  noted kind := by
    rw [h.noted]
    exact and_congr_right fun hcan => not_congr (hleft kind hcan)
  next hcan := (hleft _ hcan).1 (h.next hcan)
  room hopen hnot := h.room hopen (mt (hleft _ hopen).1 hnot)

-- ============================================================================
-- Coming to a halt
-- ============================================================================

/-- Where nothing is left to be tried, a reading comes to a halt. -/
theorem Reaches.halts (h : Reaches t limit q i left q' j misses)
    (hcan : ∃ kind, q'.step kind ≠ none) (hleft : ∀ kind, q'.step kind ≠ none → ¬left kind)
    (hits : List Nat) :
    Halts t limit q i j misses hits := by
  have hnone : q'.step (t j).kind = none := by
    by_cases hnext : q'.step (t j).kind = none
    · exact hnext
    · exact absurd (h.next hnext) (hleft _ hnext)
  refine ⟨Nat.le_of_lt h.lt, q', h.run, ?_, hcan, fun _ => ?_⟩
  · apply Outlook.stepWithin_eq_none
    intro q'' hstep
    rw [hnone] at hstep
    cases hstep
  · refine ⟨hnone, h.le, fun kind => ?_, fun hopen => h.room hopen (hleft _ hopen)⟩
    rw [h.noted]
    exact ⟨fun hnoted => hnoted.1, fun hcan => ⟨hcan, hleft kind hcan⟩⟩

/-- A halt further on is a halt for all that was read. -/
theorem Reaches.append_halts (h : Reaches t limit q i left q' j misses)
    (h' : Halts t limit q' j m misses' hits) :
    Halts t limit q i m (misses ++ misses') hits := by
  have hlt := h.lt
  have hle := h'.le
  obtain ⟨q'', hrun, hstep, hcan, hexact⟩ := h'.run
  refine ⟨by omega, q'', ?_, hstep, hcan, fun hhits => ?_⟩
  · rw [← word_append t (Nat.le_of_lt hlt) hle, Outlook.runWithin_append, h.run,
      Option.bind_some, hrun]
  · obtain ⟨hnone, hle', hnoted, hroom⟩ := hexact hhits
    refine ⟨hnone, ?_, fun kind => ?_, hroom⟩
    · intro miss hmem
      rcases List.mem_append.1 hmem with hmem | hmem
      · exact Nat.le_trans (h.le miss hmem) hle
      · exact hle' miss hmem
    · rw [← hnoted, List.mem_append]
      refine ⟨?_, .inr⟩
      rintro (hmem | hmem)
      · -- What was noted on the way can stand at `m` only if nothing was read since.
        obtain rfl : j = m := Nat.le_antisymm hle (h.le _ hmem)
        rw [word_self] at hrun
        obtain rfl : q' = q'' := Option.some.inj hrun
        exact (hnoted kind).2 ((h.noted kind).1 hmem).1
      · exact hmem

/-- Mismatches before the halt, or noted already, change nothing. -/
theorem Halts.mono (h : Halts t limit q i m misses hits)
    (hsub : ∀ miss ∈ misses, miss ∈ misses')
    (hnew : ∀ miss ∈ misses', miss.1 < m ∨ miss ∈ misses) (hhits : hits' = [] → hits = []) :
    Halts t limit q i m misses' hits' := by
  obtain ⟨q', hrun, hstep, hcan, hexact⟩ := h.run
  refine ⟨h.le, q', hrun, hstep, hcan, fun hnil => ?_⟩
  obtain ⟨hnone, hle, hnoted, hroom⟩ := hexact (hhits hnil)
  refine ⟨hnone, ?_, fun kind => ?_, hroom⟩
  · intro miss hmem
    rcases hnew miss hmem with hlt | hmem
    · exact Nat.le_of_lt hlt
    · exact hle miss hmem
  · rw [← hnoted]
    refine ⟨fun hmem => ?_, hsub _⟩
    rcases hnew _ hmem with hlt | hmem
    · exact absurd hlt (Nat.lt_irrefl m)
    · exact hmem

/-- A halt remains one when earlier tokens are tried again. -/
theorem Halts.append (h : Halts t limit q i m misses hits)
    (hearlier : ∀ miss ∈ misses', miss.1 < m) (hits' : List Nat) :
    Halts t limit q i m (misses ++ misses') (hits ++ hits') := by
  refine h.mono (fun miss hmem => List.mem_append_left _ hmem) ?_ fun hnil =>
    (List.append_eq_nil_iff.1 hnil).1
  intro miss hmem
  exact (List.mem_append.1 hmem).symm.imp_left (hearlier miss)

-- ============================================================================
-- Readings
-- ============================================================================

/-- The reading with mismatches that were noted before it. -/
def Reading.behind {α : Type} (before : List (Nat × Kind)) (r : Reading α) : Reading α :=
  { r with misses := before ++ r.misses }

theorem Reading.behind_nil {α : Type} (r : Reading α) : r.behind [] = r := rfl

theorem Reading.behind_andThen {α β : Type} (before : List (Nat × Kind)) (r : Reading α)
    (f : α → Pass β) : (r.andThen f).behind before = (r.behind before).andThen f := by
  cases hresult : r.result with
  | ok a =>
      have hbehind : (r.behind before).result = .ok a := hresult
      rw [Reading.andThen_of_ok hresult, Reading.andThen_of_ok hbehind]
      simp [Reading.behind, Reading.append]
  | error fault =>
      have hbehind : (r.behind before).result = .error fault := hresult
      rw [Reading.andThen_of_error hresult, Reading.andThen_of_error hbehind]
      rfl

/-- The reading passes and reaches a target, or fails and halts. -/
inductive Verdict (t : Nat → Token) (limit : Nat) (q : Outlook) (i : Nat) (left : Kind → Prop)
    (target : Outlook → Prop) (r : Reading Bool) : Prop where
  | passed {q' : Outlook} (htarget : target q') (hresult : r.result = .ok true)
      (hhits : r.hits = []) (hreaches : Reaches t limit q i left q' r.stop r.misses)
  | failed {m : Nat} (hresult : r.result = .ok false)
      (hhalts : Halts t limit q i m r.misses r.hits)

/-- The reading passes, but it went back before an `=`, and what it saw behind that halts. -/
structure Doomed (t : Nat → Token) (limit : Nat) (q : Outlook) (i : Nat) (r : Reading Bool) :
    Prop where
  result : r.result = .ok true
  equals : (t r.stop).kind = .equals
  halts : ∃ m, r.stop < m ∧ Halts t limit q i m r.misses r.hits

variable {target target' : Outlook → Prop} {left' : Kind → Prop}

theorem Verdict.result {r : Reading Bool} (h : Verdict t limit q i left target r) :
    ∃ matched, r.result = .ok matched := by
  cases h with
  | passed _ hresult _ _ => exact ⟨true, hresult⟩
  | failed hresult _ => exact ⟨false, hresult⟩

theorem Verdict.imp {r : Reading Bool} (h : Verdict t limit q i left target r)
    (htarget : ∀ q', target q' →
      target' q' ∧ ∀ kind, q'.step kind ≠ none → (left kind ↔ left' kind)) :
    Verdict t limit q i left' target' r := by
  cases h with
  | passed hat hresult hhits hreaches =>
      exact .passed (htarget _ hat).1 hresult hhits (hreaches.weaken (htarget _ hat).2)
  | failed hresult hhalts => exact .failed hresult hhalts

/-- A verdict on what comes behind a reading that passed is one on both. -/
theorem Verdict.after {α : Type} {r : Reading α} {r' : Reading Bool}
    (h : Reaches t limit q i left q' r.stop r.misses) (hhits : r.hits = [])
    (h' : Verdict t limit q' r.stop left' target r') :
    Verdict t limit q i left' target (r.append r') := by
  have hsame : (r.append r').hits = r'.hits := by simp [Reading.append, hhits]
  cases h' with
  | passed htarget hresult hhits' hreaches =>
      exact .passed htarget hresult (hsame.trans hhits') (h.append hreaches)
  | failed hresult hhalts =>
      have hboth := h.append_halts hhalts
      rw [← hsame] at hboth
      exact .failed hresult hboth

theorem Doomed.after {α : Type} {r : Reading α} {r' : Reading Bool}
    (h : Reaches t limit q i left q' r.stop r.misses) (hhits : r.hits = [])
    (h' : Doomed t limit q' r.stop r') : Doomed t limit q i (r.append r') := by
  have hsame : (r.append r').hits = r'.hits := by simp [Reading.append, hhits]
  obtain ⟨m, hlt, hhalts⟩ := h'.halts
  refine ⟨h'.result, h'.equals, m, hlt, ?_⟩
  rw [hsame]
  exact h.append_halts hhalts

/-- A failure stays one if nothing more is tried. -/
theorem Verdict.failed_append {α : Type} {r : Reading α} {r' : Reading Bool}
    (hhalts : Halts t limit q i m r.misses r.hits) (hresult : r'.result = .ok false)
    (hearlier : ∀ miss ∈ r'.misses, miss.1 < m) :
    Verdict t limit q i left target (r.append r') :=
  .failed hresult (hhalts.append hearlier _)

section

variable {ν : Type} {G : Ground ν} {kind : Kind} {r : Reading Bool}

/-- Where one kind is all that is left to be tried, it passes or the reading fails. -/
theorem Verdict.thenKind (h : Verdict G.tokens limit q i left target r)
    (hstep : ∀ q', target q' → ∃ q'', q'.step kind = some q'' ∧ q''.level ≤ limit ∧ target' q'')
    (hlast : ∀ q', target q' → ∀ k, q'.step k ≠ none → left k → k = kind)
    (hplain : .lbracket ≠ kind) :
    Verdict G.tokens limit q i (fun _ => True) target'
      (r.andThen fun a => if a then G.takeKind kind else pure false) := by
  cases h with
  | @passed q' htarget hresult hhits hreaches =>
      obtain ⟨q'', hnext, hlevel, htarget'⟩ := hstep _ htarget
      rw [Reading.andThen_of_ok hresult, if_pos rfl]
      by_cases hkind : (G.tokens r.stop).kind = kind
      · rw [G.takeKind_of_eq hkind]
        refine .after hreaches hhits (.passed htarget' rfl rfl (.token ?_ hlevel (by simp)))
        rw [hkind, hnext]
      · have hcan : q'.step kind ≠ none := by simp [hnext]
        have hmiss := hreaches.miss hkind hcan hplain
        rw [G.takeKind_of_ne hkind]
        refine .failed rfl (hmiss.halts ⟨kind, hcan⟩ ?_ _)
        rintro k hcan ⟨hleft, hne⟩
        exact hne (hlast _ htarget k hcan hleft)
  | failed hresult hhalts =>
      rw [Reading.andThen_of_ok hresult]
      exact .failed_append hhalts rfl (by simp [Pass.pure_apply])

/-- What went back before an `=` fails at any other kind. -/
theorem Doomed.thenKind (h : Doomed G.tokens limit q i r) (hkind : kind ≠ .equals) :
    Verdict G.tokens limit q i left target
      (r.andThen fun a => if a then G.takeKind kind else pure false) := by
  obtain ⟨m, hlt, hhalts⟩ := h.halts
  have hnext : (G.tokens r.stop).kind ≠ kind := by
    rw [h.equals]
    exact hkind.symm
  rw [Reading.andThen_of_ok h.result, if_pos rfl, G.takeKind_of_ne hnext]
  exact .failed_append hhalts rfl (by simpa using hlt)

end

/-- Going back after a failure does not change the verdict. -/
theorem Verdict.rewind_behind {p : Pass Bool} {before : List (Nat × Kind)}
    (h : Verdict t limit q i left target ((p i).behind before)) :
    Verdict t limit q i left target ((p.rewind i).behind before) := by
  cases h with
  | passed htarget hresult hhits hreaches =>
      have hpass : (p i).result = .ok true := hresult
      have hstay : p.rewind i = p i := by simp [Pass.rewind, hpass]
      rw [hstay]
      exact .passed htarget hresult hhits hreaches
  | failed hresult hhalts =>
      have hfail : (p i).result = .ok false := hresult
      have hback : p.rewind i = { p i with stop := i } := by simp [Pass.rewind, hfail]
      rw [hback]
      exact .failed hresult hhalts

theorem Verdict.rewind {p : Pass Bool} (h : Verdict t limit q i left target (p i)) :
    Verdict t limit q i left target (p.rewind i) := by
  rw [← Reading.behind_nil (p i)] at h
  rw [← Reading.behind_nil (p.rewind i)]
  exact h.rewind_behind

/-- A verdict on what comes behind earlier mismatches. -/
theorem Verdict.behind {r : Reading Bool} (h : Reaches t limit q i left q' j misses)
    (h' : Verdict t limit q' j left' target r) :
    Verdict t limit q i left' target (r.behind misses) := by
  cases h' with
  | passed htarget hresult hhits hreaches =>
      exact .passed htarget hresult hhits (h.append hreaches)
  | failed hresult hhalts => exact .failed hresult (h.append_halts hhalts)

theorem Doomed.rewind {p : Pass Bool} (h : Doomed t limit q i (p i)) :
    Doomed t limit q i (p.rewind i) := by
  have hstay : p.rewind i = p i := by simp [Pass.rewind, h.result]
  rw [hstay]
  exact h

/-- The one pass, or else the other from the same place. -/
theorem Verdict.either {p₁ p₂ : Pass Bool} (hresult : (p₁ i).result = .ok false)
    (hstop : (p₁ i).stop = i) (hhits : (p₁ i).hits = [])
    (h : Verdict t limit q i left target ((p₂ i).behind (p₁ i).misses)) :
    Verdict t limit q i left target ((do
      if ← p₁ then return true
      else if ← p₂ then return true else return false : Pass Bool) i) := by
  have hboth : ∀ matched, (p₂ i).result = .ok matched → (do
      if ← p₁ then return true
      else if ← p₂ then return true else return false : Pass Bool) i
      = (p₁ i).append ((p₂ i).append ((pure matched : Pass Bool) (p₂ i).stop)) := by
    intro matched hresult'
    rw [Pass.bind_apply, Reading.andThen_of_ok hresult, hstop]
    simp only [Bool.false_eq_true, if_false, Pass.bind_apply]
    rw [Reading.andThen_of_ok hresult']
    cases matched <;> rfl
  cases h with
  | passed htarget hresult' hhits' hreaches =>
      rw [hboth true hresult']
      refine .passed htarget rfl ?_ ?_
      · have hnil : (p₂ i).hits = [] := hhits'
        simp [Reading.append, hhits, hnil, Pass.pure_apply]
      · simpa [Reading.append, Reading.behind, Pass.pure_apply] using hreaches
  | @failed m hresult' hhalts =>
      rw [hboth false hresult']
      have hsame : Halts t limit q i m ((p₁ i).misses ++ ((p₂ i).misses ++ []))
          ((p₁ i).hits ++ ((p₂ i).hits ++ [])) := by
        simpa [Reading.behind, hhits] using hhalts
      exact .failed rfl hsame

theorem Verdict.either_of_ok {p₁ p₂ : Pass Bool} (hresult : (p₁ i).result = .ok true)
    (h : Verdict t limit q i left target (p₁ i)) :
    Verdict t limit q i left target ((do
      if ← p₁ then return true
      else if ← p₂ then return true else return false : Pass Bool) i) := by
  rw [Pass.bind_apply, Reading.andThen_of_ok hresult, if_pos rfl]
  cases h with
  | passed htarget _ hhits hreaches =>
      refine .passed htarget rfl ?_ ?_
      · simp [Reading.append, hhits, Pass.pure_apply]
      · simpa [Reading.append, Pass.pure_apply] using hreaches
  | failed hfail => rw [hresult] at hfail; cases hfail

/-- Neither passes, and the second notes nothing that the first did not. -/
theorem Verdict.either_of_halts {p₁ p₂ : Pass Bool} (hresult : (p₁ i).result = .ok false)
    (hstop : (p₁ i).stop = i) (hresult' : (p₂ i).result = .ok false)
    (hhalts : Halts t limit q i m (p₁ i).misses (p₁ i).hits)
    (hsub : ∀ miss ∈ (p₂ i).misses, miss ∈ (p₁ i).misses) :
    Verdict t limit q i left target ((do
      if ← p₁ then return true
      else if ← p₂ then return true else return false : Pass Bool) i) := by
  rw [Pass.bind_apply, Reading.andThen_of_ok hresult, hstop]
  simp only [Bool.false_eq_true, if_false, Pass.bind_apply]
  rw [Reading.andThen_of_ok hresult']
  refine .failed rfl (hhalts.mono ?_ ?_ ?_)
  · intro miss hmem
    exact List.mem_append_left _ hmem
  · intro miss hmem
    rcases List.mem_append.1 hmem with hmem | hmem
    · exact .inr hmem
    · exact .inr (hsub miss (by simpa [Reading.append, Pass.pure_apply] using hmem))
  · intro hnil
    exact (List.append_eq_nil_iff.1 hnil).1

end Packrat
