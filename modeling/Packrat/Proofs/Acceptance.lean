/-
  Packrat.Proofs.Acceptance

  Parsing the list language accepts exactly the context-free language: a parse
  of an entry returns a match iff some prefix of the input is a sentence of the
  entry that nests within the depth limit.

  The parse makes of the input what a plain reading of the entry says
  (`parse_eq`), with kept outcomes and without; the reading ends in a verdict,
  and a reading that halts tells that no prefix of the input will do.
-/

import Packrat.Proofs.ListSession

namespace Packrat

variable {t : Nat → Token} {limit i m : Nat} {misses : List (Nat × Kind)} {hits : List Nat}

-- ============================================================================
-- Words behind a verdict
-- ============================================================================

/-- Where a reading halts no word ends, and none goes on from there. -/
theorem Halts.runWithin_ne {q : Outlook} (h : Halts t limit q i m misses hits) {n : Nat}
    (hn : i ≤ n) : q.runWithin limit (word t i n) ≠ some .done := by
  obtain ⟨q', hrun, hstep, ⟨kind, hcan⟩, -⟩ := h.run
  intro hdone
  rcases Nat.lt_trichotomy n m with hlt | rfl | hgt
  · -- The end would have come before the halt.
    rw [← word_append t hn (Nat.le_of_lt hlt), Outlook.runWithin_append, hdone,
      Option.bind_some, word_cons t hlt] at hrun
    have hnone : Outlook.done.stepWithin limit (t n).kind = none := by
      rw [Outlook.stepWithin, Outlook.step_done]
      rfl
    rw [Outlook.runWithin, hnone] at hrun
    cases hrun
  · rw [hdone, Option.some.injEq] at hrun
    rw [← hrun, Outlook.step_done] at hcan
    exact hcan rfl
  · rw [← word_append t h.le (Nat.le_of_lt hgt), Outlook.runWithin_append, hrun,
      Option.bind_some, word_cons t hgt, Outlook.runWithin, hstep] at hdone
    cases hdone

/-- Two sentences that start at one place end at one place. -/
theorem Entry.Sentence.stop_unique {entry : Entry} {n n' : Nat}
    (h : entry.Sentence (word t 0 n)) (h' : entry.Sentence (word t 0 n')) : n = n' := by
  have hle : ∀ {a b : Nat}, entry.Sentence (word t 0 a) → entry.Sentence (word t 0 b) → b ≤ a := by
    intro a b ha hb
    by_cases hlt : a < b
    · rw [← word_append t (Nat.zero_le a) (Nat.le_of_lt hlt)] at hb
      have hnil := Outlook.sentence_append ha hb
      rw [word_cons t hlt] at hnil
      cases hnil
    · exact Nat.le_of_not_lt hlt
  exact Nat.le_antisymm (hle h' h) (hle h h')

/-- What a recognition makes of a reading with a verdict: a match of the prefix that is a
    sentence within the limit, if there is one. -/
theorem Verdict.recognition_eq_ok_iff {entry : Entry} {left : Kind → Prop} {r : Reading Bool}
    (h : Verdict t limit (.opening entry) 0 left (· = .done) r) (found : Match) :
    r.recognition t limit 0 = .ok found ↔
      ∃ n, entry.Sentence (word t 0 n) ∧ NestsWithin limit (word t 0 n) ∧
        found = ⟨0, stretch t 0 n⟩ := by
  cases h with
  | passed htarget hresult hhits hreaches =>
      subst htarget
      obtain ⟨hsentence, hnests⟩ := Outlook.runWithin_opening_iff.1 hreaches.run
      have hok : r.recognition t limit 0 = .ok ⟨0, stretch t 0 r.stop⟩ := by
        simp only [Reading.recognition, hresult]
      rw [hok, Except.ok.injEq]
      constructor
      · rintro rfl
        exact ⟨r.stop, hsentence, hnests, rfl⟩
      · rintro ⟨n, hn, -, rfl⟩
        rw [hn.stop_unique hsentence]
  | failed hresult hhalts =>
      have herror : r.recognition t limit 0 = .error (r.failure t limit 0) := by
        simp only [Reading.recognition, hresult]
      rw [herror]
      constructor
      · intro heq
        cases heq
      · rintro ⟨n, hsentence, hnests, -⟩
        exact absurd (Outlook.runWithin_opening_iff.2 ⟨hsentence, hnests⟩)
          (hhalts.runWithin_ne (Nat.zero_le n))

-- ============================================================================
-- Parses
-- ============================================================================

/-- The reading that a recognition of an entry makes from the start of a source. -/
def entryReading {σ : Type} [TokenSource σ] (s : σ) (maxDepth n : Nat) (entry : Entry) :
    Reading Bool :=
  (Engine.groundAt s ListGrammar.grammar (.ofSource ⟨false, maxDepth⟩ s)).read n 0 entry.rule 0

section

variable {σ : Type} [TokenSource σ] {s : σ} {bound n : Nat}

/-- On the fuel that the whole input calls for the reading comes to a verdict. -/
theorem verdict_entryReading (hend : TokenSource.EndsBy (TokenSource.stream s) bound)
    (hfuel : parseFuel bound ≤ n) (maxDepth : Nat) (entry : Entry) :
    Verdict (TokenSource.stream s) maxDepth (.opening entry) 0 (fun _ => True) (· = .done)
      (entryReading s maxDepth n entry) := by
  have hfuel' : 16 * (bound - 0) + 24 ≤ n := by
    simp only [parseFuel] at hfuel
    omega
  have hG : (Engine.groundAt s ListGrammar.grammar (.ofSource ⟨false, maxDepth⟩ s)).grammar
      = ListGrammar.grammar := rfl
  exact Ground.verdict_entry hG hend hfuel' entry

/-- Only the stream matters to a reading that ends, not where it comes from or the fuel. -/
theorem entryReading_eq {σ' : Type} [TokenSource σ'] {s' : σ'} {bound' n' : Nat}
    (hstream : TokenSource.stream s' = TokenSource.stream s)
    (hend : TokenSource.EndsBy (TokenSource.stream s) bound) (hfuel : parseFuel bound ≤ n)
    (hend' : TokenSource.EndsBy (TokenSource.stream s') bound') (hfuel' : parseFuel bound' ≤ n')
    (maxDepth : Nat) (entry : Entry) :
    entryReading s' maxDepth n' entry = entryReading s maxDepth n entry := by
  have hground : Engine.groundAt s' ListGrammar.grammar (.ofSource ⟨false, maxDepth⟩ s')
      = Engine.groundAt s ListGrammar.grammar (.ofSource ⟨false, maxDepth⟩ s) := by
    simp only [Engine.groundAt, hstream]
    rfl
  obtain ⟨a, ha⟩ := (verdict_entryReading hend hfuel maxDepth entry).result
  obtain ⟨b, hb⟩ := (verdict_entryReading hend' hfuel' maxDepth entry).result
  simp only [entryReading, hground] at ha hb ⊢
  exact Ground.read_eq_of_ends _ (by simp [ha]) (by simp [hb])

end

/-- The reading that a parse of an entry makes. -/
def listReading (tokens : List Token) (maxDepth : Nat) (entry : Entry) : Reading Bool :=
  (Engine.groundAt (TokenList.ofTokens tokens) ListGrammar.grammar
    (.ofSource ⟨false, maxDepth⟩ (TokenList.ofTokens tokens))).read
    (parseFuel tokens.length) 0 entry.rule 0

/-- A whole input comes to a verdict. -/
theorem verdict_listReading (tokens : List Token) (maxDepth : Nat) (entry : Entry) :
    Verdict (TokenSource.stream (TokenList.ofTokens tokens)) maxDepth (.opening entry) 0
      (fun _ => True) (· = .done) (listReading tokens maxDepth entry) :=
  verdict_entryReading (TokenList.endsBy_stream_ofTokens tokens) (Nat.le_refl _) maxDepth entry

namespace Engine

/-- A recognition of an entry on enough fuel makes of the input what the reading says, with kept
    outcomes and without. -/
theorem recognizeEntry_eq_reading {σ : Type} [TokenSource σ] {s : σ} {bound n : Nat}
    (hend : TokenSource.EndsBy (TokenSource.stream s) bound) (hfuel : parseFuel bound ≤ n)
    (settings : Settings) (entry : Entry) :
    ∃ e, recognizeEntry n entry (ofSource settings s)
      = .ok ((entryReading s settings.maxDepth n entry).recognition (TokenSource.stream s)
          settings.maxDepth 0) e := by
  obtain ⟨memoize, maxDepth⟩ := settings
  obtain ⟨matched, hends⟩ := (verdict_entryReading hend hfuel maxDepth entry).result
  obtain ⟨e₂, hplain, -⟩ := recognize_of_reading (idle_ofSource ⟨false, maxDepth⟩ s) rfl
    stackFree_list n entry.stackFree_rule hends
  cases memoize with
  | false => exact ⟨e₂, hplain⟩
  | true =>
      have hlockstep := (abreast_ofSource s maxDepth).recognizeEntry (n := n) entry
      rw [show recognizeEntry _ entry _ = _ from hplain] at hlockstep
      obtain ⟨e₁, hkeeping, -⟩ := hlockstep fun hlimitless => hlimitless.elim
      exact ⟨e₁, hkeeping⟩

/-- A parse runs on the fuel that its source calls for. -/
theorem parse_ofSource {σ : Type} [TokenSource σ] (settings : Settings) (s : σ) (entry : Entry) :
    parse entry (ofSource settings s)
      = recognizeEntry (parseFuel (TokenSource.pending s)) entry (ofSource settings s) := by
  have hpending : (ofSource settings s).buffer.pending = TokenSource.pending s := by
    show 0 - 0 + TokenSource.pending s = _
    omega
  show recognizeEntry (parseFuel (ofSource settings s).buffer.pending) entry _ = _
  rw [hpending]

/-- A parse makes of its source what the reading says, with kept outcomes and without. -/
theorem parse_eq_reading {σ : Type} [TokenSource σ] {s : σ}
    (hend : TokenSource.EndsBy (TokenSource.stream s) (TokenSource.pending s))
    (settings : Settings) (entry : Entry) :
    ∃ e, parse entry (ofSource settings s)
      = .ok ((entryReading s settings.maxDepth (parseFuel (TokenSource.pending s))
          entry).recognition (TokenSource.stream s) settings.maxDepth 0) e := by
  rw [parse_ofSource]
  exact recognizeEntry_eq_reading hend (Nat.le_refl _) settings entry

theorem parse_eq (settings : Settings) (tokens : List Token) (entry : Entry) :
    ∃ e, parse entry (ofSource settings (TokenList.ofTokens tokens))
      = .ok ((listReading tokens settings.maxDepth entry).recognition
          (TokenSource.stream (TokenList.ofTokens tokens)) settings.maxDepth 0) e :=
  parse_eq_reading (TokenList.endsBy_stream_ofTokens tokens) settings entry

/-- A parse ends, and it returns a match iff some prefix of the tokens with their end is a
    sentence of the entry that nests within the limit; that prefix is the match, and no other
    prefix is a sentence. -/
theorem parse_eq_ok_iff (settings : Settings) (tokens : List Token) (entry : Entry) :
    let source := TokenList.ofTokens tokens
    let t := TokenSource.stream source
    ∃ result e, parse entry (ofSource settings source) = .ok result e ∧
      (∀ found, result = .ok found ↔
        ∃ n, entry.Sentence (word t 0 n) ∧ NestsWithin settings.maxDepth (word t 0 n) ∧
          found = ⟨0, stretch t 0 n⟩) ∧
      ∀ n n', entry.Sentence (word t 0 n) → entry.Sentence (word t 0 n') → n = n' := by
  intro source t
  obtain ⟨e, hparse⟩ := parse_eq settings tokens entry
  refine ⟨_, e, hparse, ?_, fun n n' h h' => h.stop_unique h'⟩
  exact (verdict_listReading tokens settings.maxDepth entry).recognition_eq_ok_iff

end Engine
end Packrat
