/-
  Packrat.Proofs.SourceParse

  Parsing a text, characters and all (`parseSource_eq`).  The scanner only runs
  as far as the parse pulls tokens, so an invalid character is found exactly if
  some token behind it was pulled.  A parse that accepts has pulled every token,
  and one that rejects has pulled the token that it reports: the first invalid
  character of the text is reported unless the parse rejects a token before it.
-/

import Packrat.Proofs.Acceptance
import Packrat.Proofs.Coherence
import Packrat.Proofs.Scanning

namespace Packrat

-- ============================================================================
-- Sentences of whole inputs
-- ============================================================================

namespace Outlook

theorem eq_done_of_step_eof {q q' : Outlook} (h : q.step .eof = some q') : q' = done := by
  cases q with
  | opening entry => cases h
  | inside spot outer entry => cases spot <;> cases h
  | closed entry =>
      cases entry with
      | stat => exact (Option.some.inj h).symm
      | list => exact (Option.some.inj h).symm
      | assign => cases h
  | done => cases h

theorem eq_eof_of_step_done {q : Outlook} {kind : Kind} (h : q.step kind = some done) :
    kind = .eof := by
  cases q with
  | opening entry => cases kind <;> cases h
  | inside spot outer entry => cases spot <;> cases kind <;> cases outer <;> cases h
  | closed entry => cases entry <;> cases kind <;> first | rfl | cases h
  | done => cases kind <;> cases h

end Outlook

/-- A sentence at the start of a stream ends with the first end of input. -/
theorem Entry.Sentence.stop_eq {entry : Entry} {t : Nat → Token} {m n : Nat}
    (h : entry.Sentence (word t 0 m)) (hbefore : ∀ i < n, (t i).kind ≠ .eof)
    (heof : (t n).kind = .eof) : m = n + 1 := by
  have hrun := Outlook.sentence_iff.1 h
  have hm : m ≠ 0 := by
    rintro rfl
    rw [word_self] at hrun
    cases hrun
  obtain ⟨m, rfl⟩ : ∃ k, m = k + 1 := ⟨m - 1, by omega⟩
  have hlast : n ≤ m := by
    rw [word_succ t (Nat.zero_le m), Outlook.run_append] at hrun
    obtain ⟨q, -, hstep⟩ := Option.bind_eq_some_iff.1 hrun
    rw [Outlook.run_singleton] at hstep
    by_cases hlt : m < n
    · exact absurd (Outlook.eq_eof_of_step_done hstep) (hbefore m hlt)
    · omega
  by_cases hlt : n < m
  · -- The end of input would be read in the middle of the sentence.
    rw [← word_append t (Nat.zero_le n) (by omega), Outlook.run_append] at hrun
    obtain ⟨q, -, hrun⟩ := Option.bind_eq_some_iff.1 hrun
    rw [word_cons t (by omega), Outlook.run_cons, heof] at hrun
    obtain ⟨q', hstep, hrun⟩ := Option.bind_eq_some_iff.1 hrun
    rw [Outlook.eq_done_of_step_eof hstep, word_cons t (by omega), Outlook.run_cons,
      Outlook.step_done] at hrun
    cases hrun
  · omega

namespace Engine

-- ============================================================================
-- The parse behind the scanner
-- ============================================================================

/-- Parsing a text comes to the same as parsing its tokens. -/
theorem exists_parse_text (source : String) (settings : Settings) (entry : Entry) :
    ∃ parsed e e', parse entry (ofSource settings (Scanner.ofSource source)) = .ok parsed e ∧
      parse entry (ofSource settings (TokenList.ofTokens (lex source).1)) = .ok parsed e' ∧
      ∀ found, parsed = .ok found ↔ entry.Sentence ((lex source).1.map Token.kind) ∧
        NestsWithin settings.maxDepth ((lex source).1.map Token.kind) ∧
        found = ⟨0, (lex source).1⟩ := by
  have hstream := stream_tokens_lex source
  have hend : TokenSource.EndsBy _ (TokenSource.pending (Scanner.ofSource source)) :=
    Scanner.endsBy_stream (.ofSource source)
  have hend' : TokenSource.EndsBy _ (TokenSource.pending (TokenList.ofTokens (lex source).1)) :=
    TokenList.endsBy_stream_ofTokens (lex source).1
  obtain ⟨e, hparse⟩ := parse_eq_reading hend settings entry
  obtain ⟨e', hparse'⟩ := parse_eq_reading hend' settings entry
  have hverdict := verdict_entryReading hend (Nat.le_refl _) settings.maxDepth entry
  rw [hstream, entryReading_eq hstream hend (Nat.le_refl _) hend' (Nat.le_refl _)] at hparse'
  refine ⟨_, e, e', hparse, hparse', fun found => ?_⟩
  rw [hverdict.recognition_eq_ok_iff]
  obtain ⟨n, hlex, hbefore, heof⟩ := lex_eq source
  have hkinds : ∀ m, entry.Sentence (word (TokenSource.stream (Scanner.ofSource source)) 0 m) →
      m = n + 1 := fun m hm =>
    hm.stop_eq (fun i hi => by simpa [Token.isEof] using hbefore i hi)
      (by simpa [Token.isEof] using heof)
  rw [hlex]
  constructor
  · rintro ⟨m, hsentence, hnests, hfound⟩
    obtain rfl := hkinds m hsentence
    exact ⟨hsentence, hnests, hfound⟩
  · rintro ⟨hsentence, hnests, hfound⟩
    exact ⟨n + 1, hsentence, hnests, hfound⟩

/-- The state that a parse of a text ends in: its source was pulled as often as the buffer says,
    and what was accepted or reported lies in the tokens that were pulled. -/
theorem pulled_of_parse_text {source : String} {settings : Settings} {entry : Entry}
    {parsed : Except ParseError Match} {e : Engine Scanner}
    (hparse : parse entry (ofSource settings (Scanner.ofSource source)) = .ok parsed e) :
    e.buffer.source = TokenSource.after (Scanner.ofSource source) e.buffer.pulled ∧
      (∀ found, parsed = .ok found → found.stop ≤ e.buffer.pulled) ∧
      ∀ err, parsed = .error err → ∃ i, i < e.buffer.pulled ∧
        err.IsAbout (TokenSource.stream (Scanner.ofSource source)) i := by
  rw [parse_ofSource] at hparse
  obtain ⟨hcoherent, hfound, herror⟩ :=
    (coherent_ofSource settings (Scanner.ofSource source)).recognizing
      (.eval stackFree_list _ entry.stackFree_rule) (.eval stackFree_list _ entry.stackFree_rule)
      hparse
  exact ⟨hcoherent.window.source_eq, hfound, herror⟩

/-- The invalid characters that a parse comes across are the first of the text, and all of them
    if it accepts. -/
theorem errors_of_parse_text {source : String} {settings : Settings} {entry : Entry}
    {parsed : Except ParseError Match} {e : Engine Scanner}
    (hparse : parse entry (ofSource settings (Scanner.ofSource source)) = .ok parsed e) :
    ∃ later, e.buffer.source.errors ++ later = (lex source).2 ∧
      ∀ found, parsed = .ok found → later = [] := by
  obtain ⟨hsource, hpulled, -⟩ := pulled_of_parse_text hparse
  obtain ⟨parsed', _, _, hparse', -, hiff⟩ := exists_parse_text source settings entry
  obtain rfl : parsed = parsed' := by
    rw [hparse] at hparse'
    injection hparse'
  obtain ⟨n, hlex, -, heof⟩ := lex_eq source
  obtain ⟨front, hfront⟩ := (Scanner.behind_ofSource source).after e.buffer.pulled
  refine ⟨_, by rw [hsource, hlex]; exact hfront.errors_append, fun found hok => ?_⟩
  -- Whoever accepts has seen the end of the input.
  obtain ⟨-, -, rfl⟩ := (hiff found).1 hok
  have hstop := hpulled _ hok
  simp only [hlex, Match.stop, Match.length, length_stretch] at hstop
  rw [Scanner.rest_after_of_isEof heof (i := e.buffer.pulled) (by omega)]
  rfl

end Engine

-- ============================================================================
-- Which error wins
-- ============================================================================

theorem ParseError.IsAbout.span_eq {t : Nat → Token} {i : Nat} {err : ParseError}
    (h : err.IsAbout t i) : err.span = (t i).span := by
  cases err with
  | lexical error => exact h.elim
  | syntaxError err =>
      obtain ⟨expected, rfl⟩ := h
      rfl
  | nestingLimit limit position span => exact h.2

/-- What is found so far of the invalid characters of a text: as long as it is nothing, none of
    them lies before a token that was pulled. -/
theorem start_le_of_errors_nil {source : String} (hfits : source.utf8ByteSize < 2 ^ 32)
    {pulled i : Nat} (hnone : (TokenSource.after (Scanner.ofSource source) pulled).errors = [])
    (hi : i < pulled) {error : InvalidCharacter} (hmem : error ∈ invalids 0 source.toList) :
    (TokenSource.stream (Scanner.ofSource source) i).span.start.toNat
      ≤ error.span.start.toNat := by
  have hbehind := Scanner.behind_ofSource source
  have hend := Scanner.toNat_endOffset_ofSource hfits
  rw [← Text.byteLength_toList] at hfits
  obtain ⟨front, hfront⟩ := hbehind.after pulled
  rw [← hfront.errors_append, hnone, List.nil_append] at hmem
  have hlength : (TokenSource.after (Scanner.ofSource source) pulled).offset
      + Text.byteLength (TokenSource.after (Scanner.ofSource source) pulled).rest < 2 ^ 32 := by
    rwa [hfront.offset_eq, ← Text.byteLength_append, ← hfront.text_eq]
  exact Nat.le_trans (hbehind.start_le_offset hfits hend hi) (bounds_of_mem_invalids hlength hmem).1

/-- Each invalid character of a text is found where it stands. -/
theorem exists_mem_invalids {source : String} (hfits : source.utf8ByteSize < 2 ^ 32)
    {u v : List Char} {c : Char} (htext : source.toList = u ++ c :: v)
    (hclass : CharClass.of c = .invalid) :
    ∃ error ∈ invalids 0 source.toList, error.span.start.toNat = Text.byteLength u := by
  rw [← Text.byteLength_toList, htext, Text.byteLength_append, Text.byteLength_cons] at hfits
  rw [htext, invalids_append, invalids_cons_of_invalid hclass, Nat.zero_add]
  refine ⟨_, List.mem_append_right _ List.mem_cons_self, ?_⟩
  exact Span.toNat_start_clamped (Nat.le_add_right _ _) (by omega)

/-- What a parse comes to, given the invalid characters that the scanner has come across: the first
    of these wins. -/
def outcome (skipped : List InvalidCharacter) (parsed : Except ParseError Match) :
    Except ParseError Match :=
  match skipped with
  | [] => parsed
  | first :: _ => .error (.lexical first)

@[simp] theorem outcome_nil (parsed : Except ParseError Match) : outcome [] parsed = parsed := rfl

@[simp] theorem outcome_cons (first : InvalidCharacter) (rest : List InvalidCharacter)
    (parsed : Except ParseError Match) :
    outcome (first :: rest) parsed = .error (.lexical first) := rfl

theorem outcome_eq_ok_iff {skipped : List InvalidCharacter} {parsed : Except ParseError Match}
    {found : Match} : outcome skipped parsed = .ok found ↔ skipped = [] ∧ parsed = .ok found := by
  cases skipped <;> simp

section

variable {source : String} {entry : Entry} {settings : Settings}
  {parsed : Except ParseError Match} {e : Engine Scanner}

theorem parseSource_of_parse
    (hparse : Engine.parse entry (.ofSource settings (Scanner.ofSource source)) = .ok parsed e) :
    parseSource source entry settings = .ok (outcome e.buffer.source.errors parsed) := by
  simp only [parseSource, hparse]
  cases e.buffer.source.errors <;> rfl

/-- A text is accepted iff its tokens are, and it has no invalid character at all. -/
theorem outcome_eq_ok_iff_of_parse
    (hparse : Engine.parse entry (.ofSource settings (Scanner.ofSource source)) = .ok parsed e)
    (found : Match) : outcome e.buffer.source.errors parsed = .ok found ↔
      (lex source).2 = [] ∧ parsed = .ok found := by
  obtain ⟨later, happend, hall⟩ := Engine.errors_of_parse_text hparse
  rw [outcome_eq_ok_iff, ← happend, List.append_eq_nil_iff]
  exact ⟨fun h => ⟨⟨h.1, hall found h.2⟩, h.2⟩, fun h => ⟨h.1.1, h.2⟩⟩

/-- The lexical error is the first of the text. -/
theorem head?_errors_of_outcome
    (hparse : Engine.parse entry (.ofSource settings (Scanner.ofSource source)) = .ok parsed e)
    {error : InvalidCharacter}
    (herror : outcome e.buffer.source.errors parsed = .error (.lexical error)) :
    (lex source).2.head? = some error := by
  obtain ⟨later, happend, -⟩ := Engine.errors_of_parse_text hparse
  cases hskipped : e.buffer.source.errors with
  | nil =>
      rw [hskipped, outcome_nil] at herror
      obtain ⟨-, -, habout⟩ := Engine.pulled_of_parse_text hparse
      obtain ⟨i, -, hno⟩ := habout _ herror
      exact hno.elim
  | cons first rest =>
      rw [hskipped, outcome_cons] at herror
      cases herror
      rw [← happend, hskipped]
      rfl

/-- As long as no invalid character was come across, none lies before what the parse reports. -/
theorem start_le_of_reported (hfits : source.utf8ByteSize < 2 ^ 32)
    (hparse : Engine.parse entry (.ofSource settings (Scanner.ofSource source)) = .ok parsed e)
    (hnone : e.buffer.source.errors = []) {err : ParseError} (hreport : parsed = .error err)
    {error : InvalidCharacter} (hmem : error ∈ invalids 0 source.toList) :
    err.span.start.toNat ≤ error.span.start.toNat := by
  obtain ⟨hsource, -, habout⟩ := Engine.pulled_of_parse_text hparse
  obtain ⟨i, hi, habout⟩ := habout err hreport
  rw [hsource] at hnone
  rw [habout.span_eq]
  exact start_le_of_errors_nil hfits hnone hi hmem

/-- No other error stands behind an invalid character. -/
theorem start_le_of_outcome (hfits : source.utf8ByteSize < 2 ^ 32)
    (hparse : Engine.parse entry (.ofSource settings (Scanner.ofSource source)) = .ok parsed e)
    {err : ParseError} (herror : outcome e.buffer.source.errors parsed = .error err)
    (hother : ∀ error, err ≠ .lexical error) {u v : List Char} {c : Char}
    (htext : source.toList = u ++ c :: v) (hclass : CharClass.of c = .invalid) :
    err.span.start.toNat ≤ Text.byteLength u := by
  obtain ⟨error, hmem, hstart⟩ := exists_mem_invalids hfits htext hclass
  cases hskipped : e.buffer.source.errors with
  | nil =>
      rw [hskipped, outcome_nil] at herror
      rw [← hstart]
      exact start_le_of_reported hfits hparse hskipped herror hmem
  | cons first rest =>
      rw [hskipped, outcome_cons] at herror
      exact absurd (Except.error.inj herror).symm (hother first)

/-- The first lexical error wins if the tokens would be accepted, or rejected behind it. -/
theorem outcome_eq_lexical (hfits : source.utf8ByteSize < 2 ^ 32)
    (hparse : Engine.parse entry (.ofSource settings (Scanner.ofSource source)) = .ok parsed e)
    {first : InvalidCharacter} (hfirst : (lex source).2.head? = some first)
    (hwould : (∃ found, parsed = .ok found) ∨
      ∃ err, parsed = .error err ∧ first.span.start < err.span.start) :
    outcome e.buffer.source.errors parsed = .error (.lexical first) := by
  obtain ⟨later, happend, hall⟩ := Engine.errors_of_parse_text hparse
  cases hskipped : e.buffer.source.errors with
  | cons error rest =>
      rw [← happend, hskipped] at hfirst
      rw [outcome_cons, Option.some.inj hfirst]
  | nil =>
      exfalso
      rcases hwould with ⟨found, hok⟩ | ⟨err, hreport, hlt⟩
      · rw [← happend, hskipped, hall found hok] at hfirst
        cases hfirst
      · have hmem : first ∈ invalids 0 source.toList := by
          rw [← errors_lex source]
          exact List.mem_of_mem_head? hfirst
        have hle := start_le_of_reported hfits hparse hskipped hreport hmem
        rw [UInt32.lt_iff_toNat_lt] at hlt
        omega

end

/-- Parsing a text ends.  It accepts iff the text has no invalid character and its tokens are a
    sentence of the entry that nests within the limit, and returns all of them.  A lexical error
    is the first of the text; no other error stands behind an invalid character; and the lexical
    error wins if the tokens would be accepted, or rejected at a token behind it. -/
theorem parseSource_eq (source : String) (entry : Entry) (settings : Settings)
    (hfits : source.utf8ByteSize < 2 ^ 32) :
    let tokens := (lex source).1
    let errors := (lex source).2
    ∃ result parsed e, parseSource source entry settings = .ok result ∧
      Engine.parse entry (.ofSource settings (TokenList.ofTokens tokens)) = .ok parsed e ∧
      (∀ found, result = .ok found ↔ errors = [] ∧ entry.Sentence (tokens.map Token.kind) ∧
        NestsWithin settings.maxDepth (tokens.map Token.kind) ∧ found = ⟨0, tokens⟩) ∧
      (∀ error, result = .error (.lexical error) → errors.head? = some error) ∧
      (∀ err, result = .error err → (∀ error, err ≠ .lexical error) →
        ∀ u c v, source.toList = u ++ c :: v → CharClass.of c = .invalid →
          err.span.start.toNat ≤ Text.byteLength u) ∧
      ∀ first, errors.head? = some first →
        ((∃ found, parsed = .ok found) ∨
          ∃ err, parsed = .error err ∧ first.span.start < err.span.start) →
        result = .error (.lexical first) := by
  intro tokens errors
  obtain ⟨parsed, e, e', hparse, hparse', hiff⟩ := Engine.exists_parse_text source settings entry
  refine ⟨_, parsed, e', parseSource_of_parse hparse, hparse', fun found => ?_,
    fun error => head?_errors_of_outcome hparse,
    fun err herror hother u c v => start_le_of_outcome hfits hparse herror hother,
    fun first => outcome_eq_lexical hfits hparse⟩
  rw [outcome_eq_ok_iff_of_parse hparse, hiff]

/-- A list whose tokens would be accepted, with an invalid character behind its end. -/
theorem parseSource_eq_of_stray :
    ∃ first, (lex "[a] #").2.head? = some first ∧
      parseSource "[a] #" .stat ⟨true, 4⟩ = .ok (.error (.lexical first)) := by
  have hfirst : (lex "[a] #").2.head? = some ⟨⟨4, 5⟩, '#'⟩ := by decide +kernel
  have hwould : (match Engine.parse .stat (.ofSource ⟨true, 4⟩
        (TokenList.ofTokens (lex "[a] #").1)) with
      | .ok result _ => result.isOk
      | .error _ _ => false) = true := by decide +kernel
  obtain ⟨result, parsed, e, hresult, hparse, -, -, -, hwins⟩ :=
    parseSource_eq "[a] #" .stat ⟨true, 4⟩ (by decide)
  refine ⟨_, hfirst, ?_⟩
  rw [hresult]
  rw [hparse] at hwould
  cases parsed with
  | ok found => rw [hwins _ hfirst (.inl ⟨found, rfl⟩)]
  | error err => cases hwould

end Packrat
