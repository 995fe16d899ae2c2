/-
  Packrat.Proofs.LazyScanning

  Pulling tokens one at a time finds what scanning the text at once finds.

  Between the pulls the errors may be looked at and taken.  Errors that were
  taken are missing from the scanner and nothing else: with them put back, it is
  the scanner that the pulls alone lead to (`serveAll_restored`).  So every pull
  returns the next token of the text, and the errors that were taken are,
  together with those that are still there, the invalid characters up to the
  end of the last token that was pulled.
-/

import Packrat.Proofs.Scanning

namespace Packrat

-- ============================================================================
-- What is asked of a scanner
-- ============================================================================

namespace Scanner

/-- What is asked of a scanner. -/
inductive Request where
  /-- The next token. -/
  | next
  /-- The errors found so far and not taken yet. -/
  | errors
  /-- The same, and they are gone afterwards. -/
  | takeErrors
deriving DecidableEq, Repr

/-- What a scanner returns. -/
inductive Reply where
  | token (t : Token)
  | errors (es : List InvalidCharacter)
  | taken (es : List InvalidCharacter)
deriving DecidableEq, Repr

namespace Reply

/-- The token that was pulled. -/
def token? : Reply → Option Token
  | .token t => some t
  | .errors _ | .taken _ => none

/-- The errors that were taken. -/
def takenErrors : Reply → List InvalidCharacter
  | .taken es => es
  | .token _ | .errors _ => []

end Reply

/-- Does what is asked. -/
def serve (s : Scanner) : Request → Reply × Scanner
  | .next => (.token s.next.1, s.next.2)
  | .errors => (.errors s.errors, s)
  | .takeErrors => (.taken s.takeErrors.1, s.takeErrors.2)

/-- Does what is asked, one thing after the other. -/
def serveAll : List Request → Scanner → List Reply × Scanner
  | [], s => ([], s)
  | request :: requests, s =>
    let (reply, s) := s.serve request
    let (replies, s) := serveAll requests s
    (reply :: replies, s)

/-- The tokens that were pulled, in order. -/
def tokensOf (replies : List Reply) : List Token := replies.filterMap Reply.token?

/-- The errors that were taken, in order. -/
def takenOf (replies : List Reply) : List InvalidCharacter := replies.flatMap Reply.takenErrors

-- ============================================================================
-- Taken errors put back
-- ============================================================================

/-- The scanner with errors put back in front of those that it has. -/
def restored (taken : List InvalidCharacter) (s : Scanner) : Scanner :=
  { s with skipped := taken.toArray ++ s.skipped }

theorem restored_nil (s : Scanner) : restored [] s = s := by
  simp [restored]

theorem errors_restored (taken : List InvalidCharacter) (s : Scanner) :
    (restored taken s).errors = taken ++ s.errors := by
  simp [restored, errors]

/-- The scan for a token only adds to the errors. -/
theorem scan_restored (taken : List InvalidCharacter) (endOffset : UInt32)
    (skipped : Array InvalidCharacter) (offset : Nat) (rest : List Char) :
    scan endOffset (taken.toArray ++ skipped) offset rest
      = ((scan endOffset skipped offset rest).1,
          restored taken (scan endOffset skipped offset rest).2) := by
  fun_induction scan endOffset skipped offset rest with
  | case1 => rfl
  | case2 skipped offset c rest hclass ih => simp [scan, hclass, ih]
  | case3 skipped offset c rest hclass stop ih =>
      simp only [scan, hclass, recordSlice_singleton] at ih ⊢
      rw [← ih, Array.push_append]
  | case4 skipped offset c rest kind hclass => simp [scan, hclass, restored]
  | case5 skipped offset c rest hclass word => simp [scan, hclass, restored, word]

theorem next_restored (taken : List InvalidCharacter) (s : Scanner) :
    (restored taken s).next = (s.next.1, restored taken s.next.2) :=
  scan_restored taken s.endOffset s.skipped s.offset s.rest

theorem takeErrors_restored (taken : List InvalidCharacter) (s : Scanner) :
    restored (taken ++ s.takeErrors.1) s.takeErrors.2 = restored taken s := by
  simp [restored, takeErrors, errors]

/-- With the taken errors put back, the scanner is the one after as many pulls, and the tokens
    are the ones that these pulls return. -/
theorem serveAll_restored (requests : List Request) (taken : List InvalidCharacter)
    (s : Scanner) :
    restored (taken ++ takenOf (serveAll requests s).1) (serveAll requests s).2
        = TokenSource.after (restored taken s) (requests.count .next) ∧
      tokensOf (serveAll requests s).1
        = stretch (TokenSource.stream (restored taken s)) 0 (requests.count .next) := by
  induction requests generalizing taken s with
  | nil => exact ⟨by simp [serveAll, takenOf, TokenSource.after], by simp [serveAll, tokensOf]⟩
  | cons request requests ih =>
      cases request with
      | next =>
          obtain ⟨hafter, htokens⟩ := ih taken s.next.2
          have hnext : TokenSource.next (restored taken s)
              = (s.next.1, restored taken s.next.2) := next_restored taken s
          rw [List.count_cons_self, TokenSource.after_succ, stretch_cons _ (Nat.succ_pos _),
            stretch_shift]
          simp only [TokenSource.stream_succ, hnext]
          refine ⟨hafter, ?_⟩
          rw [← htokens]
          show s.next.1 :: tokensOf _ = _
          rw [TokenSource.stream, TokenSource.after, hnext]
      | errors => exact ih taken s
      | takeErrors =>
          have hlater := ih (taken ++ s.takeErrors.1) s.takeErrors.2
          rw [takeErrors_restored, List.append_assoc] at hlater
          exact hlater

end Scanner

-- ============================================================================
-- Texts scanned at once
-- ============================================================================

/-- Token number `i` of a text that is scanned at once; behind the last one it is the end of the
    input for ever. -/
def lexAt (source : String) (i : Nat) : Token :=
  (lex source).1.getD i (.eof (Scanner.ofSource source).endOffset)

theorem stream_ofSource (source : String) (i : Nat) :
    TokenSource.stream (Scanner.ofSource source) i = lexAt source i := by
  obtain ⟨n, hlex, -, heof⟩ := lex_eq source
  rw [lexAt, hlex, List.getD_eq_getElem?_getD]
  by_cases hi : i < n + 1
  · rw [getElem?_stretch _ (by omega), Nat.zero_add]
    rfl
  · rw [List.getElem?_eq_none (by rw [length_stretch]; omega)]
    exact Scanner.stream_eq_eof_of_isEof heof (by omega)

/-- The characters `front` of a text end where its first `n` tokens do: there are none of them in
    front of the first token, and with the end of the input it is all of them. -/
inductive UpTo (source : String) : Nat → List Char → Prop where
  | start : UpTo source 0 []
  | token {n : Nat} {kind : Kind} {before word : List Char} (hkind : kind ≠ .eof)
      (hword : word ≠ [])
      (h : lexAt source n = Scanner.token kind (Text.byteLength before) word) :
      UpTo source (n + 1) (before ++ word)
  | eof {n : Nat} (h : (lexAt source n).isEof = true) : UpTo source (n + 1) source.toList

namespace Scanner

/-- After `n` pulls the scanner stands where the first `n` tokens end. -/
theorem exists_upTo (source : String) (n : Nat) :
    ∃ front, Behind source.toList front (TokenSource.after (ofSource source) n) ∧
      UpTo source n front ∧
      ∀ i, n = i + 1 → source.utf8ByteSize < 2 ^ 32 →
        (lexAt source i).span.stop.toNat = Text.byteLength front := by
  cases n with
  | zero => exact ⟨[], behind_ofSource source, .start, fun i hi => nomatch hi⟩
  | succ n =>
      obtain ⟨front, hfront⟩ := (behind_ofSource source).after n
      obtain ⟨gap, word, hadvances⟩ := hfront.next
      have htoken : (TokenSource.after (ofSource source) n).next.1 = lexAt source n :=
        stream_ofSource source n
      refine ⟨_, hadvances.behind, ?_, ?_⟩
      · rcases hadvances.token with ⟨kind, hkind, hword, hnext⟩ | ⟨hnext, -, hrest⟩
        · exact .token hkind hword (htoken.symm.trans hnext)
        · have hall := hadvances.behind.text_eq
          rw [hrest, List.append_nil] at hall
          rw [← hall]
          exact .eof (by rw [← htoken, hnext]; rfl)
      · rintro i hi hfits
        obtain rfl : n = i := Nat.succ.inj hi
        have hend : (TokenSource.after (ofSource source) (n + 1)).endOffset.toNat
            = Text.byteLength source.toList := by
          rw [endOffset_after, toNat_endOffset_ofSource hfits]
        rw [← htoken]
        rw [← Text.byteLength_toList] at hfits
        exact (hadvances.span hfits hend).2

/-- The invalid characters among the first characters of a text are those that end with them. -/
theorem filter_invalids {front rest : List Char}
    (hfits : Text.byteLength (front ++ rest) < 2 ^ 32) :
    (invalids 0 (front ++ rest)).filter (·.span.stop.toNat ≤ Text.byteLength front)
      = invalids 0 front := by
  rw [Text.byteLength_append] at hfits
  rw [invalids_append, List.filter_append, List.filter_eq_self.2, List.filter_eq_nil_iff.2,
    List.append_nil]
  · intro error hmem
    obtain ⟨hstart, hlt, -⟩ := bounds_of_mem_invalids (by omega) hmem
    rw [UInt32.lt_iff_toNat_lt] at hlt
    simp only [decide_eq_true_eq]
    omega
  · intro error hmem
    obtain ⟨-, -, hstop⟩ := bounds_of_mem_invalids (by omega) hmem
    simp only [decide_eq_true_eq]
    omega

/-- Whatever is asked of a scanner, its `i`-th token is the `i`-th token of the text scanned at
    once, and the end of the input for ever behind the last one.  After `n` pulls the errors that
    were taken and then those that are still there are the invalid characters of the text up to
    where its first `n` tokens end, in order: the first of the errors that scanning at once
    finds, and no other ones stand in front of the end of the last token. -/
theorem serveAll_eq_lex (source : String) (requests : List Request) :
    let replies := (serveAll requests (ofSource source)).1
    let s := (serveAll requests (ofSource source)).2
    let n := requests.count .next
    tokensOf replies = (List.range n).map (lexAt source) ∧
    (∃ front, source.toList = front ++ s.rest ∧ UpTo source n front ∧
      takenOf replies ++ s.errors = invalids 0 front ∧
      (lex source).2 = takenOf replies ++ s.errors
        ++ invalids (Text.byteLength front) s.rest) ∧
    ∀ i, n = i + 1 → source.utf8ByteSize < 2 ^ 32 →
      takenOf replies ++ s.errors
        = (lex source).2.filter (·.span.stop ≤ (lexAt source i).span.stop) := by
  intro replies s n
  obtain ⟨hafter, htokens⟩ := serveAll_restored requests [] (ofSource source)
  rw [restored_nil, List.nil_append] at hafter
  rw [restored_nil] at htokens
  obtain ⟨front, hbehind, hupTo, hstop⟩ := exists_upTo source n
  rw [← show restored (takenOf replies) s = _ from hafter] at hbehind
  have htext : source.toList = front ++ s.rest := hbehind.text_eq
  have herrors : takenOf replies ++ s.errors = invalids 0 front := by
    rw [← errors_restored]
    exact hbehind.errors_eq
  refine ⟨?_, ⟨front, htext, hupTo, herrors, ?_⟩, fun i hi hfits => ?_⟩
  · rw [show tokensOf replies = _ from htokens, stretch, Nat.sub_zero, ← List.range_eq_range']
    exact List.map_congr_left fun i _ => stream_ofSource source i
  · rw [herrors, errors_lex, htext, invalids_append, Nat.zero_add]
  · have hle : ∀ error : InvalidCharacter,
        (error.span.stop ≤ (lexAt source i).span.stop ↔
          error.span.stop.toNat ≤ Text.byteLength front) := by
      intro error
      rw [UInt32.le_iff_toNat_le, hstop i hi hfits]
    rw [← Text.byteLength_toList, htext] at hfits
    simp only [hle]
    rw [herrors, errors_lex, htext, filter_invalids hfits]

/-- In front of the end of `b` in `#a?b;` stand two of the three invalid characters, of which the
    first was taken and the second is still there. -/
theorem serveAll_eq_lex_of_strays :
    let r := serveAll [.next, .errors, .takeErrors, .next] (ofSource "#a?b;")
    "#a?b;".utf8ByteSize < 2 ^ 32 ∧
      takenOf r.1 ++ r.2.errors = [⟨⟨0, 1⟩, '#'⟩] ++ [⟨⟨2, 3⟩, '?'⟩] ∧
      takenOf r.1 ++ r.2.errors = (lex "#a?b;").2.filter (·.span.stop ≤ 4) ∧
      (lex "#a?b;").2.length = 3 := by
  intro r
  have hfits : "#a?b;".utf8ByteSize < 2 ^ 32 := by decide
  have hstop : (lexAt "#a?b;" 1).span.stop = 4 := by decide +kernel
  have hfilter := (serveAll_eq_lex "#a?b;" [.next, .errors, .takeErrors, .next]).2.2 1 rfl hfits
  rw [hstop] at hfilter
  exact ⟨hfits, by decide +kernel, hfilter, by decide +kernel⟩

end Scanner
end Packrat
