/-
  Packrat.Proofs.Scanning

  A scanner on its way through a text.  `Behind` says where it stands: it has
  taken the characters `front`, and its errors are the invalid ones among them.
  The next token starts behind a gap in which all invalid characters lie that
  are found meanwhile.

  Scanning a text at once finds the same tokens and errors as pulling the tokens
  one after the other (`lex_eq`), and the tokens of the text make the same
  stream (`stream_tokens_lex`).
-/

import Mathlib.Algebra.Group.Nat.Defs
import Mathlib.Data.List.TakeWhile
import Packrat.Proofs.Stream

namespace Packrat

theorem Text.utf8ByteSize_ofList (cs : List Char) :
    (String.ofList cs).utf8ByteSize = Text.byteLength cs := by
  induction cs with
  | nil => rfl
  | cons c cs ih =>
      rw [String.ofList_cons, String.utf8ByteSize_append, String.utf8ByteSize_singleton, ih,
        Text.byteLength_cons]

theorem Text.byteLength_toList (text : String) :
    Text.byteLength text.toList = text.utf8ByteSize := by
  rw [← Text.utf8ByteSize_ofList, String.ofList_toList]

/-- The invalid ones among characters that start at `offset`. -/
def invalids (offset : Nat) : List Char → List InvalidCharacter
  | [] => []
  | c :: rest =>
    let stop := offset + c.utf8Size
    if CharClass.of c = .invalid then ⟨Span.clamped offset stop, c⟩ :: invalids stop rest
    else invalids stop rest

theorem invalids_append (offset : Nat) (cs ds : List Char) :
    invalids offset (cs ++ ds)
      = invalids offset cs ++ invalids (offset + Text.byteLength cs) ds := by
  induction cs generalizing offset with
  | nil => rfl
  | cons c cs ih =>
      simp only [List.cons_append, invalids, ih, Text.byteLength_cons, Nat.add_assoc]
      split <;> rfl

theorem invalids_eq_nil {offset : Nat} {cs : List Char}
    (h : ∀ c ∈ cs, CharClass.of c ≠ .invalid) : invalids offset cs = [] := by
  induction cs generalizing offset with
  | nil => rfl
  | cons c cs ih =>
      simp only [invalids, if_neg (h c List.mem_cons_self)]
      exact ih fun d hd => h d (List.mem_cons_of_mem c hd)

theorem invalids_cons_of_invalid {offset : Nat} {c : Char} {cs : List Char}
    (h : CharClass.of c = .invalid) :
    invalids offset (c :: cs)
      = ⟨Span.clamped offset (offset + c.utf8Size), c⟩ :: invalids (offset + c.utf8Size) cs :=
  if_pos h

/-- An invalid character lies among the characters that it is one of. -/
theorem bounds_of_mem_invalids {offset : Nat} {cs : List Char} {error : InvalidCharacter}
    (hfits : offset + Text.byteLength cs < 2 ^ 32) (h : error ∈ invalids offset cs) :
    offset ≤ error.span.start.toNat ∧ error.span.start < error.span.stop ∧
      error.span.stop.toNat ≤ offset + Text.byteLength cs := by
  induction cs generalizing offset with
  | nil => cases h
  | cons c cs ih =>
      have hsize := c.utf8Size_pos
      rw [Text.byteLength_cons] at hfits ⊢
      by_cases hmem : error ∈ invalids (offset + c.utf8Size) cs
      · obtain ⟨hstart, hlt, hstop⟩ := ih (by omega) hmem
        exact ⟨by omega, hlt, by omega⟩
      · by_cases hclass : CharClass.of c = .invalid
        · rw [invalids_cons_of_invalid hclass] at h
          obtain rfl : error = _ := (List.mem_cons.1 h).resolve_right hmem
          have hstart := Span.toNat_start_clamped (Nat.le_add_right offset c.utf8Size) (by omega)
          have hstop := Span.toNat_stop_clamped (Nat.le_add_right offset c.utf8Size) (by omega)
          rw [UInt32.lt_iff_toNat_lt]
          dsimp only
          omega
        · simp only [invalids, if_neg hclass] at h
          exact absurd h hmem

namespace Scanner

/-- The scanner stands behind the characters `front` of the text, and has found the invalid ones
    among them. -/
structure Behind (text front : List Char) (s : Scanner) : Prop where
  text_eq : text = front ++ s.rest
  offset_eq : s.offset = Text.byteLength front
  errors_eq : s.errors = invalids 0 front

theorem behind_ofSource (source : String) : (ofSource source).Behind source.toList [] where
  text_eq := rfl
  offset_eq := rfl
  errors_eq := rfl

theorem toNat_endOffset_ofSource {source : String} (hfits : source.utf8ByteSize < 2 ^ 32) :
    (ofSource source).endOffset.toNat = Text.byteLength source.toList := by
  rw [Text.byteLength_toList]
  exact Span.toNat_start_clamped (Nat.le_refl _) (by omega)

/-- The scanner went on over a gap and then a word, which is the token; or over all that was
    left, and the token is the end of the input. -/
structure Advances (text front : List Char) (r : Token × Scanner) (gap word : List Char) :
    Prop where
  behind : r.2.Behind text (front ++ gap ++ word)
  token : (∃ kind, kind ≠ .eof ∧ word ≠ [] ∧
      r.1 = Scanner.token kind (Text.byteLength (front ++ gap)) word) ∨
    r.1 = .eof r.2.endOffset ∧ word = [] ∧ r.2.rest = []

/-- A blank or an invalid character is taken without a token. -/
theorem Behind.skip {text front : List Char} {c : Char} {rest : List Char} {offset : Nat}
    {skipped skipped' : Array InvalidCharacter} {endOffset : UInt32}
    (h : Behind text front ⟨c :: rest, offset, skipped, endOffset⟩)
    (hskipped : skipped'.toList = skipped.toList ++ invalids offset [c]) :
    Behind text (front ++ [c]) ⟨rest, offset + c.utf8Size, skipped', endOffset⟩ where
  text_eq := by rw [List.append_assoc]; exact h.text_eq
  offset_eq := by
    show offset + _ = _
    rw [show offset = _ from h.offset_eq]
    simp
  errors_eq := by
    have herrors : skipped.toList = invalids 0 front := h.errors_eq
    have hoffset : offset = Text.byteLength front := h.offset_eq
    show skipped'.toList = _
    rw [hskipped, herrors, invalids_append, hoffset, Nat.zero_add]

/-- A character that is skipped becomes part of the gap. -/
theorem Advances.skip {text front gap word : List Char} {c : Char} {r : Token × Scanner}
    (h : Advances text (front ++ [c]) r gap word) : Advances text front r (c :: gap) word := by
  have happend : front ++ [c] ++ gap = front ++ c :: gap := by simp
  obtain ⟨hbehind, htoken⟩ := h
  rw [happend] at hbehind htoken
  exact ⟨hbehind, htoken⟩

/-- A token that is there at once leaves no gap. -/
theorem Advances.of_word {text front word rest : List Char} {kind : Kind} {offset : Nat}
    {skipped : Array InvalidCharacter} {endOffset : UInt32}
    (h : Behind text front ⟨word ++ rest, offset, skipped, endOffset⟩) (hkind : kind ≠ .eof)
    (hne : word ≠ []) (hword : ∀ c ∈ word, CharClass.of c ≠ .invalid) :
    Advances text front (Scanner.token kind offset word,
      ⟨rest, offset + Text.byteLength word, skipped, endOffset⟩) [] word := by
  have htext : text = front ++ (word ++ rest) := h.text_eq
  have hoffset : offset = Text.byteLength front := h.offset_eq
  have herrors : skipped.toList = invalids 0 front := h.errors_eq
  refine ⟨⟨?_, ?_, ?_⟩, .inl ⟨kind, hkind, hne, ?_⟩⟩
  · simp [htext]
  · simp [hoffset]
  · show skipped.toList = _
    rw [List.append_nil, invalids_append, invalids_eq_nil hword, List.append_nil, herrors]
  · rw [List.append_nil, hoffset]

/-- Scanning for a token goes on over a gap and a word. -/
theorem exists_advances_scan {text : List Char} (endOffset : UInt32)
    (skipped : Array InvalidCharacter) (offset : Nat) (rest : List Char) :
    ∀ front, Behind text front ⟨rest, offset, skipped, endOffset⟩ →
      ∃ gap word, Advances text front (scan endOffset skipped offset rest) gap word := by
  fun_induction scan endOffset skipped offset rest with
  | case1 skipped offset =>
      intro front h
      exact ⟨[], [], by simpa using h, .inr ⟨rfl, rfl, rfl⟩⟩
  | case2 skipped offset c rest hclass ih =>
      intro front h
      have hnone : invalids offset [c] = [] := invalids_eq_nil (by simp [hclass])
      obtain ⟨gap, word, hadvances⟩ := ih _ (h.skip (by rw [hnone, List.append_nil]))
      exact ⟨c :: gap, word, hadvances.skip⟩
  | case3 skipped offset c rest hclass stop ih =>
      intro front h
      have hone : (recordSlice skipped offset [c]).toList
          = skipped.toList ++ invalids offset [c] := by
        rw [recordSlice_singleton, Array.toList_push, invalids_cons_of_invalid hclass]
        rfl
      obtain ⟨gap, word, hadvances⟩ := ih _ (h.skip hone)
      exact ⟨c :: gap, word, hadvances.skip⟩
  | case4 skipped offset c rest kind hclass =>
      intro front h
      have hvalid : ∀ d ∈ [c], CharClass.of d ≠ .invalid := by simp [hclass]
      exact ⟨[], [c], .of_word h (ne_eof_of_mark hclass) (List.cons_ne_nil _ _) hvalid⟩
  | case5 skipped offset c rest hclass word =>
      intro front h
      have hletter : ∀ d ∈ word, CharClass.of d ≠ .invalid := by
        intro d hmem
        rcases List.mem_cons.1 hmem with rfl | hmem
        · rw [hclass]
          decide
        · have halpha : d.isAlpha = true := List.mem_takeWhile_imp hmem
          simp [CharClass.of, halpha]
      have hsplit : c :: rest = word ++ rest.dropWhile Char.isAlpha := by
        simp [word, List.takeWhile_append_dropWhile]
      rw [hsplit] at h
      exact ⟨[], word, .of_word h (by decide) (List.cons_ne_nil _ _) hletter⟩

/-- In a text whose offsets fit, the span of a token is that of its word. -/
theorem Advances.span {text front gap word : List Char} {r : Token × Scanner}
    (h : Advances text front r gap word) (hfits : Text.byteLength text < 2 ^ 32)
    (hend : r.2.endOffset.toNat = Text.byteLength text) :
    r.1.span.start.toNat = Text.byteLength (front ++ gap) ∧
      r.1.span.stop.toNat = Text.byteLength (front ++ gap ++ word) := by
  have htext := congrArg Text.byteLength h.behind.text_eq
  rw [Text.byteLength_append] at htext
  rcases h.token with ⟨kind, -, -, htoken⟩ | ⟨htoken, hword, hrest⟩
  · rw [htoken]
    rw [Text.byteLength_append (front ++ gap) word] at htext ⊢
    exact ⟨Span.toNat_start_clamped (Nat.le_add_right _ _) (by omega),
      Span.toNat_stop_clamped (Nat.le_add_right _ _) (by omega)⟩
  · rw [hrest, hword, List.append_nil] at htext
    rw [htoken, hword, List.append_nil]
    exact ⟨hend.trans htext, hend.trans htext⟩

-- ============================================================================
-- Token after token
-- ============================================================================

theorem endOffset_scan (endOffset : UInt32) (skipped : Array InvalidCharacter) (offset : Nat)
    (rest : List Char) : (scan endOffset skipped offset rest).2.endOffset = endOffset := by
  fun_induction scan endOffset skipped offset rest with
  | case1 => rfl
  | case2 _ _ _ _ _ ih => exact ih
  | case3 _ _ _ _ _ _ ih => exact ih
  | case4 => rfl
  | case5 => rfl

theorem endOffset_after (s : Scanner) (k : Nat) :
    (TokenSource.after s k).endOffset = s.endOffset := by
  induction k with
  | zero => rfl
  | succ k ih => exact (endOffset_scan _ _ _ _).trans ih

section

variable {text front : List Char} {s : Scanner}

theorem Behind.next (h : Behind text front s) : ∃ gap word, Advances text front s.next gap word :=
  exists_advances_scan s.endOffset s.skipped s.offset s.rest front h

/-- However many tokens were pulled, the scanner stands somewhere in the text. -/
theorem Behind.after (h : Behind text [] s) (k : Nat) :
    ∃ front, Behind text front (TokenSource.after s k) := by
  induction k with
  | zero => exact ⟨[], h⟩
  | succ k ih =>
      obtain ⟨front, hfront⟩ := ih
      obtain ⟨gap, word, hadvances⟩ := hfront.next
      exact ⟨_, hadvances.behind⟩

/-- A token that was pulled starts no later than where the scanner stands. -/
theorem Behind.start_le_offset (h : Behind text [] s) (hfits : Text.byteLength text < 2 ^ 32)
    (hend : s.endOffset.toNat = Text.byteLength text) {i k : Nat} (hi : i < k) :
    (TokenSource.stream s i).span.start.toNat ≤ (TokenSource.after s k).offset := by
  induction k with
  | zero => exact absurd hi (Nat.not_lt_zero i)
  | succ k ih =>
      obtain ⟨front, hfront⟩ := h.after k
      obtain ⟨gap, word, hadvances⟩ := hfront.next
      have hoffset : (TokenSource.after s (k + 1)).offset = _ := hadvances.behind.offset_eq
      rw [Text.byteLength_append] at hoffset
      rcases Nat.lt_succ_iff_lt_or_eq.1 hi with hlt | rfl
      · have hle := ih hlt
        rw [hfront.offset_eq] at hle
        rw [hoffset, Text.byteLength_append]
        omega
      · have hend' : (TokenSource.after s (i + 1)).endOffset.toNat = Text.byteLength text := by
          rw [endOffset_after, hend]
        have hstart : (TokenSource.stream s i).span.start.toNat = _ :=
          (hadvances.span hfits hend').1
        omega

end

/-- The errors so far and those still to come are all of the invalid characters. -/
theorem Behind.errors_append {text front : List Char} {s : Scanner} (h : Behind text front s) :
    s.errors ++ invalids s.offset s.rest = invalids 0 text := by
  rw [h.errors_eq, h.offset_eq, h.text_eq, invalids_append, Nat.zero_add]

/-- At the end of the text every invalid character was found. -/
theorem Behind.errors_of_rest {text front : List Char} {s : Scanner} (h : Behind text front s)
    (hrest : s.rest = []) : s.errors = invalids 0 text := by
  rw [← h.errors_append, hrest]
  exact (List.append_nil _).symm

-- ============================================================================
-- The end of the input
-- ============================================================================

/-- There is only one token for the end of the input. -/
theorem scan_eq_eof_of_isEof {endOffset : UInt32} {skipped : Array InvalidCharacter}
    {offset : Nat} {rest : List Char} (h : (scan endOffset skipped offset rest).1.isEof = true) :
    (scan endOffset skipped offset rest).1 = .eof endOffset := by
  fun_induction scan endOffset skipped offset rest with
  | case1 => rfl
  | case2 _ _ _ _ _ ih => exact ih h
  | case3 _ _ _ _ _ _ ih => exact ih h
  | case4 _ _ _ _ _ hclass => simp [token, Token.isEof, ne_eof_of_mark hclass] at h
  | case5 => simp [token, Token.isEof] at h

theorem rest_after_of_isEof {s : Scanner} {n i : Nat} (h : (TokenSource.stream s n).isEof = true)
    (hi : n < i) : (TokenSource.after s i).rest = [] := by
  induction hi with
  | refl => exact rest_scan_of_isEof h
  | @step i _ ih =>
      have hnext : (TokenSource.stream s i).isEof = true := by
        show (scan _ _ _ (TokenSource.after s i).rest).1.isEof = true
        rw [ih]
        rfl
      exact rest_scan_of_isEof hnext

/-- After the first end of input every token is the same. -/
theorem stream_eq_eof_of_isEof {s : Scanner} {n i : Nat}
    (h : (TokenSource.stream s n).isEof = true) (hi : n ≤ i) :
    TokenSource.stream s i = .eof s.endOffset := by
  have heof : (TokenSource.stream s i).isEof = true := by
    rcases Nat.eq_or_lt_of_le hi with rfl | hlt
    · exact h
    · show (scan _ _ _ (TokenSource.after s i).rest).1.isEof = true
      rw [rest_after_of_isEof h hlt]
      rfl
  rw [← endOffset_after s i]
  exact scan_eq_eof_of_isEof heof

/-- Draining a scanner pulls its tokens up to the first end of input. -/
theorem exists_drain_eq (tokens : Array Token) (s : Scanner) :
    ∃ n, s.drain tokens
        = (tokens ++ (stretch (TokenSource.stream s) 0 (n + 1)).toArray,
            TokenSource.after s (n + 1)) ∧
      (∀ i < n, (TokenSource.stream s i).isEof = false) ∧
      (TokenSource.stream s n).isEof = true := by
  fun_induction drain tokens s with
  | case1 tokens s step heof =>
      refine ⟨0, ?_, fun i hi => absurd hi (Nat.not_lt_zero i), heof⟩
      rw [stretch_succ _ (Nat.le_refl 0), stretch_self]
      simp [step, TokenSource.stream, TokenSource.after, TokenSource.next]
  | case2 tokens s step hne _ ih =>
      obtain ⟨n, hdrain, hbefore, heof⟩ := ih
      have hstream : ∀ i, TokenSource.stream s (i + 1) = TokenSource.stream step.2 i :=
        TokenSource.stream_succ s
      refine ⟨n + 1, ?_, ?_, by rw [hstream]; exact heof⟩
      · have hafter : TokenSource.after s (n + 1 + 1) = TokenSource.after step.2 (n + 1) :=
          TokenSource.after_succ s (n + 1)
        have hstretch : stretch (TokenSource.stream s) 0 (n + 1 + 1)
            = step.1 :: stretch (TokenSource.stream step.2) 0 (n + 1) := by
          rw [stretch_cons _ (Nat.succ_pos _), stretch_shift, funext hstream]
          rfl
        rw [hdrain, hafter, hstretch]
        simp
      · intro i hi
        cases i with
        | zero => exact Bool.eq_false_iff.2 hne
        | succ i =>
            rw [hstream]
            exact hbefore i (by omega)

end Scanner

-- ============================================================================
-- Whole texts
-- ============================================================================

/-- The tokens of a text are those of its stream up to the first end of input, and its errors are
    its invalid characters. -/
theorem lex_eq (source : String) :
    ∃ n, lex source = (stretch (TokenSource.stream (Scanner.ofSource source)) 0 (n + 1),
        invalids 0 source.toList) ∧
      (∀ i < n, (TokenSource.stream (Scanner.ofSource source) i).isEof = false) ∧
      (TokenSource.stream (Scanner.ofSource source) n).isEof = true := by
  obtain ⟨n, hdrain, hbefore, heof⟩ := Scanner.exists_drain_eq #[] (.ofSource source)
  refine ⟨n, ?_, hbefore, heof⟩
  obtain ⟨front, hfront⟩ := (Scanner.behind_ofSource source).after (n + 1)
  have herrors := hfront.errors_of_rest (Scanner.rest_after_of_isEof heof (Nat.lt_succ_self n))
  simp only [lex, hdrain, herrors]
  simp

theorem errors_lex (source : String) : (lex source).2 = invalids 0 source.toList := by
  obtain ⟨n, hlex, -, -⟩ := lex_eq source
  rw [hlex]

/-- The tokens of a text make the stream of the text. -/
theorem stream_tokens_lex (source : String) :
    TokenSource.stream (TokenList.ofTokens (lex source).1)
      = TokenSource.stream (Scanner.ofSource source) := by
  obtain ⟨n, hlex, -, heof⟩ := lex_eq source
  rw [hlex]
  funext i
  rw [TokenList.stream_ofTokens]
  by_cases hi : i < n + 1
  · rw [List.getD_eq_getElem?_getD, getElem?_stretch _ (by omega), Nat.zero_add]
    rfl
  · have htail : (TokenList.ofTokens
        (stretch (TokenSource.stream (Scanner.ofSource source)) 0 (n + 1))).tail
        = .eof (Scanner.ofSource source).endOffset := by
      rw [stretch_succ _ (Nat.zero_le n), TokenList.ofTokens]
      simp [Scanner.stream_eq_eof_of_isEof heof (Nat.le_refl n), Token.eof]
    have hlength :
        (stretch (TokenSource.stream (Scanner.ofSource source)) 0 (n + 1)).length ≤ i := by
      rw [length_stretch]
      omega
    rw [List.getD_eq_getElem?_getD, List.getElem?_eq_none hlength, Option.getD_none, htail,
      Scanner.stream_eq_eof_of_isEof heof (by omega)]

end Packrat
