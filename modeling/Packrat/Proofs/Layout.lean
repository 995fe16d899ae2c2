/-
  Packrat.Proofs.Layout

  Where the characters of a text go.  `Layout` lays a text out from left to
  right: each piece of it is a blank, an invalid character, a mark or a longest
  word, and the last three leave a token or an error.  Scanning a text at once
  finds the tokens and errors of its layout (`exists_layout_lex`).

  What is said of a whole text is shown for every layout by induction on its
  pieces: later pieces lie behind the head piece, so of the tokens and errors
  only that of its own piece is about a character (`Layout.counts`).  A scanned
  text is accounted for, character by character (`accounted_lex`).
-/

import Packrat.Proofs.Scanning

namespace Packrat

-- ============================================================================
-- Classes of characters
-- ============================================================================

namespace CharClass

/-- The characters that separate tokens. -/
def blanks : List Char := [' ', '\t', '\r', '\n']

/-- The characters that are tokens of their own. -/
def marks : List (Kind × Char) :=
  [(.comma, ','), (.lbracket, '['), (.rbracket, ']'), (.equals, '=')]

theorem of_eq_letter_iff {c : Char} : of c = .letter ↔ c.isAlpha = true := by
  constructor
  · intro h
    by_contra hne
    simp only [of, if_neg hne] at h
    repeat' split at h
    all_goals cases h
  · intro h
    simp only [of, if_pos h]

theorem of_eq_blank_iff {c : Char} : of c = .blank ↔ c ∈ blanks := by
  constructor
  · intro h
    simp only [of] at h
    repeat' split at h
    all_goals cases h
    rename_i hblank
    simpa [blanks] using hblank
  · intro h
    simp only [blanks, List.mem_cons, List.not_mem_nil, or_false] at h
    rcases h with rfl | rfl | rfl | rfl <;> decide

theorem of_eq_mark_iff {kind : Kind} {c : Char} : of c = .mark kind ↔ (kind, c) ∈ marks := by
  constructor
  · intro h
    simp only [of] at h
    repeat' split at h
    all_goals cases h
    all_goals subst_vars; decide
  · intro h
    simp only [marks, List.mem_cons, List.not_mem_nil, or_false, Prod.mk.injEq] at h
    rcases h with ⟨rfl, rfl⟩ | ⟨rfl, rfl⟩ | ⟨rfl, rfl⟩ | ⟨rfl, rfl⟩ <;> decide

theorem of_eq_invalid_iff {c : Char} :
    of c = .invalid ↔ c.isAlpha = false ∧ c ∉ blanks ∧ ∀ kind, (kind, c) ∉ marks := by
  constructor
  · intro h
    refine ⟨Bool.eq_false_iff.2 fun hletter => ?_, fun hblank => ?_, fun kind hmark => ?_⟩
    · rw [of_eq_letter_iff.2 hletter] at h
      cases h
    · rw [of_eq_blank_iff.2 hblank] at h
      cases h
    · rw [of_eq_mark_iff.2 hmark] at h
      cases h
  · rintro ⟨hletter, hblank, hmark⟩
    cases hclass : of c with
    | invalid => rfl
    | letter => rw [of_eq_letter_iff.1 hclass] at hletter; cases hletter
    | blank => exact absurd (of_eq_blank_iff.1 hclass) hblank
    | mark kind => exact absurd (of_eq_mark_iff.1 hclass) (hmark kind)

end CharClass

-- ============================================================================
-- Layouts
-- ============================================================================

/-- A piece of a text that starts at an offset, with the token or the error that it leaves. -/
inductive Portion (offset : Nat) : List Char → List Token → List InvalidCharacter → Prop where
  | blank {c : Char} (hrole : CharClass.of c = .blank) : Portion offset [c] [] []
  | invalid {c : Char} (hrole : CharClass.of c = .invalid) :
      Portion offset [c] [] [⟨Span.clamped offset (offset + c.utf8Size), c⟩]
  | mark {c : Char} {kind : Kind} (hrole : CharClass.of c = .mark kind) :
      Portion offset [c] [Scanner.token kind offset [c]] []
  | word {word : List Char} (hne : word ≠ []) (hletters : ∀ c ∈ word, c.isAlpha = true) :
      Portion offset word [Scanner.token .name offset word] []

/-- No word goes on from the one stretch of characters into the other. -/
def Apart (front rest : List Char) : Prop :=
  ∀ c ∈ front.getLast?, c.isAlpha = true → ∀ d ∈ rest.head?, d.isAlpha = false

/-- The characters that start at an offset, laid out in pieces. -/
inductive Layout : Nat → List Char → List Token → List InvalidCharacter → Prop where
  | nil {offset : Nat} : Layout offset [] [] []
  | cons {offset : Nat} {piece rest : List Char} {ts tokens : List Token}
      {es errors : List InvalidCharacter} (hpiece : Portion offset piece ts es)
      (hapart : Apart piece rest)
      (hrest : Layout (offset + Text.byteLength piece) rest tokens errors) :
      Layout offset (piece ++ rest) (ts ++ tokens) (es ++ errors)

/-- A character that is no letter is apart from whatever follows. -/
theorem Apart.of_not_letter {c : Char} (h : CharClass.of c ≠ .letter) (rest : List Char) :
    Apart [c] rest := by
  intro d hlast hletter
  obtain rfl : c = d := by simpa using hlast
  exact absurd (CharClass.of_eq_letter_iff.2 hletter) h

/-- One scan lays out the text up to the token that it finds. -/
theorem Scanner.layout_scan (endOffset : UInt32) (skipped : Array InvalidCharacter) (offset : Nat)
    (rest : List Char) :
    let r := scan endOffset skipped offset rest
    ∃ found, r.2.errors = skipped.toList ++ found ∧
      (r.1 = .eof endOffset ∧ Layout offset rest [] found ∨
        r.1.isEof = false ∧ ∀ tokens errors, Layout r.2.offset r.2.rest tokens errors →
          Layout offset rest (r.1 :: tokens) (found ++ errors)) := by
  have hapart : ∀ {c : Char} {role : CharClass} {rest : List Char}, CharClass.of c = role →
      role ≠ .letter → Apart [c] rest := fun hclass hne => .of_not_letter (hclass ▸ hne) _
  fun_induction scan endOffset skipped offset rest with
  | case1 skipped offset => exact ⟨[], (List.append_nil _).symm, .inl ⟨rfl, .nil⟩⟩
  | case2 skipped offset c rest hclass ih =>
      obtain ⟨found, herrors, ⟨heof, hlayout⟩ | ⟨hne, hlayout⟩⟩ := ih
      · exact ⟨found, herrors, .inl ⟨heof, .cons (.blank hclass) (hapart hclass (by simp)) hlayout⟩⟩
      · exact ⟨found, herrors, .inr ⟨hne, fun tokens errors hrest =>
          .cons (.blank hclass) (hapart hclass (by simp)) (hlayout tokens errors hrest)⟩⟩
  | case3 skipped offset c rest hclass stop ih =>
      obtain ⟨found, herrors, hlayout⟩ := ih
      refine ⟨⟨Span.clamped offset stop, c⟩ :: found, ?_, ?_⟩
      · rw [herrors, recordSlice_singleton, Array.toList_push, List.append_assoc]
        rfl
      rcases hlayout with ⟨heof, hlayout⟩ | ⟨hne, hlayout⟩
      · exact .inl ⟨heof, .cons (.invalid hclass) (hapart hclass (by simp)) hlayout⟩
      · exact .inr ⟨hne, fun tokens errors hrest =>
          .cons (.invalid hclass) (hapart hclass (by simp)) (hlayout tokens errors hrest)⟩
  | case4 skipped offset c rest kind hclass =>
      refine ⟨[], (List.append_nil _).symm, .inr ⟨?_, fun tokens errors hrest =>
        .cons (.mark hclass) (hapart hclass (by simp)) hrest⟩⟩
      simp [token, Token.isEof, ne_eof_of_mark hclass]
  | case5 skipped offset c rest hclass word =>
      refine ⟨[], (List.append_nil _).symm, .inr ⟨rfl, fun tokens errors hrest => ?_⟩⟩
      have hsplit : c :: rest = word ++ rest.dropWhile Char.isAlpha := by
        simp [word, List.takeWhile_append_dropWhile]
      rw [hsplit]
      refine .cons (.word (List.cons_ne_nil _ _) ?_) ?_ hrest
      · intro d hmem
        rcases List.mem_cons.1 hmem with rfl | hmem
        · exact CharClass.of_eq_letter_iff.1 hclass
        · exact List.mem_takeWhile_imp hmem
      · intro _ _ _ d hhead
        have hstops := List.head?_dropWhile_not Char.isAlpha rest
        rw [Option.mem_def.1 hhead] at hstops
        exact Bool.eq_false_iff.2 (by simpa using hstops)

/-- Draining a scanner lays out the rest of its text. -/
theorem Scanner.layout_drain (before : Array Token) (s : Scanner) :
    ∃ tokens errors, (s.drain before).1 = (before ++ tokens.toArray).push (.eof s.endOffset) ∧
      (s.drain before).2.errors = s.errors ++ errors ∧ Layout s.offset s.rest tokens errors := by
  fun_induction drain before s with
  | case1 before s step heof =>
      obtain ⟨found, herrors, ⟨heq, hlayout⟩ | ⟨hne, -⟩⟩ :=
        layout_scan s.endOffset s.skipped s.offset s.rest
      · refine ⟨[], found, ?_, herrors, hlayout⟩
        rw [show step.1 = _ from heq]
        simp
      · rw [show step.1.isEof = _ from hne] at heof
        cases heof
  | case2 before s step hne _ ih =>
      obtain ⟨found, herrors, ⟨heq, -⟩ | ⟨-, hlayout⟩⟩ :=
        layout_scan s.endOffset s.skipped s.offset s.rest
      · rw [show step.1 = _ from heq] at hne
        exact absurd rfl hne
      · obtain ⟨tokens, errors, htokens, hlater, hrest⟩ := ih
        refine ⟨step.1 :: tokens, found ++ errors, ?_, ?_, hlayout tokens errors hrest⟩
        · rw [htokens, show step.2.endOffset = s.endOffset from endOffset_scan _ _ _ _]
          simp
        · rw [hlater, show step.2.errors = _ from herrors, List.append_assoc]
          rfl

/-- The tokens and errors of a text are those of its layout, and then the end of input. -/
theorem exists_layout_lex (source : String) :
    ∃ tokens, (lex source).1 = tokens ++ [.eof (Scanner.ofSource source).endOffset] ∧
      Layout 0 source.toList tokens (lex source).2 := by
  obtain ⟨tokens, errors, htokens, herrors, hlayout⟩ :=
    Scanner.layout_drain #[] (.ofSource source)
  have hlater : (lex source).2 = errors := herrors
  refine ⟨tokens, ?_, hlater ▸ hlayout⟩
  show (Scanner.drain _ _).1.toList = _
  rw [htokens]
  simp

-- ============================================================================
-- Where tokens and errors stand
-- ============================================================================

/-- The span takes in the bytes of a character that starts at `offset`. -/
def Span.Covers (s : Span) (offset : Nat) (c : Char) : Prop :=
  s.start.toNat ≤ offset ∧ offset + c.utf8Size ≤ s.stop.toNat

/-- The one span starts and ends before the other starts. -/
def Span.Precedes (s t : Span) : Prop := s.start < t.start ∧ s.stop ≤ t.start

/-- The error is about the character `c` that starts at `offset`, and its span is the bytes of
    that character. -/
def InvalidCharacter.IsAt (e : InvalidCharacter) (offset : Nat) (c : Char) : Prop :=
  e.found = c ∧ e.span.start.toNat = offset ∧ e.span.stop.toNat = offset + c.utf8Size

instance (s : Span) (offset : Nat) (c : Char) : Decidable (s.Covers offset c) :=
  inferInstanceAs (Decidable (_ ∧ _))

instance (e : InvalidCharacter) (offset : Nat) (c : Char) : Decidable (e.IsAt offset c) :=
  inferInstanceAs (Decidable (_ ∧ _ ∧ _))

variable {offset : Nat} {piece cs u v : List Char} {c : Char} {ts tokens : List Token}
variable {es errors : List InvalidCharacter}

theorem Portion.ne_nil (h : Portion offset piece ts es) : piece ≠ [] := by
  cases h with
  | word hne => exact hne
  | blank => exact List.cons_ne_nil _ _
  | invalid => exact List.cons_ne_nil _ _
  | mark => exact List.cons_ne_nil _ _

/-- What a piece leaves has the span of the piece, if that fits. -/
theorem Portion.span_eq (h : Portion offset piece ts es) (span : Span)
    (hmem : span ∈ ts.map Token.span ++ es.map InvalidCharacter.span) :
    span = Span.clamped offset (offset + Text.byteLength piece) := by
  cases h with
  | blank => simp at hmem
  | invalid => simpa using hmem
  | mark => simpa [Scanner.token] using hmem
  | word => simpa [Scanner.token] using hmem

theorem Portion.span (h : Portion offset piece ts es)
    (hfits : offset + Text.byteLength piece < 2 ^ 32) (span : Span)
    (hmem : span ∈ ts.map Token.span ++ es.map InvalidCharacter.span) :
    span.start.toNat = offset ∧ span.stop.toNat = offset + Text.byteLength piece := by
  rw [h.span_eq span hmem]
  exact ⟨Span.toNat_start_clamped (Nat.le_add_right _ _) (by omega),
    Span.toNat_stop_clamped (Nat.le_add_right _ _) (by omega)⟩

theorem Portion.byteLength_pos (h : Portion offset piece ts es) : 0 < Text.byteLength piece := by
  cases piece with
  | nil => exact absurd rfl h.ne_nil
  | cons c rest => exact Nat.lt_of_lt_of_le c.utf8Size_pos (Nat.le_add_right _ _)

namespace Layout

/-- What is laid out lies behind the offset. -/
theorem le_start (h : Layout offset cs tokens errors)
    (hfits : offset + Text.byteLength cs < 2 ^ 32) :
    (∀ t ∈ tokens, offset ≤ t.span.start.toNat) ∧ ∀ e ∈ errors, offset ≤ e.span.start.toNat := by
  induction h with
  | nil => simp
  | cons hpiece _ _ ih =>
      rw [Text.byteLength_append] at hfits
      have hspan := hpiece.span (by omega)
      obtain ⟨htokens, herrors⟩ := ih (by omega)
      refine ⟨fun t hmem => ?_, fun e hmem => ?_⟩
      · rcases List.mem_append.1 hmem with hmem | hmem
        · exact Nat.le_of_eq (hspan t.span (by simp [List.mem_map_of_mem hmem])).1.symm
        · have := htokens t hmem
          omega
      · rcases List.mem_append.1 hmem with hmem | hmem
        · exact Nat.le_of_eq (hspan e.span (by simp [List.mem_map_of_mem hmem])).1.symm
        · have := herrors e hmem
          omega

/-- Spans at which later pieces start come behind the span of a piece. -/
theorem precedes_of_le {s t : Span} {stop : Nat} (hstart : s.start.toNat = offset)
    (hstop : s.stop.toNat = offset + stop) (hpos : 0 < stop) (hle : offset + stop ≤ t.start.toNat) :
    s.Precedes t := by
  refine ⟨UInt32.lt_iff_toNat_lt.2 ?_, UInt32.le_iff_toNat_le.2 ?_⟩
  · omega
  · omega

/-- Tokens and errors come in the order of their spans, which do not overlap. -/
theorem sorted (h : Layout offset cs tokens errors)
    (hfits : offset + Text.byteLength cs < 2 ^ 32) :
    tokens.Pairwise (fun s t => s.span.Precedes t.span) ∧
      errors.Pairwise (fun d e => d.span.Precedes e.span) := by
  induction h with
  | nil => simp
  | cons hpiece _ hrest ih =>
      rw [Text.byteLength_append] at hfits
      have hpos := hpiece.byteLength_pos
      have hspan := hpiece.span (by omega)
      obtain ⟨htokens, herrors⟩ := ih (by omega)
      obtain ⟨hle, hle'⟩ := hrest.le_start (by omega)
      -- A piece leaves one token or error at most, so only later ones are to be compared with it.
      refine ⟨List.pairwise_append.2 ⟨?_, htokens, fun s hs t ht => ?_⟩,
        List.pairwise_append.2 ⟨?_, herrors, fun d hd e he => ?_⟩⟩
      · cases hpiece <;> simp
      · obtain ⟨hstart, hstop⟩ := hspan s.span (by simp [List.mem_map_of_mem hs])
        exact precedes_of_le hstart hstop hpos (hle t ht)
      · cases hpiece <;> simp
      · obtain ⟨hstart, hstop⟩ := hspan d.span (by simp [List.mem_map_of_mem hd])
        exact precedes_of_le hstart hstop hpos (hle' e he)

end Layout

-- ============================================================================
-- Tokens read off the text
-- ============================================================================

/-- The span of the token holds `word`, which is its text: a longest run of letters for a name,
    and for the other kinds their one character. -/
structure Token.ReadsOff (t : Token) (offset : Nat) (text before word after : List Char) :
    Prop where
  split : text = before ++ word ++ after
  start : t.span.start.toNat = offset + Text.byteLength before
  stop : t.span.stop.toNat = offset + Text.byteLength (before ++ word)
  text_eq : t.text = String.ofList word
  lexeme : (t.kind = .name ∧ word ≠ [] ∧ (∀ c ∈ word, c.isAlpha = true) ∧
      (∀ c ∈ before.getLast?, c.isAlpha = false) ∧ ∀ c ∈ after.head?, c.isAlpha = false) ∨
    ∃ c, word = [c] ∧ (t.kind, c) ∈ CharClass.marks

/-- The token of a piece is read off it. -/
theorem Portion.readsOff (h : Portion offset piece ts es) {rest : List Char}
    (hapart : Apart piece rest) (hfits : offset + Text.byteLength piece < 2 ^ 32) {t : Token}
    (hmem : t ∈ ts) : t.ReadsOff offset (piece ++ rest) [] piece rest := by
  obtain ⟨hstart, hstop⟩ := h.span hfits t.span (by simp [List.mem_map_of_mem hmem])
  refine ⟨rfl, hstart, hstop, ?_, ?_⟩
  · cases h with
    | blank => cases hmem
    | invalid => cases hmem
    | mark => rw [List.mem_singleton.1 hmem]; rfl
    | word => rw [List.mem_singleton.1 hmem]; rfl
  · cases h with
    | blank => cases hmem
    | invalid => cases hmem
    | @mark c kind hclass =>
        rw [List.mem_singleton.1 hmem]
        exact .inr ⟨c, rfl, CharClass.of_eq_mark_iff.1 hclass⟩
    | word hne hletters =>
        rw [List.mem_singleton.1 hmem]
        refine .inl ⟨rfl, hne, hletters, by simp, ?_⟩
        exact hapart _ (List.getLast?_eq_some_getLast hne) (hletters _ (List.getLast_mem hne))

/-- A token that is read off the rest of a text is read off the text. -/
theorem Token.ReadsOff.behind {t : Token} {rest before word after : List Char}
    (h : t.ReadsOff (offset + Text.byteLength piece) rest before word after)
    (hapart : Apart piece rest) :
    t.ReadsOff offset (piece ++ rest) (piece ++ before) word after := by
  refine ⟨by simp [h.split], ?_, ?_, h.text_eq, ?_⟩
  · rw [h.start, Text.byteLength_append, Nat.add_assoc]
  · rw [h.stop, List.append_assoc, Text.byteLength_append piece, Nat.add_assoc]
  · refine h.lexeme.imp_left ?_
    rintro ⟨hname, hne, hletters, hbefore, hafter⟩
    refine ⟨hname, hne, hletters, fun c hlast => ?_, hafter⟩
    -- In front of the rest stands the piece, which no word goes on from.
    cases hcases : before.getLast? with
    | some d =>
        rw [List.getLast?_append, hcases] at hlast
        exact hbefore c (hcases.trans hlast)
    | none =>
        obtain rfl := List.getLast?_eq_none_iff.1 hcases
        rw [List.append_nil] at hlast
        obtain ⟨d, word, rfl⟩ := List.exists_cons_of_ne_nil hne
        refine Bool.eq_false_iff.2 fun hletter => ?_
        have hstops := hapart c hlast hletter d (by simp [h.split])
        rw [hletters d List.mem_cons_self] at hstops
        cases hstops

theorem Layout.readsOff (h : Layout offset cs tokens errors)
    (hfits : offset + Text.byteLength cs < 2 ^ 32) {t : Token} (hmem : t ∈ tokens) :
    ∃ before word after, t.ReadsOff offset cs before word after := by
  induction h with
  | nil => cases hmem
  | cons hpiece hapart _ ih =>
      rw [Text.byteLength_append] at hfits
      rcases List.mem_append.1 hmem with hmem | hmem
      · exact ⟨_, _, _, hpiece.readsOff hapart (by omega) hmem⟩
      · obtain ⟨before, word, after, hreads⟩ := ih (by omega) hmem
        exact ⟨_, word, after, hreads.behind hapart⟩

theorem Token.ReadsOff.ne_eof {t : Token} {text before word after : List Char}
    (h : t.ReadsOff offset text before word after) : t.kind ≠ .eof := by
  rcases h.lexeme with ⟨hname, -⟩ | ⟨c, -, hmark⟩
  · rw [hname]
    decide
  · intro heof
    simp [heof, CharClass.marks] at hmark

-- ============================================================================
-- Characters accounted for
-- ============================================================================

/-- A character of two stretches stands in the one or in the other. -/
theorem exists_of_append_eq {front rest : List Char} (h : front ++ rest = u ++ c :: v) :
    (∃ w, front = u ++ c :: w) ∨ ∃ w, u = front ++ w ∧ rest = w ++ c :: v := by
  rcases List.append_eq_append_iff.1 h with ⟨w, hu, hrest⟩ | ⟨w, hfront, hv⟩
  · exact .inr ⟨w, hu, hrest⟩
  · cases w with
    | nil => exact .inr ⟨[], by simpa using hfront.symm, by simpa using hv.symm⟩
    | cons d w =>
        obtain ⟨rfl, -⟩ := List.cons.inj hv
        exact .inl ⟨w, hfront⟩

/-- The tokens and errors that a piece leaves about a character of it. -/
theorem Portion.counts (h : Portion offset piece ts es) (hsplit : piece = u ++ c :: v)
    (hfits : offset + Text.byteLength piece < 2 ^ 32) :
    ts.countP (·.span.Covers (offset + Text.byteLength u) c) =
        (if CharClass.of c = .invalid ∨ CharClass.of c = .blank then 0 else 1) ∧
      es.countP (·.IsAt (offset + Text.byteLength u) c) =
        if CharClass.of c = .invalid then 1 else 0 := by
  have hspan := h.span hfits
  have hcovers : ∀ t ∈ ts, t.span.Covers (offset + Text.byteLength u) c := by
    intro t hmem
    obtain ⟨hstart, hstop⟩ := hspan t.span (by simp [List.mem_map_of_mem hmem])
    rw [hsplit, Text.byteLength_append] at hstop
    have hlast : c.utf8Size ≤ Text.byteLength (c :: v) := Nat.le_add_right _ _
    exact ⟨by omega, by omega⟩
  have hone : ∀ {d : Char}, [d] = u ++ c :: v → u = [] ∧ d = c := by
    intro d hsplit
    cases u with
    | nil => exact ⟨rfl, (List.cons.inj hsplit).1⟩
    | cons _ _ => simp at hsplit
  cases h with
  | blank hclass =>
      obtain ⟨rfl, rfl⟩ := hone hsplit
      simp [hclass]
  | invalid hclass =>
      obtain ⟨rfl, rfl⟩ := hone hsplit
      have hat := hspan _ (List.mem_append_right _ List.mem_cons_self)
      simp only [Text.byteLength_cons, Text.byteLength_nil, Nat.add_zero] at hat
      simp [hclass, InvalidCharacter.IsAt, hat]
  | mark hclass =>
      obtain ⟨rfl, rfl⟩ := hone hsplit
      have hcovered := hcovers _ (List.mem_singleton.2 rfl)
      rw [Text.byteLength_nil, Nat.add_zero] at hcovered ⊢
      simp [hclass, hcovered]
  | word hne hletters =>
      have hclass := CharClass.of_eq_letter_iff.2 (hletters c (by simp [hsplit]))
      simp [hclass, hcovers _ (List.mem_singleton.2 rfl)]

namespace Layout

/-- The tokens and errors of a layout about a character of it. -/
theorem counts (h : Layout offset cs tokens errors)
    (hfits : offset + Text.byteLength cs < 2 ^ 32) (hsplit : cs = u ++ c :: v) :
    tokens.countP (·.span.Covers (offset + Text.byteLength u) c) =
        (if CharClass.of c = .invalid ∨ CharClass.of c = .blank then 0 else 1) ∧
      errors.countP (·.IsAt (offset + Text.byteLength u) c) =
        if CharClass.of c = .invalid then 1 else 0 := by
  induction h generalizing u with
  | nil => simp at hsplit
  | @cons offset piece rest ts tokens es errors hpiece _ hrest ih =>
      rw [Text.byteLength_append] at hfits
      have hpos := c.utf8Size_pos
      rw [List.countP_append, List.countP_append]
      rcases exists_of_append_eq hsplit with ⟨w, hin⟩ | ⟨w, rfl, hbehind⟩
      · -- What the pieces behind leave starts behind the character.
        obtain ⟨hle, hle'⟩ := hrest.le_start (by omega)
        have hlt : offset + Text.byteLength u < offset + Text.byteLength piece := by
          rw [hin, Text.byteLength_append, Text.byteLength_cons]
          omega
        have htokens : tokens.countP (·.span.Covers (offset + Text.byteLength u) c) = 0 := by
          refine List.countP_eq_zero.2 fun t hmem hcovers => ?_
          have := (of_decide_eq_true hcovers).1
          have := hle t hmem
          omega
        have herrors : errors.countP (·.IsAt (offset + Text.byteLength u) c) = 0 := by
          refine List.countP_eq_zero.2 fun e hmem hat => ?_
          have := (of_decide_eq_true hat).2.1
          have := hle' e hmem
          omega
        rw [htokens, herrors]
        exact hpiece.counts hin (by omega)
      · -- What the head piece leaves ends in front of the character.
        have hspan := hpiece.span (by omega)
        rw [Text.byteLength_append, ← Nat.add_assoc]
        have htokens : ts.countP
            (·.span.Covers (offset + Text.byteLength piece + Text.byteLength w) c) = 0 := by
          refine List.countP_eq_zero.2 fun t hmem hcovers => ?_
          have := (of_decide_eq_true hcovers).2
          have := (hspan t.span (by simp [List.mem_map_of_mem hmem])).2
          omega
        have herrors : es.countP
            (·.IsAt (offset + Text.byteLength piece + Text.byteLength w) c) = 0 := by
          refine List.countP_eq_zero.2 fun e hmem hat => ?_
          have := (of_decide_eq_true hat).2.1
          have := (hspan e.span (by simp [List.mem_map_of_mem hmem])).1
          have := hpiece.byteLength_pos
          omega
        rw [htokens, herrors, Nat.zero_add, Nat.zero_add]
        exact ih (by omega) hbehind

theorem exists_isAt_iff (h : Layout offset cs tokens errors)
    (hfits : offset + Text.byteLength cs < 2 ^ 32) (hsplit : cs = u ++ c :: v) :
    (∃ e ∈ errors, e.IsAt (offset + Text.byteLength u) c) ↔ CharClass.of c = .invalid := by
  have hcount := (h.counts hfits hsplit).2
  have hpos := List.countP_pos_iff (l := errors)
    (p := fun e => decide (e.IsAt (offset + Text.byteLength u) c))
  simp only [decide_eq_true_eq] at hpos
  rw [← hpos, hcount]
  split <;> simp [*]

/-- Each error is about a character of the text. -/
theorem errors_at (h : Layout offset cs tokens errors)
    (hfits : offset + Text.byteLength cs < 2 ^ 32) {e : InvalidCharacter} (hmem : e ∈ errors) :
    ∃ before after, cs = before ++ e.found :: after ∧
      e.IsAt (offset + Text.byteLength before) e.found := by
  induction h with
  | nil => cases hmem
  | @cons offset piece rest ts tokens es errors hpiece _ _ ih =>
      rw [Text.byteLength_append] at hfits
      rcases List.mem_append.1 hmem with hmem | hmem
      · have hspan := hpiece.span (by omega) e.span (by simp [List.mem_map_of_mem hmem])
        cases hpiece with
        | invalid =>
            obtain rfl := List.mem_singleton.1 hmem
            exact ⟨[], rest, rfl, rfl, by simpa using hspan⟩
        | blank => cases hmem
        | mark => cases hmem
        | word => cases hmem
      · obtain ⟨before, after, rfl, hat⟩ := ih (by omega) hmem
        exact ⟨piece ++ before, after, by simp,
          by rwa [Text.byteLength_append, ← Nat.add_assoc]⟩

/-- What is laid out lies in front of the end of the text. -/
theorem start_lt (h : Layout offset cs tokens errors)
    (hfits : offset + Text.byteLength cs < 2 ^ 32) {t : Token} (hmem : t ∈ tokens) :
    t.span.start.toNat < offset + Text.byteLength cs ∧
      t.span.stop.toNat ≤ offset + Text.byteLength cs := by
  obtain ⟨before, word, after, hreads⟩ := h.readsOff hfits hmem
  have hword : 0 < Text.byteLength word := by
    rcases hreads.lexeme with ⟨-, hne, -⟩ | ⟨c, rfl, -⟩
    · obtain ⟨c, word, rfl⟩ := List.exists_cons_of_ne_nil hne
      exact Nat.lt_of_lt_of_le c.utf8Size_pos (Nat.le_add_right _ _)
    · exact c.utf8Size_pos
  rw [hreads.start, hreads.stop, hreads.split]
  simp only [Text.byteLength_append]
  omega

end Layout

/-- The tokens and errors account for every character of a text: each is in one token, in one
    error, or is a blank. -/
structure Accounted (text : List Char) (tokens : List Token) (errors : List InvalidCharacter) :
    Prop where
  /-- A character is covered by one token, or is the character of one error, or is a blank. -/
  one : ∀ u c v, text = u ++ c :: v →
    tokens.countP (·.span.Covers (Text.byteLength u) c) +
      errors.countP (·.IsAt (Text.byteLength u) c) + (if c ∈ CharClass.blanks then 1 else 0) = 1
  /-- The errors are about the characters that are no letters, no marks and no blanks. -/
  error_iff : ∀ u c v, text = u ++ c :: v →
    ((∃ e ∈ errors, e.IsAt (Text.byteLength u) c) ↔
      c.isAlpha = false ∧ c ∉ CharClass.blanks ∧ ∀ kind, (kind, c) ∉ CharClass.marks)
  errors_at : ∀ e ∈ errors, ∃ before after, text = before ++ e.found :: after ∧
    e.IsAt (Text.byteLength before) e.found
  readsOff : ∀ t ∈ tokens, t.kind ≠ .eof →
    ∃ before word after, t.ReadsOff 0 text before word after
  tokens_sorted : tokens.Pairwise fun s t => s.span.Precedes t.span
  errors_sorted : errors.Pairwise fun d e => d.span.Precedes e.span
  /-- The end of input comes once, behind the other tokens and at the end of the text. -/
  ends : ∃ body stop, tokens = body ++ [.eof stop] ∧ (∀ t ∈ body, t.kind ≠ .eof) ∧
    stop.toNat = Text.byteLength text

/-- Scanning a text at once accounts for every character of it. -/
theorem accounted_lex (source : String) (hfits : source.utf8ByteSize < 2 ^ 32) :
    Accounted source.toList (lex source).1 (lex source).2 := by
  obtain ⟨body, htokens, hlayout⟩ := exists_layout_lex source
  have hbytes : 0 + Text.byteLength source.toList < 2 ^ 32 := by
    rwa [Text.byteLength_toList, Nat.zero_add]
  have hend : (Scanner.ofSource source).endOffset.toNat = Text.byteLength source.toList :=
    Scanner.toNat_endOffset_ofSource hfits
  obtain ⟨hsorted, hsorted'⟩ := hlayout.sorted hbytes
  have hreads := fun t hmem => hlayout.readsOff hbytes (t := t) hmem
  have hcounts := fun u c v hsplit => hlayout.counts (u := u) (c := c) (v := v) hbytes hsplit
  simp only [Nat.zero_add] at hcounts
  rw [htokens]
  refine ⟨fun u c v hsplit => ?_, fun u c v hsplit => ?_, fun e hmem => ?_, fun t hmem hne => ?_,
    List.pairwise_append.2 ⟨hsorted, List.pairwise_singleton _ _, fun t hmem s hs => ?_⟩, hsorted',
    body, _, rfl, fun t hmem => ?_, hend⟩
  · have huncovered : ¬ (Token.eof (Scanner.ofSource source).endOffset).span.Covers
        (Text.byteLength u) c := by
      rintro ⟨hle, hle'⟩
      have := c.utf8Size_pos
      exact absurd (Nat.le_trans hle' hle) (by omega)
    obtain ⟨hcovering, hat⟩ := hcounts u c v hsplit
    have hend : [Token.eof (Scanner.ofSource source).endOffset].countP
        (·.span.Covers (Text.byteLength u) c) = 0 := by
      simp [huncovered]
    rw [List.countP_append, hcovering, hend, hat]
    simp only [← CharClass.of_eq_blank_iff]
    cases CharClass.of c <;> simp
  · rw [← CharClass.of_eq_invalid_iff]
    simpa using hlayout.exists_isAt_iff hbytes hsplit
  · simpa using hlayout.errors_at hbytes hmem
  · rcases List.mem_append.1 hmem with hmem | hmem
    · exact hreads t hmem
    · exact absurd (by rw [List.mem_singleton.1 hmem]; rfl) hne
  · obtain rfl := List.mem_singleton.1 hs
    obtain ⟨hlt, hle⟩ := hlayout.start_lt hbytes hmem
    rw [Nat.zero_add, ← hend] at hlt hle
    exact ⟨UInt32.lt_iff_toNat_lt.2 hlt, UInt32.le_iff_toNat_le.2 hle⟩
  · obtain ⟨before, word, after, hreads⟩ := hreads t hmem
    exact hreads.ne_eof

/-- In `ab[é\t#x` a mark and an invalid character of two bytes stand next to the words. -/
theorem accounted_lex_of_mixed :
    "ab[é\t#x".utf8ByteSize < 2 ^ 32 ∧
      Accounted "ab[é\t#x".toList (lex "ab[é\t#x").1 (lex "ab[é\t#x").2 :=
  have hfits : "ab[é\t#x".utf8ByteSize < 2 ^ 32 := by decide
  ⟨hfits, accounted_lex _ hfits⟩

end Packrat
