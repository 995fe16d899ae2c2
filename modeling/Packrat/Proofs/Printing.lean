/-
  Packrat.Proofs.Printing

  Scanning undoes printing.

  Tokens are printed with blanks in front of them, between them and behind
  them, and with at least one between two names (`Printout`).  The printed text
  has a layout with these tokens and without errors, since each token is a
  piece of it that ends where the token does.  A text has only one layout
  (`Layout.unique`), and it is the one that the scanner finds, so the tokens
  come back as they were printed; and what a parse makes of a text without
  errors depends on the kinds of its tokens alone.
-/

import Mathlib.Data.List.Chain
import Packrat.Proofs.Layout
import Packrat.Proofs.SourceParse

namespace Packrat

-- ============================================================================
-- One layout for a text
-- ============================================================================

theorem CharClass.not_letter {c : Char} (h : of c ≠ .letter) : c.isAlpha = false :=
  Bool.eq_false_iff.2 fun hletter => h (of_eq_letter_iff.2 hletter)

variable {offset : Nat} {piece rest cs gap : List Char} {ts tokens tokens' : List Token}
variable {es errors errors' : List InvalidCharacter}

/-- Letters that nothing goes on from are the longest word of the text. -/
theorem Apart.takeWhile_eq (h : Apart piece rest) (hne : piece ≠ [])
    (hletters : ∀ c ∈ piece, c.isAlpha = true) :
    (piece ++ rest).takeWhile Char.isAlpha = piece := by
  have hlast := List.getLast?_eq_some_getLast hne
  have hstops := h _ hlast (hletters _ (List.getLast_mem hne))
  have hrest : rest.takeWhile Char.isAlpha = [] := by
    cases rest with
    | nil => rfl
    | cons d rest => simp [hstops d rfl]
  rw [List.takeWhile_append_of_pos hletters, hrest, List.append_nil]

/-- How a piece goes on, and what it leaves, is settled by its first character. -/
theorem Portion.of_head {c : Char} (h : Portion offset (c :: cs) ts es) :
    match CharClass.of c with
    | .blank => cs = [] ∧ ts = [] ∧ es = []
    | .invalid => cs = [] ∧ ts = [] ∧ es = [⟨Span.clamped offset (offset + c.utf8Size), c⟩]
    | .mark kind => cs = [] ∧ ts = [Scanner.token kind offset [c]] ∧ es = []
    | .letter => (∀ d ∈ c :: cs, d.isAlpha = true) ∧
        ts = [Scanner.token .name offset (c :: cs)] ∧ es = [] := by
  cases h with
  | blank hclass => simp [hclass]
  | invalid hclass => simp [hclass]
  | mark hclass => simp [hclass]
  | word _ hletters =>
      rw [CharClass.of_eq_letter_iff.2 (hletters c List.mem_cons_self)]
      exact ⟨hletters, rfl, rfl⟩

/-- A text starts with one piece only. -/
theorem Portion.unique {piece' rest' : List Char} {ts' : List Token} {es' : List InvalidCharacter}
    (h : Portion offset piece ts es) (h' : Portion offset piece' ts' es')
    (hapart : Apart piece rest) (hapart' : Apart piece' rest')
    (htext : piece' ++ rest' = piece ++ rest) : piece' = piece ∧ ts' = ts ∧ es' = es := by
  obtain ⟨c, cs, rfl⟩ := List.exists_cons_of_ne_nil h.ne_nil
  obtain ⟨c', cs', rfl⟩ := List.exists_cons_of_ne_nil h'.ne_nil
  obtain rfl : c' = c := (List.cons.inj htext).1
  have hhead := h.of_head
  have hhead' := h'.of_head
  cases hclass : CharClass.of c' with
  | letter =>
      rw [hclass] at hhead hhead'
      obtain ⟨hletters, rfl, rfl⟩ := hhead
      obtain ⟨hletters', rfl, rfl⟩ := hhead'
      have hword := hapart.takeWhile_eq (List.cons_ne_nil _ _) hletters
      rw [← htext, hapart'.takeWhile_eq (List.cons_ne_nil _ _) hletters'] at hword
      rw [hword]
      exact ⟨rfl, rfl, rfl⟩
  | blank | invalid | mark kind =>
      -- The first character is the whole piece.
      rw [hclass] at hhead hhead'
      obtain ⟨rfl, rfl, rfl⟩ := hhead
      obtain ⟨rfl, rfl, rfl⟩ := hhead'
      exact ⟨rfl, rfl, rfl⟩

/-- There is only one way to lay out a text. -/
theorem Layout.unique (h : Layout offset cs tokens errors)
    (h' : Layout offset cs tokens' errors') : tokens' = tokens ∧ errors' = errors := by
  induction h generalizing tokens' errors' with
  | nil =>
      generalize htext : ([] : List Char) = cs at h'
      cases h' with
      | nil => exact ⟨rfl, rfl⟩
      | cons hpiece => exact absurd (List.append_eq_nil_iff.1 htext.symm).1 hpiece.ne_nil
  | @cons offset piece rest _ _ _ _ hpiece hapart _ ih =>
      generalize htext : piece ++ rest = cs at h'
      cases h' with
      | nil => exact absurd (List.append_eq_nil_iff.1 htext).1 hpiece.ne_nil
      | cons hpiece' hapart' hrest' =>
          obtain ⟨rfl, rfl, rfl⟩ := hpiece.unique hpiece' hapart hapart' htext.symm
          obtain rfl := List.append_cancel_left htext
          obtain ⟨rfl, rfl⟩ := ih hrest'
          exact ⟨rfl, rfl⟩

/-- Whatever lays out a text is what scanning it finds. -/
theorem Layout.lex_eq {source : String} (h : Layout 0 source.toList tokens errors) :
    lex source = (tokens ++ [.eof (Scanner.ofSource source).endOffset], errors) := by
  obtain ⟨tokens', htokens, hlayout⟩ := exists_layout_lex source
  obtain ⟨rfl, herrors⟩ := h.unique hlayout
  rw [← htokens, ← herrors]

-- ============================================================================
-- Printed tokens
-- ============================================================================

/-- The kind and the text of a token, without its place. -/
def Token.spelling (t : Token) : Kind × String := (t.kind, t.text)

/-- A token as it is printed: a name, or a mark. -/
inductive Lexeme where
  | name (word : List Char) (ne_nil : word ≠ []) (letters : ∀ c ∈ word, c.isAlpha = true)
  | mark (kind : Kind) (c : Char) (mem : (kind, c) ∈ CharClass.marks)

namespace Lexeme

def kind : Lexeme → Kind
  | name .. => .name
  | mark kind .. => kind

def word : Lexeme → List Char
  | name word .. => word
  | mark _ c _ => [c]

/-- The kind of the token and the text that it is printed as. -/
def spelling (l : Lexeme) : Kind × String := (l.kind, String.ofList l.word)

/-- A printed token is a piece that leaves the token. -/
theorem portion (l : Lexeme) (offset : Nat) :
    Portion offset l.word [Scanner.token l.kind offset l.word] [] := by
  cases l with
  | name word hne hletters => exact .word hne hletters
  | mark kind c hmem => exact .mark (CharClass.of_eq_mark_iff.2 hmem)

end Lexeme

/-- Blanks, or none. -/
structure Gap where
  chars : List Char
  blank : ∀ c ∈ chars, c ∈ CharClass.blanks

/-- Blanks leave nothing. -/
theorem Gap.layout (gap : Gap)
    (h : Layout (offset + Text.byteLength gap.chars) rest tokens errors) :
    Layout offset (gap.chars ++ rest) tokens errors := by
  obtain ⟨chars, hblank⟩ := gap
  induction chars generalizing offset with
  | nil => exact h
  | cons c chars ih =>
      have hclass := CharClass.of_eq_blank_iff.2 (hblank c List.mem_cons_self)
      rw [Text.byteLength_cons, ← Nat.add_assoc] at h
      exact .cons (.blank hclass) (.of_not_letter (by rw [hclass]; decide) _)
        (ih (fun d hmem => hblank d (List.mem_cons_of_mem c hmem)) h)

/-- If both of two printed tokens are names, there is a blank behind the first. -/
def KeptApart (x y : Lexeme × Gap) : Prop :=
  x.1.kind = .name → y.1.kind = .name → x.2.chars ≠ []

/-- Tokens with the blanks behind each of them. -/
def printed : List (Lexeme × Gap) → List Char
  | [] => []
  | (lexeme, gap) :: items => lexeme.word ++ (gap.chars ++ printed items)

/-- No word goes on from a token into what is printed behind it. -/
theorem Lexeme.apart {l : Lexeme} {gap : Gap} {items : List (Lexeme × Gap)}
    (h : List.IsChain KeptApart ((l, gap) :: items)) :
    Apart l.word (gap.chars ++ printed items) := by
  cases l with
  | mark kind c hmem =>
      refine .of_not_letter ?_ _
      rw [CharClass.of_eq_mark_iff.2 hmem]
      simp
  | name word hne hletters =>
      intro _ _ _ d hhead
      apply CharClass.not_letter
      obtain ⟨chars, hblank⟩ := gap
      cases chars with
      | cons c chars =>
          obtain rfl : c = d := by simpa using hhead
          rw [CharClass.of_eq_blank_iff.2 (hblank c List.mem_cons_self)]
          decide
      | nil =>
          -- Without a blank no name comes next.
          cases items with
          | nil => cases hhead
          | cons item items =>
              obtain ⟨next, gap⟩ := item
              have hkind : next.kind ≠ .name := fun hname =>
                (List.isChain_cons_cons.1 h).1 rfl hname rfl
              cases next with
              | name => exact absurd rfl hkind
              | mark kind c hmem =>
                  obtain rfl : c = d := by simpa [printed, Lexeme.word] using hhead
                  rw [CharClass.of_eq_mark_iff.2 hmem]
                  simp

/-- Printed tokens lay out the text that they make. -/
theorem exists_layout_printed {items : List (Lexeme × Gap)} (h : items.IsChain KeptApart)
    (offset : Nat) :
    ∃ tokens, Layout offset (printed items) tokens [] ∧
      tokens.map Token.spelling = items.map (·.1.spelling) := by
  induction items generalizing offset with
  | nil => exact ⟨[], .nil, rfl⟩
  | cons item items ih =>
      obtain ⟨l, gap⟩ := item
      obtain ⟨tokens, hlayout, hspelling⟩ := ih h.of_cons
        (offset + Text.byteLength l.word + Text.byteLength gap.chars)
      refine ⟨Scanner.token l.kind offset l.word :: tokens,
        .cons (l.portion offset) (Lexeme.apart h) (gap.layout hlayout), ?_⟩
      rw [List.map_cons, List.map_cons, hspelling]
      rfl

/-- Tokens with blanks to print them with: in front of the first, and behind each of them. -/
structure Printout where
  lead : Gap
  items : List (Lexeme × Gap)
  keptApart : items.IsChain KeptApart

namespace Printout

/-- The tokens that are printed. -/
def lexemes (p : Printout) : List Lexeme := p.items.map Prod.fst

/-- The kinds of the tokens that are printed, and then the end of the input. -/
def kinds (p : Printout) : List Kind := p.lexemes.map Lexeme.kind ++ [.eof]

/-- The printed text. -/
def text (p : Printout) : String := String.ofList (p.lead.chars ++ printed p.items)

theorem exists_lex_text (p : Printout) :
    ∃ tokens, lex p.text = (tokens ++ [.eof (Scanner.ofSource p.text).endOffset], []) ∧
      tokens.map Token.spelling = p.lexemes.map Lexeme.spelling := by
  obtain ⟨tokens, hlayout, hspelling⟩ :=
    exists_layout_printed p.keptApart (0 + Text.byteLength p.lead.chars)
  refine ⟨tokens, Layout.lex_eq ?_, ?_⟩
  · rw [text, String.toList_ofList]
    exact p.lead.layout hlayout
  · rw [hspelling, lexemes, List.map_map]
    rfl

theorem kinds_lex_text (p : Printout) : (lex p.text).1.map Token.kind = p.kinds := by
  obtain ⟨tokens, hlex, hspelling⟩ := p.exists_lex_text
  have hkinds := congrArg (List.map Prod.fst) hspelling
  simp only [List.map_map] at hkinds
  rw [hlex, List.map_append, kinds]
  exact congrArg (· ++ [Kind.eof]) hkinds

/-- Parsing what was printed accepts iff the kinds are a sentence within the limit. -/
theorem exists_parseSource_text (p : Printout) (entry : Entry) (settings : Settings) :
    ∃ result, parseSource p.text entry settings = .ok result ∧
      (result.isOk = true ↔ entry.Sentence p.kinds ∧ NestsWithin settings.maxDepth p.kinds) := by
  obtain ⟨result, e, -, hparse, -, hiff⟩ := Engine.exists_parse_text p.text settings entry
  obtain ⟨later, happend, -⟩ := Engine.errors_of_parse_text hparse
  obtain ⟨tokens, hlex, -⟩ := p.exists_lex_text
  have hnone : e.buffer.source.errors = [] := by
    rw [hlex] at happend
    exact (List.append_eq_nil_iff.1 happend).1
  refine ⟨result, by simp only [parseSource, hparse, hnone], ?_⟩
  rw [p.kinds_lex_text] at hiff
  constructor
  · intro hok
    cases result with
    | ok found => exact ⟨((hiff found).1 rfl).1, ((hiff found).1 rfl).2.1⟩
    | error err => cases hok
  · rintro ⟨hsentence, hnests⟩
    rw [(hiff _).2 ⟨hsentence, hnests, rfl⟩]
    rfl

/-- Scanning a printed text finds the tokens that were printed, with the same kinds and texts and
    in the same order, then the end of the input, and no errors.  So whatever blanks the same
    tokens are printed with, parsing the text accepts it or rejects it alike. -/
theorem lex_text (p q : Printout) (hsame : q.lexemes = p.lexemes) :
    (lex p.text).1.map Token.spelling
      = p.lexemes.map Lexeme.spelling ++ [(.eof, Token.eofText)] ∧
    (lex p.text).2 = [] ∧
    ∀ entry settings, ∃ result result', parseSource p.text entry settings = .ok result ∧
      parseSource q.text entry settings = .ok result' ∧ result'.isOk = result.isOk := by
  obtain ⟨tokens, hlex, hspelling⟩ := p.exists_lex_text
  refine ⟨?_, by rw [hlex], fun entry settings => ?_⟩
  · rw [hlex, List.map_append, hspelling]
    rfl
  · obtain ⟨result, hparse, hiff⟩ := p.exists_parseSource_text entry settings
    obtain ⟨result', hparse', hiff'⟩ := q.exists_parseSource_text entry settings
    have hkinds : q.kinds = p.kinds := by rw [kinds, kinds, hsame]
    rw [hkinds] at hiff'
    exact ⟨result, result', hparse, hparse', Bool.eq_iff_iff.2 (hiff'.trans hiff.symm)⟩

/-- Two names in brackets, with the given blanks behind each of the four tokens. -/
def ofTwoNames (lead first second third fourth : Gap) (h : second.chars ≠ []) : Printout where
  lead := lead
  items := [(.mark .lbracket '[' (by decide), first),
    (.name ['a'] (by simp) (by simp), second),
    (.name ['b', 'c'] (by simp) (by simp), third),
    (.mark .rbracket ']' (by decide), fourth)]
  keptApart := by simp [KeptApart, Lexeme.kind, h]

/-- Two names with one blank between them, and the same names with blanks everywhere. -/
theorem lex_text_of_twoNames :
    let none : Gap := ⟨[], by simp⟩
    let space : Gap := ⟨[' '], by simp [CharClass.blanks]⟩
    let lines : Gap := ⟨['\r', '\n', '\t'], by simp [CharClass.blanks]⟩
    let p := ofTwoNames none none space none none (by decide)
    let q := ofTwoNames lines space lines lines space (by decide)
    q.lexemes = p.lexemes ∧ p.text = "[a bc]" ∧ q.text = "\r\n\t[ a\r\n\tbc\r\n\t] " ∧
      (lex "[a bc]").1.map Token.spelling
        = [(.lbracket, "["), (.name, "a"), (.name, "bc"), (.rbracket, "]"), (.eof, "<EOF>")] ∧
      ∃ result result', parseSource "[a bc]" .stat ⟨true, 4⟩ = .ok result ∧
        parseSource "\r\n\t[ a\r\n\tbc\r\n\t] " .stat ⟨true, 4⟩ = .ok result' ∧
        result'.isOk = result.isOk := by
  intro none space lines p q
  obtain ⟨htokens, -, hparse⟩ := lex_text p q rfl
  exact ⟨rfl, rfl, rfl, htokens, hparse .stat ⟨true, 4⟩⟩

end Printout
end Packrat
