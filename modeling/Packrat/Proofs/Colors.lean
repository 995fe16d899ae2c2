/-
  Packrat.Proofs.Colors

  Colors change nothing but colors.

  A color sequence is an escape, an opening bracket, parameters and an `m`
  (`Ansi.sequence?`).  Reading a text from left to right takes it apart into such
  sequences and the characters between them (`Ansi.items`).  In a text that is
  written in colors, a piece with ink reads as a sequence, the characters of the
  piece and a reset, and a piece without ink as its characters, provided that the
  words themselves hold no escape (`Piece.items_join`).  So without the sequences
  it is the text that is written without colors, and the sequences come in pairs
  (`colors_only_add_escapes`).

  That the words hold no escape goes back to what diagnostics and sources say:
  the rest is fixed wording and numbers.
-/

import Mathlib.Data.List.Infix
import Packrat.Proofs.Carets

namespace Packrat

-- ============================================================================
-- Color sequences
-- ============================================================================

namespace Ansi

variable {c : Char} {cs rest parameters : List Char}

/-- The character that sequences start with. -/
def escape : Char := '\x1b'

/-- The parameters of the sequence that ends all colors. -/
def reset : List Char := ['0']

def isParameter (c : Char) : Bool := c.isDigit || c == ';'

/-- The parameters of the color sequence that a text starts with, and what follows it. -/
def sequence? (text : List Char) : Option (List Char × List Char) := do
  let cs ← [escape, '['].isPrefixOf? text
  let rest ← ['m'].isPrefixOf? (cs.dropWhile isParameter)
  return (cs.takeWhile isParameter, rest)

/-- A part of a text: a color sequence, or a character that is not in one. -/
inductive Item where
  | char (c : Char)
  | color (parameters : List Char)
deriving DecidableEq

theorem sequence?_eq_some (h : sequence? cs = some (parameters, rest)) :
    cs = escape :: '[' :: parameters ++ 'm' :: rest := by
  obtain ⟨body, hbody, h⟩ := Option.bind_eq_some_iff.1 h
  obtain ⟨rest', hrest, h⟩ := Option.bind_eq_some_iff.1 h
  obtain ⟨rfl, rfl⟩ := Prod.mk.inj (Option.some.inj h)
  rw [List.isPrefixOf?_eq_some_iff_append_eq] at hbody hrest
  rw [← hbody, List.cons_append, List.cons_append, List.nil_append]
  have hsplit := List.takeWhile_append_dropWhile (p := isParameter) (l := body)
  rw [← hrest, List.cons_append, List.nil_append] at hsplit
  rw [List.cons_append, List.cons_append, hsplit]

theorem length_sequence?_lt (h : sequence? cs = some (parameters, rest)) :
    rest.length < cs.length := by
  rw [sequence?_eq_some h]
  simp only [List.cons_append, List.length_cons, List.length_append]
  omega

/-- The color sequences of a text, and the characters around them. -/
def items : List Char → List Item
  | [] => []
  | c :: cs =>
    match _h : sequence? (c :: cs) with
    | some (parameters, rest) => .color parameters :: items rest
    | none => .char c :: items cs
termination_by text => text.length
decreasing_by
  · exact length_sequence?_lt _h
  · exact Nat.lt_succ_self cs.length

/-- The character of an item that is one. -/
def Item.char? : Item → Option Char
  | char c => some c
  | color _ => none

/-- The parameters of an item that is a color sequence. -/
def Item.color? : Item → Option (List Char)
  | char _ => none
  | color parameters => some parameters

/-- A text without its color sequences. -/
def strip (text : String) : String := String.ofList ((items text.toList).filterMap Item.char?)

/-- The parameters of the color sequences of a text, in order. -/
def sequences (text : String) : List (List Char) := (items text.toList).filterMap Item.color?

/-- The sequences come in pairs: one that sets a color, and then a reset. -/
inductive Paired : List (List Char) → Prop where
  | nil : Paired []
  | cons {parameters : List Char} {rest : List (List Char)} (hcolor : parameters ≠ reset)
      (hrest : Paired rest) : Paired (parameters :: reset :: rest)

theorem sequence?_of_ne (h : c ≠ escape) : sequence? (c :: cs) = none := by
  cases hsequence : sequence? (c :: cs) with
  | none => rfl
  | some found => exact absurd (List.cons.inj (sequence?_eq_some hsequence)).1 h

theorem sequence?_append (h : ∀ c ∈ parameters, isParameter c = true) :
    sequence? (escape :: '[' :: parameters ++ 'm' :: rest) = some (parameters, rest) := by
  have hm : isParameter 'm' = false := by decide
  have hbody : [escape, '['].isPrefixOf? (escape :: '[' :: parameters ++ 'm' :: rest)
      = some (parameters ++ 'm' :: rest) := List.isPrefixOf?_eq_some_iff_append_eq.2 rfl
  have hrest : ['m'].isPrefixOf? ('m' :: rest) = some rest :=
    List.isPrefixOf?_eq_some_iff_append_eq.2 rfl
  have htake : (parameters ++ 'm' :: rest).takeWhile isParameter = parameters := by
    rw [List.takeWhile_append_of_pos h, List.takeWhile_cons_of_neg (by simp [hm]), List.append_nil]
  have hdrop : (parameters ++ 'm' :: rest).dropWhile isParameter = 'm' :: rest := by
    rw [List.dropWhile_append_of_pos h, List.dropWhile_cons_of_neg (by simp [hm])]
  simp only [sequence?, hbody, hrest, htake, hdrop, Option.bind_eq_bind, Option.bind_some]
  rfl

theorem items_cons_of_ne (h : c ≠ escape) : items (c :: cs) = .char c :: items cs := by
  rw [items]
  split
  · next hsequence =>
      rw [sequence?_of_ne h] at hsequence
      cases hsequence
  · rfl

/-- Characters without an escape are items of their own. -/
theorem items_append (h : escape ∉ cs) : items (cs ++ rest) = cs.map .char ++ items rest := by
  induction cs with
  | nil => rfl
  | cons c cs ih =>
      obtain ⟨hne, hrest⟩ := not_or.1 (mt List.mem_cons.2 h)
      rw [List.cons_append, items_cons_of_ne (Ne.symm hne), ih hrest]
      rfl

/-- A color sequence is one item. -/
theorem items_sequence (h : ∀ c ∈ parameters, isParameter c = true) :
    items (escape :: '[' :: parameters ++ 'm' :: rest) = .color parameters :: items rest := by
  have hsequence : sequence? (escape :: '[' :: parameters ++ 'm' :: rest)
      = some (parameters, rest) := sequence?_append h
  rw [List.cons_append, List.cons_append] at hsequence ⊢
  rw [items]
  split
  · next hsome =>
      rw [hsequence] at hsome
      obtain ⟨rfl, rfl⟩ := Prod.mk.inj (Option.some.inj hsome)
      rfl
  · next hnone =>
      rw [hsequence] at hnone
      cases hnone

end Ansi

-- ============================================================================
-- Pieces
-- ============================================================================

namespace Ink

/-- The parameters of the sequence that starts the ink. -/
def parameters (ink : Ink) : List Char := (ink.start.toList.drop 2).dropLast

theorem toList_start (ink : Ink) :
    ink.start.toList = Ansi.escape :: '[' :: ink.parameters ++ ['m'] := by
  cases ink <;> decide

theorem toList_stop : stop.toList = Ansi.escape :: '[' :: Ansi.reset ++ ['m'] := by decide

theorem isParameter_of_mem (ink : Ink) : ∀ c ∈ ink.parameters, Ansi.isParameter c = true := by
  have hall : ink.parameters.all Ansi.isParameter = true := by cases ink <;> decide
  exact List.all_eq_true.1 hall

theorem parameters_ne_reset (ink : Ink) : ink.parameters ≠ Ansi.reset := by
  cases ink <;> decide

end Ink

namespace Piece

variable {p : Piece} {pieces : List Piece}

/-- What a piece with colors reads as. -/
def items (p : Piece) : List Ansi.Item :=
  match p.ink with
  | none => p.text.toList.map .char
  | some ink => .color ink.parameters :: p.text.toList.map .char ++ [.color Ansi.reset]

/-- The characters of a piece are read before anything that follows it. -/
theorem items_write (h : Ansi.escape ∉ p.text.toList) (rest : List Char) :
    Ansi.items ((p.write true).toList ++ rest) = p.items ++ Ansi.items rest := by
  obtain ⟨ink, text⟩ := p
  cases ink with
  | none => exact Ansi.items_append h
  | some ink =>
      have hreset : ∀ c ∈ Ansi.reset, Ansi.isParameter c = true := List.all_eq_true.1 (by decide)
      have hwrite : (write true ⟨some ink, text⟩).toList ++ rest
          = Ansi.escape :: '[' :: ink.parameters ++ 'm' ::
            (text.toList ++ (Ansi.escape :: '[' :: Ansi.reset ++ 'm' :: rest)) := by
        simp [write, Ink.toList_start, Ink.toList_stop]
      rw [hwrite, Ansi.items_sequence ink.isParameter_of_mem, Ansi.items_append h,
        Ansi.items_sequence hreset]
      simp [items]

/-- Colored pieces read as one after the other. -/
theorem items_join (h : ∀ p ∈ pieces, Ansi.escape ∉ p.text.toList) :
    Ansi.items (join true pieces).toList = pieces.flatMap items := by
  induction pieces with
  | nil => rw [join_nil, String.toList_empty, Ansi.items, List.flatMap_nil]
  | cons p pieces ih =>
      obtain ⟨hp, hpieces⟩ := List.forall_mem_cons.1 h
      rw [join_cons, String.toList_append, items_write hp, ih hpieces, List.flatMap_cons]

theorem filterMap_char?_items (p : Piece) : p.items.filterMap Ansi.Item.char? = p.text.toList := by
  have hchars : ∀ cs : List Char, (cs.map Ansi.Item.char).filterMap Ansi.Item.char? = cs :=
    fun cs => by simp [List.filterMap_map, Function.comp_def, Ansi.Item.char?]
  obtain ⟨ink, text⟩ := p
  cases ink with
  | none => exact hchars text.toList
  | some ink =>
      show (Ansi.Item.color _ :: (text.toList.map Ansi.Item.char ++ [.color _])).filterMap _ = _
      rw [List.filterMap_cons_none rfl, List.filterMap_append, hchars]
      exact List.append_nil _

/-- Without the sequences colored pieces are plain ones. -/
theorem strip_join (h : ∀ p ∈ pieces, Ansi.escape ∉ p.text.toList) :
    Ansi.strip (join true pieces) = join false pieces := by
  have hwrite : ∀ p : Piece, p.write false = p.text := fun p => by
    cases hink : p.ink <;> simp [write, hink]
  rw [Ansi.strip, items_join h]
  clear h
  induction pieces with
  | nil => rfl
  | cons p pieces ih =>
      rw [List.flatMap_cons, List.filterMap_append, filterMap_char?_items, String.ofList_append,
        ih, String.ofList_toList, join_cons, hwrite]

/-- The sequences of colored pieces are those of inks, each with a reset. -/
theorem paired_join (h : ∀ p ∈ pieces, Ansi.escape ∉ p.text.toList) :
    Ansi.Paired (Ansi.sequences (join true pieces)) := by
  rw [Ansi.sequences, items_join h]
  clear h
  induction pieces with
  | nil => exact .nil
  | cons p pieces ih =>
      obtain ⟨ink, text⟩ := p
      rw [List.flatMap_cons, List.filterMap_append]
      cases ink with
      | none => simpa [items, Ansi.Item.color?, List.filterMap_map, Function.comp_def] using ih
      | some ink =>
          simpa [items, Ansi.Item.color?, List.filterMap_map, Function.comp_def]
            using Ansi.Paired.cons ink.parameters_ne_reset ih

end Piece

-- ============================================================================
-- Words without escapes
-- ============================================================================

/-- The text holds no escape, so no part of it can be taken for a color sequence. -/
def Text.EscapeFree (text : String) : Prop := Ansi.escape ∉ text.toList

namespace Text

variable {s t : String}

instance (text : String) : Decidable (EscapeFree text) :=
  inferInstanceAs (Decidable (¬_))

@[simp] theorem escapeFree_append_iff :
    EscapeFree (s ++ t) ↔ EscapeFree s ∧ EscapeFree t := by
  simp [EscapeFree, not_or]

@[simp] theorem escapeFree_ofList_iff {cs : List Char} :
    EscapeFree (String.ofList cs) ↔ Ansi.escape ∉ cs := by
  simp [EscapeFree]

@[simp] theorem escapeFree_repr (n : Nat) : EscapeFree n.repr := by
  intro hmem
  rw [Nat.toList_repr] at hmem
  have hdigit := Nat.isDigit_of_mem_toDigits (by decide : 0 < 10) (by decide) hmem
  exact absurd hdigit (by decide)

theorem escapeFree_repeated {c : Char} (n : Nat) (h : c ≠ Ansi.escape) :
    EscapeFree (repeated n c) := by
  rw [repeated, escapeFree_ofList_iff, List.mem_replicate]
  exact fun hmem => h hmem.2.symm

end Text

/-- What a diagnostic says holds no escape. -/
structure Diagnostic.EscapeFree (d : Diagnostic) : Prop where
  message : Text.EscapeFree d.message
  labels : ∀ label ∈ d.labels, Text.EscapeFree label.message
  notes : ∀ note ∈ d.notes, Text.EscapeFree note

/-- Pieces whose words hold no escape. -/
def Piece.AllFree (pieces : List Piece) : Prop := ∀ p ∈ pieces, Text.EscapeFree p.text

namespace Piece

@[simp] theorem allFree_nil : AllFree [] := fun _ hmem => nomatch hmem

@[simp] theorem allFree_cons_iff {p : Piece} {pieces : List Piece} :
    AllFree (p :: pieces) ↔ Text.EscapeFree p.text ∧ AllFree pieces := List.forall_mem_cons

@[simp] theorem allFree_append_iff {pieces pieces' : List Piece} :
    AllFree (pieces ++ pieces') ↔ AllFree pieces ∧ AllFree pieces' := List.forall_mem_append

theorem allFree_flatMap {α : Type} {as : List α} {f : α → List Piece}
    (h : ∀ a ∈ as, AllFree (f a)) : AllFree (as.flatMap f) := by
  intro p hp
  obtain ⟨a, ha, hp⟩ := List.mem_flatMap.1 hp
  exact h a ha p hp

end Piece

/-- The line of a place is part of the text. -/
theorem Location.lineText_subset {text : List Char} {span : Span} {loc : Location}
    (h : of? text span = some loc) : loc.lineText ⊆ text := by
  obtain ⟨⟨front, back⟩, hsplit, rfl⟩ := Option.map_eq_some_iff.1 h
  obtain ⟨rfl, -⟩ := Text.splitAt?_eq_some hsplit
  obtain ⟨above, hfront, -⟩ := exists_lineStart front
  obtain ⟨below, hback, -⟩ := exists_lineRest back
  intro c hmem
  rcases List.mem_append.1 hmem with hmem | hmem
  · rw [hfront]
    simp [hmem]
  · rw [hback]
    simp [hmem]

variable {label : Label} {d : Diagnostic} {source : Option String}

theorem Location.allFree_snippet (loc : Location) (hline : Ansi.escape ∉ loc.lineText)
    (hlabel : Text.EscapeFree label.message) : Piece.AllFree (loc.snippet label) := by
  have hmark : ∀ n, Text.EscapeFree (Text.repeated n (if label.isPrimary then '^' else '-')) :=
    fun n => Text.escapeFree_repeated n (by split <;> decide)
  have hblank : ∀ n, Text.EscapeFree (Text.repeated n ' ') :=
    fun n => Text.escapeFree_repeated n (by decide)
  simp +decide [snippet, Piece.plain, Piece.inked, hmark, hblank, hline, hlabel]

theorem Label.allFree_bare (hlabel : Text.EscapeFree label.message) :
    Piece.AllFree label.bare := by
  have harrow : Text.EscapeFree (if label.isPrimary then "-->" else "   ") := by
    split <;> decide
  simp +decide [bare, Piece.plain, Piece.inked, Span.text, harrow, hlabel]

theorem Label.allFree_render (hsource : ∀ text ∈ source, Text.EscapeFree text)
    (hlabel : Text.EscapeFree label.message) :
    Piece.AllFree (label.render (source.map String.toList)) := by
  unfold render
  split
  · next loc hloc =>
      obtain ⟨chars, hchars, hloc⟩ := Option.bind_eq_some_iff.1 hloc
      obtain ⟨text, htext, rfl⟩ := Option.map_eq_some_iff.1 hchars
      exact loc.allFree_snippet
        (fun hmem => hsource text htext (Location.lineText_subset hloc hmem)) hlabel
  · exact allFree_bare hlabel

namespace Diagnostic

theorem allFree_renderHeadline (h : Text.EscapeFree d.message) :
    Piece.AllFree d.renderHeadline := by
  have hseverity : Text.EscapeFree d.severity.text := by cases d.severity <;> decide
  have hcode : Text.EscapeFree d.code.text := by cases d.code <;> decide
  simp +decide [renderHeadline, Piece.plain, Piece.inked, hseverity, hcode, h]

theorem allFree_renderNote {note : String} (h : Text.EscapeFree note) :
    Piece.AllFree (renderNote note) := by
  simp +decide [renderNote, Piece.plain, Piece.inked, h]

theorem allFree_renderSummary (count : Nat) : Piece.AllFree (renderSummary count) := by
  match count with
  | 0 => exact Piece.allFree_nil
  | 1 => simp +decide [renderSummary, Piece.plain, Piece.inked]
  | n + 2 => simp +decide [renderSummary, Piece.plain, Piece.inked]

theorem allFree_render (hsource : ∀ text ∈ source, Text.EscapeFree text) (h : d.EscapeFree) :
    Piece.AllFree (d.render (source.map String.toList)) := by
  have hlabels : Piece.AllFree (d.labels.flatMap (Label.render (source.map String.toList))) :=
    Piece.allFree_flatMap fun label hmem => Label.allFree_render hsource (h.labels label hmem)
  have hnotes : Piece.AllFree (d.notes.flatMap renderNote) :=
    Piece.allFree_flatMap fun note hmem => allFree_renderNote (h.notes note hmem)
  simp +decide [render, Piece.plain, allFree_renderHeadline h.message, hlabels, hnotes]

end Diagnostic

/-- What is written about diagnostics with colors is, without its color sequences, what is written
    without colors; and a reset follows each sequence that sets a color before the next one. -/
theorem colors_only_add_escapes (source : Option String) (ds : List Diagnostic) (count : Nat)
    (hsource : ∀ text ∈ source, Text.EscapeFree text) (hds : ∀ d ∈ ds, d.EscapeFree) :
    let pieces := Diagnostic.renderAll source ds ++ Diagnostic.renderSummary count
    Ansi.strip (Piece.join true pieces) = Piece.join false pieces ∧
      Ansi.Paired (Ansi.sequences (Piece.join true pieces)) := by
  intro pieces
  have hfree : Piece.AllFree pieces := Piece.allFree_append_iff.2
    ⟨Piece.allFree_flatMap fun d hmem => Diagnostic.allFree_render hsource (hds d hmem),
      Diagnostic.allFree_renderSummary count⟩
  exact ⟨Piece.strip_join hfree, Piece.paired_join hfree⟩

/-- A warning about a place in `ab` and one that is not in it, with a note and the count. -/
theorem colors_only_add_escapes_of_twoLabels :
    let d : Diagnostic := ⟨.unexpectedToken, .warning, "odd",
      [⟨⟨1, 2⟩, "here", true⟩, ⟨⟨7, 9⟩, "nowhere", false⟩], ["so it is"]⟩
    let pieces := Diagnostic.renderAll (some "ab") [d] ++ Diagnostic.renderSummary 2
    Text.EscapeFree "ab" ∧ d.EscapeFree ∧
      Ansi.strip (Piece.join true pieces) = Piece.join false pieces ∧
      Ansi.Paired (Ansi.sequences (Piece.join true pieces)) ∧
      Piece.join true pieces ≠ Piece.join false pieces := by
  intro d pieces
  have hsource : Text.EscapeFree "ab" := by decide
  have hd : d.EscapeFree := ⟨by decide, by decide, by decide⟩
  obtain ⟨hstrip, hpaired⟩ := colors_only_add_escapes (some "ab") [d] 2 (by simpa) (by simpa)
  exact ⟨hsource, hd, hstrip, hpaired, by decide +kernel⟩

end Packrat
