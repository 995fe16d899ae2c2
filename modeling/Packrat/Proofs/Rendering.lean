/-
  Packrat.Proofs.Rendering

  What stands in a rendered diagnostic, as text.

  The format is said here without pieces, line by line: a headline, the labels in
  order, the notes and an empty line (`Diagnostic.Displayed`).  A label is shown as
  a snippet, its line with marks underneath, where these are taken from the text
  and the span alone (`Label.Snippet`); only if the span starts past the end of
  the text or inside a character, it is shown with its offsets
  (`Label.Displayed`).  Diagnostics stand one after the other, and the last line
  counts them (`Diagnostic.Listed`).

  What is said of a label carries over to the whole: the pieces of a diagnostic
  are its display, if those of each label are the label's (`displayed_render`), and
  a rejection lists its diagnostics (`Check.listed_rejection`).
-/

import Mathlib.Data.List.Forall2
import Packrat.Command.Check
import Packrat.Proofs.Locating

namespace Packrat

-- ============================================================================
-- The format
-- ============================================================================

/-- Text in ink: between escape sequences, if colors are written. -/
def Ink.paint (colors : Bool) (ink : Ink) (text : String) : String :=
  if colors then ink.start ++ text ++ stop else text

namespace Label

/-- How many marks a label gets on its line, which ends at the offset `stop`. -/
def markCount (label : Label) (stop : Nat) : Nat :=
  max 1 (min (label.span.stop.toNat - label.span.start.toNat) (stop - label.span.start.toNat))

/-- The label below its line: the numbers of the line and the column, the line, and under it the
    marks, behind as many columns as the line has bytes in front of them, and the message. -/
def belowLine (colors : Bool) (label : Label) (line column : Nat) (lineText : List Char)
    (marks : Nat) : String :=
  let number := toString line
  let gutter := Text.repeated number.length ' '
  let mark := if label.isPrimary then '^' else '-'
  gutter ++ "--> " ++ number ++ ":" ++ toString column ++ "\n"
    ++ gutter ++ " |\n"
    ++ number ++ " | " ++ String.ofList lineText ++ "\n"
    ++ gutter ++ " | " ++ Text.repeated (column - 1) ' '
    ++ (Ink.ofLabel label.isPrimary).paint colors (Text.repeated marks mark ++ " " ++ label.message)
    ++ "\n"

/-- The label as a snippet: below the line of the text that it starts on, with the marks under the
    bytes from its start to its end or the end of the line. -/
inductive Snippet (colors : Bool) (text : List Char) (label : Label) : String → Prop where
  | mk {loc : Location} {above below : List Char} (hshows : loc.Shows label.span text above below) :
      Snippet colors text label (label.belowLine colors loc.line loc.column loc.lineText
        (label.markCount (Text.byteLength (above ++ loc.lineText))))

/-- The label with its offsets. -/
def withOffsets (colors : Bool) (label : Label) : String :=
  (if label.isPrimary then "  -->" else "     ") ++ " " ++ toString label.span.start.toNat ++ ".."
    ++ toString label.span.stop.toNat ++ ": "
    ++ (Ink.ofLabel label.isPrimary).paint colors label.message ++ "\n"

/-- The label as a snippet, or with its offsets if the text has no line for it. -/
inductive Displayed (colors : Bool) (text : List Char) (label : Label) : String → Prop where
  | snippet {written : String} (h : label.Snippet colors text written) :
      Displayed colors text label written
  | nowhere (h : Text.byteLength text < label.span.start.toNat ∨
      Text.IsInside text label.span.start.toNat) :
      Displayed colors text label (label.withOffsets colors)

end Label

namespace Diagnostic

/-- The headline, the labels, each as `shows` says, the notes and an empty line. -/
inductive Displayed (colors : Bool) (shows : Label → String → Prop) (d : Diagnostic) :
    String → Prop where
  | mk {labels : List String} (hlabels : List.Forall₂ shows d.labels labels) :
      Displayed colors shows d
        ((Ink.ofSeverity d.severity).paint colors d.severity.text
          ++ Ink.bold.paint colors ("[" ++ d.code.text ++ "]") ++ ": " ++ d.message ++ "\n"
          ++ String.join labels
          ++ String.join
            (d.notes.map fun note => "  = " ++ Ink.bold.paint colors "note" ++ ": " ++ note ++ "\n")
          ++ "\n")

/-- The last line, with the number of errors; there is none if there are no errors. -/
def countLine (colors : Bool) (count : Nat) : String :=
  if count = 0 then ""
  else
    Ink.error.paint colors "error" ++ ": input rejected due to "
      ++ (if count = 1 then "previous error" else toString count ++ " previous errors") ++ "\n"

/-- The diagnostics one after the other, and the number of them. -/
inductive Listed (colors : Bool) (shows : Label → String → Prop) (ds : List Diagnostic) :
    String → Prop where
  | mk {texts : List String} (h : List.Forall₂ (Displayed colors shows) ds texts) :
      Listed colors shows ds (String.join texts ++ countLine colors ds.length)

end Diagnostic

-- ============================================================================
-- Labels
-- ============================================================================

@[simp] theorem Piece.write_inked (colors : Bool) (ink : Ink) (text : String) :
    (inked ink text).write colors = ink.paint colors text := rfl

namespace Text

/-- The number of line feeds of a text. -/
def lineFeeds (text : String) : Nat := text.toList.count '\n'

@[simp] theorem lineFeeds_append (s t : String) :
    lineFeeds (s ++ t) = lineFeeds s + lineFeeds t := by
  simp [lineFeeds]

@[simp] theorem lineFeeds_repr (n : Nat) : lineFeeds n.repr = 0 := by
  refine List.count_eq_zero.2 fun hmem => ?_
  rw [Nat.toList_repr] at hmem
  have hdigit := Nat.isDigit_of_mem_toDigits (by decide : 0 < 10) (by decide) hmem
  exact absurd hdigit (by decide)

/-- Ink adds no lines. -/
@[simp] theorem lineFeeds_paint (colors : Bool) (ink : Ink) (text : String) :
    lineFeeds (ink.paint colors text) = lineFeeds text := by
  have hstart : lineFeeds ink.start = 0 := by cases ink <;> decide
  have hstop : lineFeeds Ink.stop = 0 := by decide
  cases colors <;> simp [Ink.paint, hstart, hstop]

end Text

/-- A location that is found has as many marks as there are bytes of the span on the line. -/
theorem Location.width_of_shows {text above below : List Char} {label : Label} {loc : Location}
    (hle : label.span.start ≤ label.span.stop) (h : of? text label.span = some loc)
    (hshows : loc.Shows label.span text above below) :
    loc.width = label.markCount (Text.byteLength (above ++ loc.lineText)) := by
  have hlength : label.span.length.toNat = label.span.stop.toNat - label.span.start.toNat :=
    UInt32.toNat_sub_of_le _ _ hle
  have hstart := hshows.start_eq
  obtain ⟨⟨front, back⟩, -, rfl⟩ := Option.map_eq_some_iff.1 h
  dsimp only at hstart
  rw [Label.markCount, ← hlength, Text.byteLength_append, Text.byteLength_append, ← hstart]
  dsimp only
  congr 2
  omega

namespace Label

variable {colors : Bool} {text : List Char} {label : Label} {written : String}

/-- A snippet is the label below its line. -/
theorem join_snippet_eq (colors : Bool) (loc : Location) (label : Label) :
    Piece.join colors (loc.snippet label)
      = label.belowLine colors loc.line loc.column loc.lineText loc.width := by
  unfold Location.snippet belowLine
  generalize toString loc.line = number
  simp only [Piece.join_cons, Piece.join_nil, Piece.write_plain, Piece.write_inked,
    String.append_assoc, String.append_empty]

theorem join_bare (colors : Bool) (label : Label) :
    Piece.join colors label.bare = label.withOffsets colors := by
  simp only [bare, withOffsets, Span.text, Piece.join_cons, Piece.join_nil, Piece.write_plain,
    Piece.write_inked, String.append_assoc, String.append_empty]
  cases label.isPrimary <;> rfl

/-- A label that has a place in the text is shown as a snippet. -/
theorem snippet_render {loc : Location} (hle : label.span.start ≤ label.span.stop)
    (h : Location.of? text label.span = some loc) :
    label.Snippet colors text (Piece.join colors (label.render text)) := by
  obtain ⟨above, below, hshows⟩ := Location.exists_shows hle h
  rw [Label.render, Option.bind_some, h]
  dsimp only
  rw [join_snippet_eq, Location.width_of_shows hle h hshows]
  exact .mk hshows

theorem lineFeeds_withOffsets (colors : Bool) (label : Label) :
    Text.lineFeeds (label.withOffsets colors) = Text.lineFeeds label.message + 1 := by
  have harrow : Text.lineFeeds (if label.isPrimary then "  -->" else "     ") = 0 := by
    split <;> decide
  have hblank : Text.lineFeeds " " = 0 := by decide
  have hdots : Text.lineFeeds ".." = 0 := by decide
  have hcolon : Text.lineFeeds ": " = 0 := by decide
  have hend : Text.lineFeeds "\n" = 1 := by decide
  simp [withOffsets, harrow, hblank, hdots, hcolon, hend]

theorem le_lineFeeds_belowLine (colors : Bool) (label : Label) (line column : Nat)
    (lineText : List Char) (marks : Nat) : Text.lineFeeds label.message + 4
      ≤ Text.lineFeeds (label.belowLine colors line column lineText marks) := by
  have hbar : Text.lineFeeds " |\n" = 1 := by decide
  have hend : Text.lineFeeds "\n" = 1 := by decide
  unfold belowLine
  simp only [Text.lineFeeds_append, Text.lineFeeds_paint, hbar, hend]
  omega

/-- A snippet is never the label with its offsets: it takes three lines more. -/
theorem Snippet.ne_withOffsets (h : label.Snippet colors text written) :
    written ≠ label.withOffsets colors := by
  obtain ⟨hshows⟩ := h
  intro heq
  have hle := (le_lineFeeds_belowLine ..).trans_eq (congrArg Text.lineFeeds heq)
  rw [lineFeeds_withOffsets] at hle
  omega

/-- Every label is shown in one of the two ways. -/
theorem displayed_render (hle : label.span.start ≤ label.span.stop) :
    label.Displayed colors text (Piece.join colors (label.render text)) := by
  cases hloc : Location.of? text label.span with
  | some loc => exact .snippet (snippet_render hle hloc)
  | none =>
      rw [Label.render, Option.bind_some, hloc]
      dsimp only
      rw [join_bare]
      refine .nowhere (Text.splitAt?_eq_none_iff.1 ?_)
      rwa [Location.of?, Option.map_eq_none_iff] at hloc

end Label

-- ============================================================================
-- Diagnostics
-- ============================================================================

namespace Piece

/-- What pieces are written as, part by part. -/
theorem join_flatMap {α : Type} (colors : Bool) (f : α → List Piece) (as : List α) :
    join colors (as.flatMap f) = String.join (as.map fun a => join colors (f a)) := by
  induction as with
  | nil => rfl
  | cons a as ih => rw [List.flatMap_cons, join_append, ih, List.map_cons, String.join_cons]

end Piece

namespace Diagnostic

variable {colors : Bool} {text : List Char} {shows : Label → String → Prop} {d : Diagnostic}
  {ds : List Diagnostic}

/-- A rendered diagnostic shows its labels as they are rendered. -/
theorem displayed_render
    (h : ∀ label ∈ d.labels, shows label (Piece.join colors (label.render text))) :
    d.Displayed colors shows (Piece.join colors (d.render text)) := by
  have hlabels : List.Forall₂ shows d.labels
      (d.labels.map fun label => Piece.join colors (label.render text)) :=
    List.forall₂_map_right_iff.2 (List.forall₂_same.2 h)
  have hnote : ∀ note, Piece.join colors (renderNote note)
      = "  = " ++ Ink.bold.paint colors "note" ++ ": " ++ note ++ "\n" := by
    intro note
    simp only [renderNote, Piece.join_cons, Piece.join_nil, Piece.write_plain, Piece.write_inked,
      String.append_assoc, String.append_empty]
  have htext : d.Displayed colors shows _ := .mk hlabels
  simpa only [render, renderHeadline, Piece.join_append, Piece.join_flatMap, hnote,
    Piece.join_cons, Piece.join_nil, Piece.write_plain, Piece.write_inked, String.append_assoc,
    String.append_empty] using htext

theorem join_renderSummary (colors : Bool) (count : Nat) :
    Piece.join colors (renderSummary count) = countLine colors count := by
  match count with
  | 0 => rfl
  | 1 => simp [renderSummary, countLine, String.append_assoc]
  | count + 2 => simp [renderSummary, countLine, String.append_assoc]

end Diagnostic

/-- A rejection lists its diagnostics, with their labels as they are rendered. -/
theorem Check.listed_rejection {source : String} {colors : Bool} {shows : Label → String → Prop}
    {ds : List Diagnostic}
    (h : ∀ d ∈ ds, ∀ label ∈ d.labels,
      shows label (Piece.join colors (label.render source.toList))) :
    Diagnostic.Listed colors shows ds (rejection source colors ds) := by
  have htexts : List.Forall₂ (Diagnostic.Displayed colors shows) ds
      (ds.map fun d => Piece.join colors (d.render source.toList)) :=
    List.forall₂_map_right_iff.2
      (List.forall₂_same.2 fun d hmem => Diagnostic.displayed_render (h d hmem))
  rw [rejection, Piece.join_append, Diagnostic.renderAll, Piece.join_flatMap,
    Diagnostic.join_renderSummary]
  exact .mk htexts

end Packrat
