/-
  Packrat.Proofs.Carets

  The marks under a label.

  A label that starts and ends between characters of a text cuts the text in
  pieces (`Label.Covers`): what its line has in front of it, what of it is on
  that line, and the rest.  Its snippet shows the line, and under it as many
  columns as the first piece has bytes and as many marks as the second has
  (`Label.Covers.render`).  So the marks stand under the characters of the label
  exactly if these and the ones in front of them take one byte each
  (`marks_count_bytes`, `marks_miss_character`).
-/

import Packrat.Diagnostic.Render
import Packrat.Proofs.Layout

namespace Packrat

-- ============================================================================
-- Bytes and characters
-- ============================================================================

namespace Text

theorem length_le_byteLength (cs : List Char) : cs.length ≤ byteLength cs := by
  induction cs with
  | nil => exact Nat.le_refl 0
  | cons c cs ih =>
      have := c.utf8Size_pos
      rw [List.length_cons, byteLength_cons]
      omega

/-- There are as many bytes as characters iff each character is one byte long. -/
theorem byteLength_eq_length_iff {cs : List Char} :
    byteLength cs = cs.length ↔ ∀ c ∈ cs, c.utf8Size = 1 := by
  induction cs with
  | nil => simp
  | cons c cs ih =>
      have hpos := c.utf8Size_pos
      have hle := length_le_byteLength cs
      rw [byteLength_cons, List.length_cons, List.forall_mem_cons, ← ih]
      omega

/-- The same holds of what is at least one. -/
theorem max_byteLength_eq_iff {cs : List Char} :
    max 1 (byteLength cs) = max 1 cs.length ↔ ∀ c ∈ cs, c.utf8Size = 1 := by
  cases cs with
  | nil => simp
  | cons c cs =>
      have hle := length_le_byteLength (c :: cs)
      rw [← byteLength_eq_length_iff]
      rw [List.length_cons] at hle ⊢
      omega

/-- The offset is between two characters of the text, or at an end of it. -/
def IsBoundary (text : List Char) (offset : Nat) : Prop :=
  ∃ front back, text = front ++ back ∧ byteLength front = offset

/-- Two boundaries cut a text in three. -/
theorem IsBoundary.exists_between {text : List Char} {m n : Nat} (h : IsBoundary text m)
    (h' : IsBoundary text n) (hle : m ≤ n) :
    ∃ front mid back, text = front ++ mid ++ back ∧ byteLength front = m ∧
      byteLength (front ++ mid) = n := by
  obtain ⟨front, back, rfl, rfl⟩ := h
  obtain ⟨front', back', htext, rfl⟩ := h'
  rcases List.append_eq_append_iff.1 htext with ⟨mid, rfl, rfl⟩ | ⟨mid, rfl, rfl⟩
  · exact ⟨front, mid, back', by simp, rfl, rfl⟩
  · -- The second boundary can only be in front of the first if they are one.
    rw [byteLength_append] at hle
    have hlength := length_le_byteLength mid
    obtain rfl := List.eq_nil_of_length_eq_zero (by omega : mid.length = 0)
    exact ⟨front', [], back, by simp, by simp, by simp⟩

end Text

-- ============================================================================
-- Lines
-- ============================================================================

namespace Location

variable {above before covered beyond back : List Char}

theorem inLine_iff {c : Char} : inLine c = true ↔ c ≠ '\n' := bne_iff_ne

theorem exists_lineStart (front : List Char) :
    ∃ above, front = above ++ lineStart front ∧ (∀ c ∈ above.getLast?, c = '\n') ∧
      '\n' ∉ lineStart front := by
  refine ⟨(front.reverse.dropWhile inLine).reverse, ?_, fun c hlast => ?_, fun hmem => ?_⟩
  · rw [lineStart, ← List.reverse_append, List.takeWhile_append_dropWhile, List.reverse_reverse]
  · rw [List.getLast?_reverse] at hlast
    have hstops := List.head?_dropWhile_not inLine front.reverse
    rw [Option.mem_def.1 hlast] at hstops
    simpa [inLine] using hstops
  · exact inLine_iff.1 (List.mem_takeWhile_imp (List.mem_reverse.1 hmem)) rfl

theorem exists_lineRest (cs : List Char) :
    ∃ beyond, cs = lineRest cs ++ beyond ∧ (∀ c ∈ beyond.head?, c = '\n') ∧
      '\n' ∉ lineRest cs := by
  refine ⟨cs.dropWhile inLine, List.takeWhile_append_dropWhile.symm, fun c hhead => ?_,
    fun hmem => inLine_iff.1 (List.mem_takeWhile_imp hmem) rfl⟩
  have hstops := List.head?_dropWhile_not inLine cs
  rw [Option.mem_def.1 hhead] at hstops
  simpa [inLine] using hstops

/-- Behind the end of a line, the line starts with what follows. -/
theorem lineStart_append (habove : ∀ c ∈ above.getLast?, c = '\n') (hbefore : '\n' ∉ before) :
    lineStart (above ++ before) = before := by
  have hline : ∀ c ∈ before.reverse, inLine c = true := fun c hmem =>
    inLine_iff.2 fun heq => hbefore (heq ▸ List.mem_reverse.1 hmem)
  have habove' : above.reverse.takeWhile inLine = [] := by
    rw [← List.head?_reverse] at habove
    cases hreverse : above.reverse with
    | nil => rfl
    | cons c cs =>
        rw [hreverse] at habove
        simp [habove c rfl, inLine]
  rw [lineStart, List.reverse_append, List.takeWhile_append_of_pos hline, habove',
    List.append_nil, List.reverse_reverse]

/-- Of the marks that a label calls for, those past the end of the line are left out. -/
theorem width_eq (hcovered : '\n' ∉ covered) (hbeyond : ∀ c ∈ beyond.head?, c = '\n') :
    min (Text.byteLength (covered ++ beyond))
        (Text.byteLength (lineRest (covered ++ beyond ++ back)))
      = Text.byteLength covered := by
  have hline : ∀ c ∈ covered, inLine c = true := fun c hmem =>
    inLine_iff.2 fun heq => hcovered (heq ▸ hmem)
  rw [lineRest, List.append_assoc, List.takeWhile_append_of_pos hline, Text.byteLength_append,
    Text.byteLength_append]
  cases beyond with
  | nil => simp
  | cons c beyond =>
      have hstops : (c :: beyond ++ back).takeWhile inLine = [] := by
        simp [hbeyond c rfl, inLine]
      rw [hstops, Text.byteLength_nil]
      omega

end Location

-- ============================================================================
-- Labels over a text
-- ============================================================================

namespace Label

/-- The label is about the characters `covered ++ beyond` of a text, of which `covered` are on the
    line that they start on; `before` is what that line has in front of them. -/
structure Covers (label : Label) (text above before covered beyond back : List Char) : Prop where
  text_eq : text = above ++ before ++ (covered ++ beyond) ++ back
  start_eq : label.span.start.toNat = Text.byteLength (above ++ before)
  stop_eq : label.span.stop.toNat = Text.byteLength (above ++ before ++ (covered ++ beyond))
  above_ends : ∀ c ∈ above.getLast?, c = '\n'
  before_line : '\n' ∉ before
  covered_line : '\n' ∉ covered
  beyond_starts : ∀ c ∈ beyond.head?, c = '\n'

/-- The label as a snippet: the line with its number, and below it the marks and the message,
    behind `padding` columns. -/
def underlined (label : Label) (line column : Nat) (lineText : List Char)
    (padding marks : Nat) : String :=
  let number := toString line
  let gutter := Text.repeated number.length ' '
  gutter ++ "--> " ++ number ++ ":" ++ toString column ++ "\n"
    ++ gutter ++ " |\n"
    ++ number ++ " | " ++ String.ofList lineText ++ "\n"
    ++ gutter ++ " | " ++ Text.repeated padding ' '
    ++ Text.repeated marks (if label.isPrimary then '^' else '-') ++ " " ++ label.message ++ "\n"

variable {label : Label} {text above before covered beyond back : List Char}

theorem exists_covers (hle : label.span.start ≤ label.span.stop)
    (hstart : Text.IsBoundary text label.span.start.toNat)
    (hstop : Text.IsBoundary text label.span.stop.toNat) :
    ∃ above before covered beyond back, label.Covers text above before covered beyond back := by
  obtain ⟨front, mid, back, rfl, hfront, hmid⟩ :=
    hstart.exists_between hstop (UInt32.le_iff_toNat_le.1 hle)
  obtain ⟨above, hfront_eq, habove, hbefore⟩ := Location.exists_lineStart front
  obtain ⟨beyond, hmid_eq, hbeyond, hcovered⟩ := Location.exists_lineRest mid
  refine ⟨above, _, _, beyond, back, ?_, ?_, ?_, habove, hbefore, hcovered, hbeyond⟩
  · rw [← hfront_eq, ← hmid_eq]
  · rw [← hfront_eq, hfront]
  · rw [← hfront_eq, ← hmid_eq, hmid]

/-- The place of a label. -/
theorem Covers.location (h : label.Covers text above before covered beyond back) :
    Location.of? text label.span = some
      { line := above.count '\n' + 1
        column := Text.byteLength before + 1
        lineText := before ++ Location.lineRest (covered ++ beyond ++ back)
        width := max 1 (Text.byteLength covered) } := by
  have hlength : label.span.length.toNat = Text.byteLength (covered ++ beyond) := by
    have hstop := h.stop_eq
    rw [Text.byteLength_append, ← h.start_eq] at hstop
    rw [Span.length, UInt32.toNat_sub_of_le _ _ (UInt32.le_iff_toNat_le.2 (by omega))]
    omega
  have hcount : (above ++ before).count '\n' = above.count '\n' := by
    rw [List.count_append, List.count_eq_zero.2 h.before_line, Nat.add_zero]
  rw [Location.of?, h.start_eq, h.text_eq, List.append_assoc, Text.splitAt?_byteLength,
    Option.map_some, hlength]
  simp only [hcount, Location.lineStart_append h.above_ends h.before_line,
    Location.width_eq h.covered_line h.beyond_starts]

/-- Without colors a snippet is the underlined line. -/
theorem join_snippet (loc : Location) (label : Label) :
    Piece.join false (loc.snippet label)
      = label.underlined loc.line loc.column loc.lineText (loc.column - 1) loc.width := by
  unfold Location.snippet underlined
  generalize toString loc.line = number
  simp only [Piece.join_cons, Piece.join_nil, Piece.write_plain, Piece.write_inked_false,
    String.append_assoc, String.append_empty]

/-- A snippet pads by the bytes in front of the label, and sets a mark for each byte of it. -/
theorem Covers.render (h : label.Covers text above before covered beyond back) :
    Piece.join false (label.render text)
      = label.underlined (above.count '\n' + 1) (Text.byteLength before + 1)
          (before ++ Location.lineRest (covered ++ beyond ++ back))
          (Text.byteLength before) (max 1 (Text.byteLength covered)) := by
  rw [Label.render, Option.bind_some, h.location]
  exact join_snippet _ label

/-- Runs of one character that are followed by something else are told apart by their length. -/
theorem length_eq_of_runs {c : Char} {m n : Nat} {xs ys : List Char}
    (hx : ∀ d ∈ xs.head?, d ≠ c) (hy : ∀ d ∈ ys.head?, d ≠ c)
    (h : List.replicate m c ++ xs = List.replicate n c ++ ys) : m = n ∧ xs = ys := by
  induction m generalizing n with
  | zero =>
      cases n with
      | zero => exact ⟨rfl, h⟩
      | succ n =>
          rw [List.replicate_zero, List.nil_append] at h
          exact absurd rfl (hx c (by rw [h]; rfl))
  | succ m ih =>
      cases n with
      | zero =>
          rw [List.replicate_zero, List.nil_append] at h
          exact absurd rfl (hy c (by rw [← h]; rfl))
      | succ n =>
          obtain ⟨rfl, hrest⟩ := ih (List.cons.inj h).2
          exact ⟨rfl, hrest⟩

/-- The end of an underlined line, backwards: the message, the marks and the columns. -/
theorem exists_reverse_underlined (label : Label) (line column : Nat) (lineText : List Char)
    (padding marks : Nat) :
    ∃ start, (label.underlined line column lineText padding marks).toList.reverse
      = (" " ++ label.message ++ "\n").toList.reverse
        ++ (List.replicate marks (if label.isPrimary then '^' else '-')
          ++ (List.replicate (padding + 1) ' ' ++ '|' :: start)) := by
  have hbar : " | ".toList.reverse = [' ', '|', ' '] := by decide
  unfold underlined
  generalize toString line = number
  simp only [String.toList_append, List.reverse_append, Text.repeated, String.toList_ofList,
    List.reverse_replicate, List.replicate_succ', hbar, List.append_assoc]
  exact ⟨_, rfl⟩

/-- An underlined line shows how many columns and marks it has. -/
theorem underlined_inj {line line' column column' padding padding' marks marks' : Nat}
    {lineText lineText' : List Char}
    (h : label.underlined line column lineText padding marks
      = label.underlined line' column' lineText' padding' marks') :
    padding = padding' ∧ marks = marks' := by
  obtain ⟨start, hstart⟩ := label.exists_reverse_underlined line column lineText padding marks
  obtain ⟨start', hstart'⟩ :=
    label.exists_reverse_underlined line' column' lineText' padding' marks'
  rw [h, hstart'] at hstart
  have hmark : ∀ n start, ∀ d ∈ (List.replicate (n + 1) ' ' ++ '|' :: start).head?,
      d ≠ if label.isPrimary then '^' else '-' := by
    intro n start d hhead
    obtain rfl : ' ' = d := by simpa [List.replicate_succ] using hhead
    split <;> decide
  obtain ⟨hmarks, hrest⟩ := length_eq_of_runs (hmark _ _) (hmark _ _)
    (List.append_cancel_left hstart)
  obtain ⟨hpadding, -⟩ := length_eq_of_runs (by simp) (by simp) hrest
  exact ⟨by omega, hmarks.symm⟩

/-- The columns and marks are as many as the characters iff these take one byte each. -/
theorem Covers.aligned_iff (h : label.Covers text above before covered beyond back) :
    (∃ line column lineText, Piece.join false (label.render text)
        = label.underlined line column lineText before.length (max 1 covered.length)) ↔
      ∀ c ∈ before ++ covered, c.utf8Size = 1 := by
  rw [h.render, List.forall_mem_append, ← Text.byteLength_eq_length_iff,
    ← Text.max_byteLength_eq_iff]
  constructor
  · rintro ⟨line, column, lineText, heq⟩
    exact underlined_inj heq
  · rintro ⟨hpadding, hmarks⟩
    rw [hpadding, hmarks]
    exact ⟨_, _, _, rfl⟩

/-- The label of an invalid character is about this character. -/
theorem exists_covers_of_error {source : String} (hfits : source.utf8ByteSize < 2 ^ 32)
    {error : InvalidCharacter} (hmem : error ∈ (lex source).2) (hspan : label.span = error.span) :
    ∃ above before back, label.Covers source.toList above before [error.found] [] back := by
  rw [← Text.byteLength_toList] at hfits
  obtain ⟨tokens, -, hlayout⟩ := exists_layout_lex source
  obtain ⟨front, back, htext, hat⟩ := hlayout.errors_at (by omega) hmem
  have hclass := (hlayout.exists_isAt_iff (by omega) htext).1 ⟨error, hmem, hat⟩
  obtain ⟨-, hstart, hstop⟩ := hat
  obtain ⟨above, hfront, habove, hbefore⟩ := Location.exists_lineStart front
  refine ⟨above, Location.lineStart front, back, ?_, ?_, ?_, habove, hbefore, ?_, by simp⟩
  · rw [← hfront, htext]
    simp
  · rw [← hfront, hspan, hstart, Nat.zero_add]
  · rw [← hfront, hspan, hstop, Text.byteLength_append]
    simp
  · rw [List.mem_singleton]
    intro heq
    rw [← heq] at hclass
    exact absurd hclass (by decide)

end Label

/-- A label that starts and ends between characters of a text is shown with its line, padded by a
    column for each byte that the line has in front of the label, and with a mark for each byte of
    it on that line, at least one.  There are a column and a mark for each of these characters iff
    they take one byte each.  The label of an invalid character is one of these, and about this
    character. -/
theorem marks_count_bytes (source : String) :
    (∀ label : Label, label.span.start ≤ label.span.stop →
      Text.IsBoundary source.toList label.span.start.toNat →
      Text.IsBoundary source.toList label.span.stop.toNat →
      ∃ above before covered beyond back,
        label.Covers source.toList above before covered beyond back ∧
        Piece.join false (label.render source.toList)
          = label.underlined (above.count '\n' + 1) (Text.byteLength before + 1)
              (before ++ Location.lineRest (covered ++ beyond ++ back))
              (Text.byteLength before) (max 1 (Text.byteLength covered)) ∧
        ((∃ line column lineText, Piece.join false (label.render source.toList)
            = label.underlined line column lineText before.length (max 1 covered.length)) ↔
          ∀ c ∈ before ++ covered, c.utf8Size = 1)) ∧
    (source.utf8ByteSize < 2 ^ 32 → ∀ error ∈ (lex source).2,
      ∃ label above before back, error.toDiagnostic.labels = [label] ∧
        label.Covers source.toList above before [error.found] [] back ∧
        ((∃ line column lineText, Piece.join false (label.render source.toList)
            = label.underlined line column lineText before.length 1) ↔
          ∀ c ∈ before ++ [error.found], c.utf8Size = 1)) := by
  constructor
  · intro label hle hstart hstop
    obtain ⟨above, before, covered, beyond, back, hcovers⟩ := label.exists_covers hle hstart hstop
    exact ⟨above, before, covered, beyond, back, hcovers, hcovers.render, hcovers.aligned_iff⟩
  · intro hfits error hmem
    have hspan : (⟨error.span, "not part of any token", true⟩ : Label).span = error.span := rfl
    obtain ⟨above, before, back, hcovers⟩ := Label.exists_covers_of_error hfits hmem hspan
    exact ⟨_, above, before, back, rfl, hcovers, hcovers.aligned_iff⟩

/-- Behind `é` a mark does not stand under the character that it is for, and `é` gets two. -/
theorem marks_miss_character :
    let behind : Label := ⟨⟨2, 3⟩, "here", true⟩
    let accented : Label := ⟨⟨0, 2⟩, "here", true⟩
    behind.Covers "é#".toList [] ['é'] ['#'] [] [] ∧
      (¬∃ line column lineText, Piece.join false (behind.render "é#".toList)
        = behind.underlined line column lineText 1 1) ∧
      accented.Covers "é#".toList [] [] ['é'] [] ['#'] ∧
      ¬∃ line column lineText, Piece.join false (accented.render "é#".toList)
        = accented.underlined line column lineText 0 1 := by
  intro behind accented
  have hbehind : behind.Covers "é#".toList [] ['é'] ['#'] [] [] :=
    ⟨rfl, by decide, by decide, by simp, by decide, by decide, by simp⟩
  have haccented : accented.Covers "é#".toList [] [] ['é'] [] ['#'] :=
    ⟨rfl, by decide, by decide, by simp, by decide, by decide, by simp⟩
  refine ⟨hbehind, fun haligned => ?_, haccented, fun haligned => ?_⟩
  · exact absurd (hbehind.aligned_iff.1 haligned 'é' (by simp)) (by decide)
  · exact absurd (haccented.aligned_iff.1 haligned 'é' (by simp)) (by decide)

end Packrat
