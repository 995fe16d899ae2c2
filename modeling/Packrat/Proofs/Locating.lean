/-
  Packrat.Proofs.Locating

  Where spans stand in a text.

  A location shows its span (`Location.Shows`) if the text is what lies above a
  line, the line, and what lies below, and the numbers count the rest: the line
  ends above, the bytes of the line in front of the span and those of it on that
  line.  Every span that starts at a boundary of the text is located so, and no
  other one is located at all (`location_of_span`).  Lines are told apart by the
  number of line ends above them, so line and column say where a span starts.

  `Location.sliced` finds the place by searching for line ends and cutting the
  text at byte offsets, and fails where a slice or a difference does not exist.
  This happens for spans that end before they start, and for no others
  (`Location.sliced_eq`).
-/

import Packrat.Fault
import Packrat.Proofs.Carets

namespace Packrat

-- ============================================================================
-- Offsets inside characters
-- ============================================================================

namespace Text

variable {c : Char} {cs : List Char} {n : Nat}

/-- The offset is that of a byte of a character other than its first one. -/
def IsInside (text : List Char) (offset : Nat) : Prop :=
  ∃ front c back, text = front ++ c :: back ∧ byteLength front < offset ∧
    offset < byteLength front + c.utf8Size

theorem isInside_cons_of_lt (hpos : 0 < n) (h : n < c.utf8Size) : IsInside (c :: cs) n :=
  ⟨[], c, cs, rfl, hpos, by simpa using h⟩

/-- Behind the first character of a text an offset is inside one of the others. -/
theorem isInside_cons_iff (h : c.utf8Size ≤ n) :
    IsInside (c :: cs) n ↔ IsInside cs (n - c.utf8Size) := by
  constructor
  · rintro ⟨front, d, back, htext, hlt, hgt⟩
    cases front with
    | nil =>
        obtain ⟨rfl, -⟩ := List.cons.inj htext
        rw [byteLength_nil, Nat.zero_add] at hgt
        omega
    | cons c' front =>
        obtain ⟨rfl, rfl⟩ := List.cons.inj htext
        rw [byteLength_cons] at hlt hgt
        exact ⟨front, d, back, rfl, by omega, by omega⟩
  · rintro ⟨front, d, back, rfl, hlt, hgt⟩
    refine ⟨c :: front, d, back, rfl, ?_, ?_⟩
    · rw [byteLength_cons]
      omega
    · rw [byteLength_cons]
      omega

/-- A text cannot be cut past its end and inside its characters, and can be cut everywhere else. -/
theorem splitAt?_eq_none_iff : splitAt? n cs = none ↔ byteLength cs < n ∨ IsInside cs n := by
  fun_induction splitAt? n cs with
  | case1 cs =>
      have hno : ¬IsInside cs 0 := by
        rintro ⟨front, c, back, -, hlt, -⟩
        exact Nat.not_lt_zero _ hlt
      simp [hno]
  | case2 n => simp
  | case3 n c cs hlt => simp [isInside_cons_of_lt (Nat.succ_pos n) hlt]
  | case4 n c cs hge ih =>
      rw [Option.map_eq_none_iff, ih, isInside_cons_iff (by omega), byteLength_cons]
      refine or_congr_left ?_
      omega

end Text

-- ============================================================================
-- Places in a text
-- ============================================================================

/-- The location is where `span` starts in the text, of which `above` lies in front of its line and
    `below` behind it. -/
structure Location.Shows (loc : Location) (span : Span) (text above below : List Char) :
    Prop where
  text_eq : text = above ++ loc.lineText ++ below
  above_ends : ∀ c ∈ above.getLast?, c = '\n'
  below_starts : ∀ c ∈ below.head?, c = '\n'
  lineText_line : '\n' ∉ loc.lineText
  line_eq : loc.line = above.count '\n' + 1
  column_pos : 1 ≤ loc.column
  start_eq : Text.byteLength above + (loc.column - 1) = span.start.toNat
  column_le : loc.column - 1 ≤ Text.byteLength loc.lineText
  width_pos : 1 ≤ loc.width
  width_eq : ∀ width, width = min (span.stop.toNat - span.start.toNat)
      (Text.byteLength (above ++ loc.lineText) - span.start.toNat) → 0 < width → loc.width = width

namespace Location

variable {text above below : List Char} {span span' : Span} {loc loc' : Location}

/-- A text that is cut at an offset falls into the part of the line in front of it, the part
    behind it, and what is above and below that line. -/
theorem exists_lines (front back : List Char) :
    ∃ above below, front = above ++ lineStart front ∧ back = lineRest back ++ below ∧
      (∀ c ∈ above.getLast?, c = '\n') ∧ (∀ c ∈ below.head?, c = '\n') ∧
      '\n' ∉ lineStart front ∧ '\n' ∉ lineRest back := by
  obtain ⟨above, hfront, habove, hbefore⟩ := exists_lineStart front
  obtain ⟨below, hback, hbelow, hafter⟩ := exists_lineRest back
  exact ⟨above, below, hfront, hback, habove, hbelow, hbefore, hafter⟩

/-- A location that is found shows its span. -/
theorem exists_shows (hle : span.start ≤ span.stop) (h : of? text span = some loc) :
    ∃ above below, loc.Shows span text above below := by
  obtain ⟨⟨front, back⟩, hsplit, rfl⟩ := Option.map_eq_some_iff.1 h
  obtain ⟨rfl, hstart⟩ := Text.splitAt?_eq_some hsplit
  obtain ⟨above, below, hfront, hback, habove, hbelow, hbefore, hafter⟩ := exists_lines front back
  have hlength : span.length.toNat = span.stop.toNat - span.start.toNat :=
    UInt32.toNat_sub_of_le _ _ hle
  have hfrontLength := congrArg Text.byteLength hfront
  rw [Text.byteLength_append] at hfrontLength
  refine ⟨above, below, ?_⟩
  exact {
    text_eq := by
      dsimp only
      rw [← List.append_assoc above, ← hfront, List.append_assoc, ← hback]
    above_ends := habove
    below_starts := hbelow
    lineText_line := by
      dsimp only
      rw [List.mem_append]
      exact not_or.2 ⟨hbefore, hafter⟩
    line_eq := by
      have hcount := congrArg (List.count '\n') hfront
      rw [List.count_append, List.count_eq_zero.2 hbefore] at hcount
      dsimp only
      omega
    column_pos := Nat.le_add_left 1 _
    start_eq := by
      dsimp only
      omega
    column_le := by
      dsimp only
      rw [Text.byteLength_append]
      omega
    width_pos := Nat.le_max_left _ _
    width_eq := by
      rintro width hwidth hpos
      dsimp only at hwidth ⊢
      rw [Text.byteLength_append, Text.byteLength_append] at hwidth
      omega }

theorem eq_nil_of_count_eq {above between : List Char}
    (hends : ∀ c ∈ (above ++ between).getLast?, c = '\n')
    (hcount : (above ++ between).count '\n' = above.count '\n') : between = [] := by
  by_contra hne
  rw [List.count_append, Nat.add_eq_left, List.count_eq_zero] at hcount
  have hlast := List.getLast?_eq_some_getLast hne
  have heq := hends (between.getLast hne) (by rw [List.getLast?_append, hlast]; rfl)
  exact hcount (heq ▸ List.getLast_mem hne)

/-- What is above a line of a text is known from the number of line ends in it. -/
theorem above_unique {above above' rest rest' : List Char} (h : above ++ rest = above' ++ rest')
    (hends : ∀ c ∈ above.getLast?, c = '\n') (hends' : ∀ c ∈ above'.getLast?, c = '\n')
    (hcount : above.count '\n' = above'.count '\n') : above = above' := by
  rcases List.append_eq_append_iff.1 h with ⟨between, rfl, -⟩ | ⟨between, rfl, -⟩
  · rw [eq_nil_of_count_eq hends' hcount.symm, List.append_nil]
  · rw [eq_nil_of_count_eq hends hcount, List.append_nil]

/-- Places with one line and one column are the starts of their spans at one offset. -/
theorem Shows.start_unique {above' below' : List Char} (h : loc.Shows span text above below)
    (h' : loc'.Shows span' text above' below') (hline : loc.line = loc'.line)
    (hcolumn : loc.column = loc'.column) : span.start = span'.start := by
  have hcount : above.count '\n' = above'.count '\n' := by
    rw [h.line_eq, h'.line_eq] at hline
    exact Nat.succ.inj hline
  have htext : above ++ (loc.lineText ++ below) = above' ++ (loc'.lineText ++ below') := by
    rw [← List.append_assoc, ← h.text_eq, h'.text_eq, List.append_assoc]
  obtain rfl := above_unique htext h.above_ends h'.above_ends hcount
  rw [← UInt32.toNat_inj, ← h.start_eq, ← h'.start_eq, hcolumn]

end Location

/-- A span is nowhere in a text iff it starts past the end or inside a character.  Otherwise its
    place is the line that it starts on, which lies between line ends or the ends of the text, with
    the number of the line, the column of its first byte and the count of its bytes on that line,
    at least one.  In one text line and column say where the span starts. -/
theorem location_of_span (source : String) (span : Span) (hle : span.start ≤ span.stop) :
    (Location.of? source.toList span = none ↔
      source.utf8ByteSize < span.start.toNat ∨
        Text.IsInside source.toList span.start.toNat) ∧
    (∀ loc, Location.of? source.toList span = some loc →
      ∃ above below, loc.Shows span source.toList above below) ∧
    ∀ span' loc loc', span'.start ≤ span'.stop →
      Location.of? source.toList span = some loc → Location.of? source.toList span' = some loc' →
      loc.line = loc'.line → loc.column = loc'.column → span.start = span'.start := by
  refine ⟨?_, fun loc hloc => Location.exists_shows hle hloc, ?_⟩
  · rw [Location.of?, Option.map_eq_none_iff, Text.splitAt?_eq_none_iff, Text.byteLength_toList]
  · intro span' loc loc' hle' hloc hloc' hline hcolumn
    obtain ⟨above, below, hshows⟩ := Location.exists_shows hle hloc
    obtain ⟨above', below', hshows'⟩ := Location.exists_shows hle' hloc'
    exact hshows.start_unique hshows' hline hcolumn

/-- The second line of `é\nab\n`, a span from there over its end, and an offset inside `é`. -/
theorem location_of_span_of_secondLine :
    let span : Span := ⟨4, 9⟩
    let loc : Location := ⟨2, 2, ['a', 'b'], 1⟩
    span.start ≤ span.stop ∧ Location.of? "é\nab\n".toList span = some loc ∧
      (∃ above below, loc.Shows span "é\nab\n".toList above below) ∧
      Location.of? "é\nab\n".toList ⟨1, 2⟩ = none ∧ Text.IsInside "é\nab\n".toList 1 := by
  intro span loc
  have hloc : Location.of? "é\nab\n".toList span = some loc := by decide
  have hnone : Location.of? "é\nab\n".toList ⟨1, 2⟩ = none := by decide
  refine ⟨by decide, hloc, (location_of_span _ span (by decide)).2.1 loc hloc, hnone, ?_⟩
  exact ((location_of_span "é\nab\n" ⟨1, 2⟩ (by decide)).1.1 hnone).resolve_left (by decide)

-- ============================================================================
-- Searches and slices
-- ============================================================================

namespace Text

variable {c : Char} {cs front mid back : List Char}

/-- The byte offset of the first `c` of a text. -/
def find? (c : Char) : List Char → Option Nat
  | [] => none
  | d :: cs => if d = c then some 0 else (find? c cs).map (d.utf8Size + ·)

/-- The byte offset of the last `c` of a text. -/
def findLast? (c : Char) : List Char → Option Nat
  | [] => none
  | d :: cs =>
    match findLast? c cs with
    | some offset => some (d.utf8Size + offset)
    | none => if d = c then some 0 else none

/-- The characters between two byte offsets, which have to be boundaries of the text in order. -/
def slice (start stop : Nat) (text : List Char) : Except Fault (List Char) :=
  match (splitAt? stop text).bind fun halves => splitAt? start halves.1 with
  | some halves => .ok halves.2
  | none => .error .outOfRange

theorem find?_eq_none (h : c ∉ cs) : find? c cs = none := by
  induction cs with
  | nil => rfl
  | cons d cs ih =>
      obtain ⟨hne, hrest⟩ := not_or.1 (mt List.mem_cons.2 h)
      rw [find?, if_neg (Ne.symm hne), ih hrest, Option.map_none]

theorem find?_append (h : c ∉ front) : find? c (front ++ c :: back) = some (byteLength front) := by
  induction front with
  | nil => exact if_pos rfl
  | cons d front ih =>
      obtain ⟨hne, hrest⟩ := not_or.1 (mt List.mem_cons.2 h)
      rw [List.cons_append, find?, if_neg (Ne.symm hne), ih hrest, Option.map_some,
        byteLength_cons]

theorem findLast?_eq_none (h : c ∉ cs) : findLast? c cs = none := by
  induction cs with
  | nil => rfl
  | cons d cs ih =>
      obtain ⟨hne, hrest⟩ := not_or.1 (mt List.mem_cons.2 h)
      rw [findLast?, ih hrest]
      exact if_neg (Ne.symm hne)

theorem findLast?_append (h : c ∉ back) :
    findLast? c (front ++ c :: back) = some (byteLength front) := by
  induction front with
  | nil =>
      rw [List.nil_append, findLast?, findLast?_eq_none h]
      exact if_pos rfl
  | cons d front ih => rw [List.cons_append, findLast?, ih, byteLength_cons]

theorem slice_append (front mid back : List Char) :
    slice (byteLength front) (byteLength (front ++ mid)) (front ++ mid ++ back) = .ok mid := by
  rw [slice, splitAt?_byteLength, Option.bind_some, splitAt?_byteLength]

end Text

namespace Location

/-- The difference of two offsets, which has to be one. -/
def minus (m n : Nat) : Except Fault Nat := if m < n then .error .overflow else .ok (m - n)

theorem minus_of_le {m n : Nat} (h : n ≤ m) : minus m n = .ok (m - n) := if_neg (Nat.not_lt.2 h)

/-- Where a span stands, by a search for the line ends around its start and slices of the text
    between them. -/
def sliced (text : List Char) (span : Span) : Except Fault (Option Location) :=
  let start := span.start.toNat
  match Text.splitAt? start text with
  | none => .ok none
  | some (before, _) => do
    let lineStart := (Text.findLast? '\n' before).elim 0 (· + 1)
    let rest ← Text.slice start (Text.byteLength text) text
    let lineStop := (Text.find? '\n' rest).elim (Text.byteLength text) (start + ·)
    let length ← minus span.stop.toNat start
    let lengthOnLine ← minus lineStop start
    let offset ← minus start lineStart
    let lineText ← Text.slice lineStart lineStop text
    return some
      { line := before.count '\n' + 1
        column := offset + 1
        lineText
        width := max 1 (min length lengthOnLine) }

variable {front back above before after below : List Char} {span : Span}

/-- The line starts behind the last line end in front of it. -/
theorem elim_findLast? (habove : ∀ c ∈ above.getLast?, c = '\n') (hbefore : '\n' ∉ before) :
    (Text.findLast? '\n' (above ++ before)).elim 0 (· + 1) = Text.byteLength above := by
  rcases List.eq_nil_or_concat above with rfl | ⟨above, c, rfl⟩
  · rw [List.nil_append, Text.findLast?_eq_none hbefore]
    rfl
  · obtain rfl : c = '\n' := habove c (by simp)
    have hsize : Text.byteLength ['\n'] = 1 := by decide
    rw [List.concat_eq_append, List.append_assoc, List.singleton_append,
      Text.findLast?_append hbefore, Text.byteLength_append, hsize]
    rfl

/-- The line stops at the first line end behind it, or with the text. -/
theorem elim_find? (start : Nat) (hafter : '\n' ∉ after) (hbelow : ∀ c ∈ below.head?, c = '\n') :
    (Text.find? '\n' (after ++ below)).elim (start + Text.byteLength (after ++ below)) (start + ·)
      = start + Text.byteLength after := by
  cases below with
  | nil =>
      rw [List.append_nil, Text.find?_eq_none hafter]
      rfl
  | cons c below =>
      obtain rfl : c = '\n' := hbelow c rfl
      rw [Text.find?_append hafter]
      rfl

/-- At a boundary of the text every slice is in range, and no difference is missing but perhaps
    the length of the span. -/
theorem sliced_append (hstart : Text.byteLength front = span.start.toNat) :
    sliced (front ++ back) span = (do
      let length ← minus span.stop.toNat span.start.toNat
      return some
        { line := front.count '\n' + 1
          column := Text.byteLength (lineStart front) + 1
          lineText := lineStart front ++ lineRest back
          width := max 1 (min length (Text.byteLength (lineRest back))) }) := by
  obtain ⟨above, below, hfront, hback, habove, hbelow, hbefore, hafter⟩ := exists_lines front back
  have hlength : Text.byteLength front
      = Text.byteLength above + Text.byteLength (lineStart front) := by
    rw [← Text.byteLength_append, ← hfront]
  have hlineStart : (Text.findLast? '\n' front).elim 0 (· + 1) = Text.byteLength above := by
    rw [hfront]
    exact elim_findLast? habove hbefore
  have hlineStop : (Text.find? '\n' back).elim (Text.byteLength (front ++ back))
      (Text.byteLength front + ·) = Text.byteLength front + Text.byteLength (lineRest back) := by
    rw [Text.byteLength_append]
    have hstop := elim_find? (Text.byteLength front) hafter hbelow
    rwa [← hback] at hstop
  have hrest : Text.slice (Text.byteLength front) (Text.byteLength (front ++ back))
      (front ++ back) = .ok back := by
    have hslice := Text.slice_append front back []
    rwa [List.append_nil] at hslice
  have hlineText : Text.slice (Text.byteLength above)
      (Text.byteLength front + Text.byteLength (lineRest back)) (front ++ back)
      = .ok (lineStart front ++ lineRest back) := by
    have hslice := Text.slice_append above (lineStart front ++ lineRest back) below
    rwa [← List.append_assoc above, ← hfront, List.append_assoc, ← hback,
      Text.byteLength_append] at hslice
  rw [sliced, ← hstart, Text.splitAt?_byteLength]
  dsimp only
  rw [hrest, hlineStart, minus_of_le (by omega : Text.byteLength above ≤ Text.byteLength front)]
  cases minus span.stop.toNat (Text.byteLength front) with
  | error fault => rfl
  | ok length =>
      show (do
        let lengthOnLine ← minus _ _
        let lineText ← Text.slice _ _ _
        return some (Location.mk _ _ lineText (max 1 (min length lengthOnLine)))) = _
      rw [hlineStop, minus_of_le (Nat.le_add_right _ _), hlineText, hlength,
        Nat.add_sub_cancel_left, Nat.add_sub_cancel_left]
      rfl

/-- Searches and slices find the place of a span, unless the span ends before it starts: then it
    has no length. -/
theorem sliced_eq (text : List Char) (span : Span) :
    sliced text span = if span.stop < span.start ∧ of? text span ≠ none then .error .overflow
      else .ok (of? text span) := by
  cases hsplit : Text.splitAt? span.start.toNat text with
  | none =>
      have hnone : of? text span = none := by rw [of?, hsplit, Option.map_none]
      rw [sliced, hsplit, hnone, if_neg (fun h => h.2 rfl)]
  | some halves =>
      have hsome : of? text span ≠ none := by simp [of?, hsplit]
      obtain ⟨rfl, hstart⟩ := Text.splitAt?_eq_some hsplit
      rw [sliced_append hstart]
      by_cases hlt : span.stop < span.start
      · rw [if_pos ⟨hlt, hsome⟩, minus, if_pos (UInt32.lt_iff_toNat_lt.1 hlt)]
        rfl
      · have hle : span.start ≤ span.stop := UInt32.not_lt.1 hlt
        rw [if_neg (fun h => hlt h.1), minus_of_le (UInt32.le_iff_toNat_le.1 hle), of?, hsplit,
          Span.length, UInt32.toNat_sub_of_le _ _ hle]
        rfl

end Location

end Packrat
