/-
  Packrat.Scanner

  The scanner of the list language, one token at a time.  `Scanner.next` skips
  blanks, records invalid characters on the way and hands out the longest
  token that starts at the next character, or end of input for ever once
  nothing is left.  `lex` scans a whole text at once; it ends because every
  token but end of input takes at least one character (`length_rest_next_lt`).

  The patterns are runs of letters, single marks and runs of blanks
  (`CharClass`).  Two things are assumed about how they are matched: the longest
  match wins, so a name takes all the letters that follow; and where no pattern
  matches, the slice that is passed over is one character long.
  `Scanner.recordSlice` records a slice of any length, character by character.
-/

import Packrat.Scanner.CharClass
import Packrat.Scanner.InvalidCharacter
import Packrat.Text.Bytes
import Packrat.TokenSource

namespace Packrat

/-- A text that is being scanned. -/
structure Scanner where
  /-- The characters not looked at yet. -/
  rest : List Char
  /-- How many bytes were looked at. -/
  offset : Nat
  /-- The invalid characters skipped so far and not taken yet, in order. -/
  skipped : Array InvalidCharacter
  /-- The offset at which the source ends. -/
  endOffset : UInt32
deriving Repr

namespace Scanner

/-- A scanner at the start of `source`. -/
def ofSource (source : String) : Scanner :=
  ⟨source.toList, 0, #[], (Span.clamped source.utf8ByteSize source.utf8ByteSize).start⟩

/-- The token of the characters `text` at `offset`. -/
def token (kind : Kind) (offset : Nat) (text : List Char) : Token :=
  ⟨kind, String.ofList text, Span.clamped offset (offset + Text.byteLength text)⟩

/-- Adds the characters of `slice` to the invalid ones, each with its own bytes; the first of them
    is at `start`. -/
def record (skipped : Array InvalidCharacter) (start : Nat) :
    List Char → Array InvalidCharacter
  | [] => skipped
  | c :: slice =>
    let stop := start + c.utf8Size
    record (skipped.push ⟨Span.clamped start stop, c⟩) stop slice

/-- Adds a slice at `offset` in which no token starts; its characters are counted from the start
    of its span. -/
def recordSlice (skipped : Array InvalidCharacter) (offset : Nat) (slice : List Char) :
    Array InvalidCharacter :=
  record skipped (Span.clamped offset (offset + Text.byteLength slice)).start.toNat slice

/-- The next token of `rest`, which starts at `offset`: the longest match of a pattern there.
    `skipped` collects the invalid characters in front of it; each is a slice of its own. -/
def scan (endOffset : UInt32) (skipped : Array InvalidCharacter) (offset : Nat) :
    List Char → Token × Scanner
  | [] => (.eof endOffset, ⟨[], offset, skipped, endOffset⟩)
  | c :: rest =>
    match CharClass.of c with
    | .blank => scan endOffset skipped (offset + c.utf8Size) rest
    | .invalid =>
      let stop := offset + c.utf8Size
      scan endOffset (recordSlice skipped offset [c]) stop rest
    | .mark kind => (token kind offset [c], ⟨rest, offset + c.utf8Size, skipped, endOffset⟩)
    | .letter =>
      let word := c :: rest.takeWhile Char.isAlpha
      (token .name offset word,
        ⟨rest.dropWhile Char.isAlpha, offset + Text.byteLength word, skipped, endOffset⟩)

/-- The next token. -/
def next (s : Scanner) : Token × Scanner := scan s.endOffset s.skipped s.offset s.rest

/-- Whether an invalid character was skipped and not taken yet. -/
def hasErrors (s : Scanner) : Bool := !s.skipped.isEmpty

/-- The invalid characters skipped so far and not taken yet. -/
def errors (s : Scanner) : List InvalidCharacter := s.skipped.toList

/-- The recorded invalid characters, and the scanner without them. -/
def takeErrors (s : Scanner) : List InvalidCharacter × Scanner :=
  (s.errors, { s with skipped := #[] })

instance : TokenSource Scanner where
  next := next
  pending s := s.rest.length

/-! ## Slices of one character -/

/-- A single character is recorded with its bytes, also if these do not fit. -/
theorem recordSlice_singleton (skipped : Array InvalidCharacter) (offset : Nat) (c : Char) :
    recordSlice skipped offset [c]
      = skipped.push ⟨Span.clamped offset (offset + c.utf8Size), c⟩ := by
  have hpos := c.utf8Size_pos
  have hmax : Span.maxOffset.toNat = 2 ^ 32 - 1 := rfl
  have hlength : Text.byteLength [c] = c.utf8Size := by simp
  rw [recordSlice, hlength]
  rcases Nat.lt_or_ge Span.maxOffset.toNat (offset + c.utf8Size) with hlt | hge
  · rw [Span.clamped_of_lt hlt, Span.start_point, record, record, Span.clamped_of_lt (by omega)]
  · rw [Span.toNat_start_clamped (Nat.le_add_right _ _) (by omega)]
    rfl

/-! ## Progress -/

theorem length_rest_scan_lt {endOffset : UInt32} {skipped : Array InvalidCharacter}
    {offset : Nat} {rest : List Char} (h : (scan endOffset skipped offset rest).1.isEof = false) :
    (scan endOffset skipped offset rest).2.rest.length < rest.length := by
  fun_induction scan endOffset skipped offset rest with
  | case1 => simp at h
  | case2 _ _ c rest _ ih =>
      have := ih h
      simp only [List.length_cons]
      omega
  | case3 _ _ c rest _ _ ih =>
      have := ih h
      simp only [List.length_cons]
      omega
  | case4 => simp
  | case5 _ _ c rest _ _ =>
      have h := (List.dropWhile_sublist Char.isAlpha (l := rest)).length_le
      simp only [List.length_cons]
      omega

/-- A token other than end of input takes at least one character. -/
theorem length_rest_next_lt {s : Scanner} (h : s.next.1.isEof = false) :
    s.next.2.rest.length < s.rest.length :=
  length_rest_scan_lt h

/-- The tokens up to the first end of input, after `tokens`, and the scanner behind them. -/
def drain (tokens : Array Token) (s : Scanner) : Array Token × Scanner :=
  let step := s.next
  if h : step.1.isEof = true then (tokens.push step.1, step.2)
  else
    have _shorter : s.next.2.rest.length < s.rest.length := length_rest_next_lt (by simpa using h)
    drain (tokens.push step.1) step.2
termination_by s.rest.length

end Scanner

/-- Every token of `source`, the end of input included, and every invalid character. -/
def lex (source : String) : List Token × List InvalidCharacter :=
  let (tokens, scanner) := (Scanner.ofSource source).drain #[]
  (tokens.toList, scanner.errors)

end Packrat
