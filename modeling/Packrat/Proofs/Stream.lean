/-
  Packrat.Proofs.Stream

  The stream of tokens behind a source, and lookahead buffers as windows onto
  it.

  A source hands out one token after the other and never stops, so it stands
  for a function from numbers to tokens.  A buffer that only its own operations
  touched holds the stretch `base ≤ i < pulled` of that function
  (`IsWindow`), whatever was looked at, consumed, rewound or dropped before.
  Two windows onto one stream that agree on three numbers are equal
  (`IsWindow.ext`).
-/

import Packrat.Lookahead
import Packrat.Scanner

namespace Packrat

-- ============================================================================
-- The stream of a source
-- ============================================================================

namespace TokenSource

variable {σ : Type} [TokenSource σ]

/-- The source after `n` pulls. -/
def after (s : σ) : Nat → σ
  | 0 => s
  | n + 1 => (next (after s n)).2

/-- Token number `i` of everything that the source hands out. -/
def stream (s : σ) (i : Nat) : Token := (next (after s i)).1

/-- The pulls after the first one are those from the source behind it. -/
theorem after_succ (s : σ) (n : Nat) : after s (n + 1) = after (next s).2 n := by
  induction n with
  | zero => rfl
  | succ n ih =>
      show (next (after s (n + 1))).2 = (next (after (next s).2 n)).2
      rw [ih]

theorem stream_succ (s : σ) (i : Nat) : stream s (i + 1) = stream (next s).2 i := by
  rw [stream, after_succ]
  rfl

theorem after_after (s : σ) (m n : Nat) : after (after s m) n = after s (m + n) := by
  induction n with
  | zero => rfl
  | succ n ih =>
      rw [after, ih]
      rfl

/-- The stream of a source after some pulls is the stream of the source from there on. -/
theorem stream_after (s : σ) (n i : Nat) : stream (after s n) i = stream s (n + i) := by
  rw [stream, after_after]
  rfl

/-- From token number `n` on there are only ends of input. -/
def EndsBy (t : Nat → Token) (n : Nat) : Prop := ∀ i, n ≤ i → (t i).kind = .eof

theorem EndsBy.lt {t : Nat → Token} {n i : Nat} (h : EndsBy t n) (hne : (t i).kind ≠ .eof) :
    i < n := by
  by_cases hi : i < n
  · exact hi
  · exact absurd (h i (Nat.le_of_not_lt hi)) hne

/-- However many tokens were pulled, no more are left before the ends of input than the source
    says. -/
def RunsDry (s : σ) : Prop := ∀ n, EndsBy (stream (after s n)) (pending (after s n))

end TokenSource

/-- The tokens with numbers `start ≤ i < stop` of a stream. -/
def stretch (t : Nat → Token) (start stop : Nat) : List Token :=
  (List.range' start (stop - start)).map t

@[simp] theorem length_stretch (t : Nat → Token) (start stop : Nat) :
    (stretch t start stop).length = stop - start := by
  simp [stretch]

@[simp] theorem stretch_self (t : Nat → Token) (i : Nat) : stretch t i i = [] := by
  simp [stretch]

theorem stretch_succ (t : Nat → Token) {start stop : Nat} (h : start ≤ stop) :
    stretch t start (stop + 1) = stretch t start stop ++ [t stop] := by
  have hlen : stop + 1 - start = (stop - start) + 1 := by omega
  have hlast : start + (stop - start) = stop := by omega
  simp [stretch, hlen, List.range'_concat, hlast]

theorem stretch_cons (t : Nat → Token) {start stop : Nat} (h : start < stop) :
    stretch t start stop = t start :: stretch t (start + 1) stop := by
  have hlen : stop - start = (stop - (start + 1)) + 1 := by omega
  simp [stretch, hlen, List.range'_succ]

theorem stretch_shift (t : Nat → Token) (start stop : Nat) :
    stretch t (start + 1) (stop + 1) = stretch (fun i => t (i + 1)) start stop := by
  simp [stretch, List.range'_eq_map_range, Function.comp_def, Nat.add_right_comm]

theorem stretch_append (t : Nat → Token) {a b c : Nat} (hab : a ≤ b) (hbc : b ≤ c) :
    stretch t a b ++ stretch t b c = stretch t a c := by
  obtain ⟨n, rfl⟩ := Nat.exists_eq_add_of_le hbc
  clear hbc
  induction n with
  | zero => simp
  | succ n ih =>
      rw [← Nat.add_assoc, stretch_succ t (Nat.le_add_right b n),
        stretch_succ t (Nat.le_trans hab (Nat.le_add_right b n)), ← ih, List.append_assoc]

theorem getElem?_stretch (t : Nat → Token) {start stop i : Nat} (h : i < stop - start) :
    (stretch t start stop)[i]? = some (t (start + i)) := by
  simp [stretch, List.getElem?_range' h]

/-- The kinds of the tokens with numbers `start ≤ i < stop` of a stream. -/
def word (t : Nat → Token) (start stop : Nat) : List Kind := (stretch t start stop).map Token.kind

@[simp] theorem word_self (t : Nat → Token) (i : Nat) : word t i i = [] := by
  simp [word]

theorem word_succ (t : Nat → Token) {start stop : Nat} (h : start ≤ stop) :
    word t start (stop + 1) = word t start stop ++ [(t stop).kind] := by
  simp [word, stretch_succ t h]

theorem word_cons (t : Nat → Token) {start stop : Nat} (h : start < stop) :
    word t start stop = (t start).kind :: word t (start + 1) stop := by
  simp [word, stretch_cons t h]

theorem word_append (t : Nat → Token) {a b c : Nat} (hab : a ≤ b) (hbc : b ≤ c) :
    word t a b ++ word t b c = word t a c := by
  rw [word, word, word, ← List.map_append, stretch_append t hab hbc]

-- ============================================================================
-- Buffers as windows
-- ============================================================================

namespace Lookahead

variable {σ : Type} [TokenSource σ]

/-- The buffer holds the stretch of the stream of `s` that was pulled and not dropped. -/
structure IsWindow (s : σ) (b : Lookahead σ) : Prop where
  source_eq : b.source = TokenSource.after s b.pulled
  pulled_eq : b.pulled = b.base + b.size
  get?_eq : ∀ i, i < b.size → b.get? i = some (TokenSource.stream s (b.base + i))
  cursor_le : b.cursor ≤ b.size

variable {s : σ} {b : Lookahead σ}

theorem isWindow_ofSource (s : σ) : (ofSource s).IsWindow s where
  source_eq := rfl
  pulled_eq := rfl
  get?_eq i hi := absurd hi (Nat.not_lt_zero i)
  cursor_le := Nat.le_refl 0

namespace IsWindow

theorem position_le (h : b.IsWindow s) : b.position ≤ b.pulled := by
  have hcursor := h.cursor_le
  rw [h.pulled_eq, position]
  omega

/-- Windows onto one stream are told apart by where they start, how far they reach and where
    the cursor stands. -/
protected theorem ext {b' : Lookahead σ} (h : b.IsWindow s) (h' : b'.IsWindow s)
    (hbase : b.base = b'.base) (hpulled : b.pulled = b'.pulled)
    (hposition : b.position = b'.position) : b = b' := by
  have hsize : b.size = b'.size := by
    have h1 := h.pulled_eq
    have h2 := h'.pulled_eq
    omega
  have hcursor : b.cursor = b'.cursor := by
    simp only [position] at hposition
    omega
  have hsource : b.source = b'.source := by rw [h.source_eq, h'.source_eq, hpulled]
  have htokens : b.tokens = b'.tokens := by
    apply Array.ext_getElem?
    intro i
    by_cases hi : i < b.size
    · have h1 : b.tokens[i]? = _ := h.get?_eq i hi
      have h2 : b'.tokens[i]? = _ := h'.get?_eq i (hsize ▸ hi)
      rw [h1, h2, hbase]
    · have hi' : b'.size ≤ i := by omega
      rw [Array.getElem?_eq_none (Nat.le_of_not_lt hi), Array.getElem?_eq_none hi']
  cases b
  cases b'
  simp only [mk.injEq]
  exact ⟨hsource, htokens, hcursor, hbase, hpulled⟩

theorem pull (h : b.IsWindow s) : b.pull.IsWindow s := by
  have hsize : b.pull.size = b.size + 1 := Array.size_push _
  have htoken : (TokenSource.next b.source).1 = TokenSource.stream s (b.base + b.size) := by
    rw [h.source_eq, h.pulled_eq]
    rfl
  constructor
  · show (TokenSource.next b.source).2 = TokenSource.after s (b.pulled + 1)
    rw [h.source_eq]
    rfl
  · show b.pulled + 1 = b.base + b.pull.size
    rw [h.pulled_eq, hsize]
    omega
  · intro i hi
    show (b.tokens.push (TokenSource.next b.source).1)[i]?
      = some (TokenSource.stream s (b.base + i))
    by_cases hlast : i = b.size
    · subst hlast
      rw [← htoken]
      exact Array.getElem?_push_size
    · have hlt : i < b.size := by omega
      rw [Array.getElem?_push_lt hlt, ← h.get?_eq i hlt]
      exact (Array.getElem?_eq_getElem hlt).symm
  · have hcursor := h.cursor_le
    show b.cursor ≤ b.pull.size
    omega

theorem pullMany (h : b.IsWindow s) (n : Nat) : (b.pullMany n).IsWindow s := by
  induction n generalizing b with
  | zero => exact h
  | succ n ih => exact ih h.pull

theorem reach (h : b.IsWindow s) (k : Nat) : (b.reach k).IsWindow s := h.pullMany _

/-- A buffer pulls up to the token that is asked for and no further. -/
theorem pulled_reach (h : b.IsWindow s) (k : Nat) :
    (b.reach k).pulled = max b.pulled (b.position + k) := by
  have hpulled := h.pulled_eq
  rw [Lookahead.reach, pulled_pullMany, position]
  omega

/-- A look shows the token of the stream at that place. -/
theorem fst_look (h : b.IsWindow s) (i : Nat) :
    (b.look i).1 = TokenSource.stream s (b.position + i) := by
  have hle := le_size_reach b (i + 1)
  have hget := (h.reach (i + 1)).get?_eq (b.cursor + i) (by omega)
  have hbase : (b.reach (i + 1)).base = b.base := base_pullMany _ _
  rw [get?_cursor_add_reach, hbase, Option.some.injEq] at hget
  rw [hget, position, Nat.add_assoc]

theorem moveTo (h : b.IsWindow s) {target : Nat} (htarget : target ≤ b.size) :
    IsWindow s { b with cursor := target } where
  source_eq := h.source_eq
  pulled_eq := h.pulled_eq
  get?_eq := h.get?_eq
  cursor_le := htarget

theorem consume (h : b.IsWindow s) : b.consume.IsWindow s := by
  have hle := le_size_reach b 1
  have hcursor : (b.reach 1).cursor = b.cursor := cursor_pullMany _ _
  exact (h.reach 1).moveTo (by omega)

theorem clear (h : b.IsWindow s) : b.clear.IsWindow s where
  source_eq := h.source_eq
  pulled_eq := h.pulled_eq
  get?_eq i hi := absurd hi (Nat.not_lt_zero i)
  cursor_le := Nat.le_refl 0

/-- A buffer knows as well as its source how many tokens are left before the ends of input. -/
theorem endsBy_pending (h : b.IsWindow s) (hdry : TokenSource.RunsDry s) :
    TokenSource.EndsBy (TokenSource.stream s) (b.position + b.pending) := by
  intro i hi
  have hpulled := h.pulled_eq
  have hcursor := h.cursor_le
  rw [pending, h.source_eq, position] at hi
  obtain ⟨j, rfl⟩ := Nat.exists_eq_add_of_le (show b.pulled ≤ i by omega)
  rw [← TokenSource.stream_after]
  exact hdry b.pulled j (by omega)

/-- A slice of a window is a stretch of the stream. -/
theorem extract_eq (h : b.IsWindow s) {start stop : Nat} (hstop : stop ≤ b.size) :
    (b.tokens.extract start stop).toList
      = stretch (TokenSource.stream s) (b.base + start) (b.base + stop) := by
  apply List.ext_getElem?
  intro i
  by_cases hi : i < stop - start
  · have hget : b.tokens[start + i]? = _ := h.get?_eq (start + i) (by omega)
    rw [getElem?_stretch _ (by omega)]
    simp only [Array.getElem?_toList, Array.getElem?_extract]
    rw [if_pos (by simp only [size] at hstop; omega), hget, Nat.add_assoc]
  · rw [List.getElem?_eq_none, List.getElem?_eq_none]
    · simp only [length_stretch]
      omega
    · simp only [Array.length_toList, Array.size_extract]
      omega

end IsWindow
end Lookahead

-- ============================================================================
-- Sources that run dry
-- ============================================================================

namespace TokenList

/-- Pulls drop the first tokens and count what was handed out. -/
theorem after_ofTokens (tokens : List Token) (n : Nat) :
    TokenSource.after (ofTokens tokens) n
      = { ofTokens tokens with remaining := tokens.drop n, handedOut := n } := by
  induction n with
  | zero => rfl
  | succ n ih =>
      rw [TokenSource.after, ih]
      show (TokenList.next _).2 = _
      cases hdrop : tokens.drop n with
      | nil =>
          have hnil : tokens.drop (n + 1) = [] := by
            rw [← List.drop_drop, hdrop, List.drop_nil]
          simp [TokenList.next, hnil]
      | cons token rest =>
          have hrest : tokens.drop (n + 1) = rest := by
            rw [← List.drop_drop, hdrop, List.drop_one, List.tail_cons]
          simp [TokenList.next, hrest]

/-- The stream of a list of tokens: the tokens, and then the tail for ever. -/
theorem stream_ofTokens (tokens : List Token) (i : Nat) :
    TokenSource.stream (ofTokens tokens) i = tokens.getD i (ofTokens tokens).tail := by
  rw [TokenSource.stream, after_ofTokens]
  show (TokenList.next _).1 = _
  cases hdrop : tokens.drop i with
  | nil =>
      have hlen : tokens.length ≤ i := List.drop_eq_nil_iff.1 hdrop
      simp [TokenList.next, List.getD_eq_getElem?_getD, List.getElem?_eq_none hlen]
  | cons token rest =>
      have hget : tokens[i]? = some token := by
        rw [← List.head?_drop, hdrop, List.head?_cons]
      simp [TokenList.next, List.getD_eq_getElem?_getD, hget]

theorem endsBy_stream_ofTokens (tokens : List Token) :
    TokenSource.EndsBy (TokenSource.stream (ofTokens tokens)) tokens.length := by
  intro i hi
  rw [stream_ofTokens, List.getD_eq_getElem?_getD, List.getElem?_eq_none hi]
  rfl

theorem runsDry_ofTokens (tokens : List Token) : TokenSource.RunsDry (ofTokens tokens) := by
  intro n i hi
  have hpending : TokenSource.pending (TokenSource.after (ofTokens tokens) n)
      = tokens.length - n := by
    rw [after_ofTokens]
    exact List.length_drop
  rw [TokenSource.stream_after]
  exact endsBy_stream_ofTokens tokens (n + i) (by omega)

end TokenList

namespace Scanner

/-- No character stands for an end of input. -/
theorem ne_eof_of_mark {c : Char} {kind : Kind} (h : CharClass.of c = .mark kind) :
    kind ≠ .eof := by
  rintro rfl
  simp only [CharClass.of] at h
  repeat' split at h
  all_goals cases h

/-- End of input is found only when every character was looked at. -/
theorem rest_scan_of_isEof {endOffset : UInt32} {skipped : Array InvalidCharacter}
    {offset : Nat} {rest : List Char} (h : (scan endOffset skipped offset rest).1.isEof = true) :
    (scan endOffset skipped offset rest).2.rest = [] := by
  fun_induction scan endOffset skipped offset rest with
  | case1 => rfl
  | case2 _ _ _ _ _ ih => exact ih h
  | case3 _ _ _ _ _ _ ih => exact ih h
  | case4 _ _ _ _ _ hclass => simp [token, Token.isEof, ne_eof_of_mark hclass] at h
  | case5 => simp [token, Token.isEof] at h

/-- Each pull takes a character as long as there is one. -/
theorem length_rest_after_le (s : Scanner) (n : Nat) :
    (TokenSource.after s n).rest.length ≤ s.rest.length - n := by
  induction n with
  | zero => exact Nat.le_refl _
  | succ n ih =>
      show (TokenSource.after s n).next.2.rest.length ≤ _
      cases heof : (TokenSource.after s n).next.1.isEof with
      | true =>
          rw [show (TokenSource.after s n).next.2.rest = [] from rest_scan_of_isEof heof]
          exact Nat.zero_le _
      | false =>
          have hlt := length_rest_next_lt heof
          omega

theorem endsBy_stream (s : Scanner) :
    TokenSource.EndsBy (TokenSource.stream s) s.rest.length := by
  intro i hi
  have hlen := length_rest_after_le s i
  have hrest : (TokenSource.after s i).rest = [] := List.eq_nil_of_length_eq_zero (by omega)
  show (scan _ _ _ (TokenSource.after s i).rest).1.kind = .eof
  rw [hrest]
  rfl

theorem runsDry (s : Scanner) : TokenSource.RunsDry s := fun n =>
  endsBy_stream (TokenSource.after s n)

end Scanner
end Packrat
