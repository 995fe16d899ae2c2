/-
  Packrat.Proofs.Tape

  A lookahead buffer is a cursor on an endless tape of tokens.

  The tape (`Tape`) has all tokens of the source on it from the start, never
  moves them, and keeps three numbers: from where positions are counted, where
  the cursor is, and how far a look or a step ever had to reach.  Whatever is
  done with a buffer, it answers as the tape does, and the three numbers are
  its base, its place and the count of the tokens it pulled
  (`OnTape.perform` for one operation, `buffer_is_tape` for any run of them).
  So looks show the same token under the same number whatever was pulled,
  consumed, rewound or dropped before, and no token is pulled before it is
  needed or twice.
-/

import Packrat.Proofs.Stream

namespace Packrat
namespace Lookahead

-- ============================================================================
-- What is done with a buffer
-- ============================================================================

/-- An operation on a buffer. -/
inductive Op where
  /-- The token `k` places ahead. -/
  | look (k : Nat)
  /-- The kind of the token `k` places ahead. -/
  | kind (k : Nat)
  /-- Step past the next token. -/
  | consume
  /-- The position of the cursor. -/
  | mark
  /-- Move the cursor to a position. -/
  | seek (target : Nat)
  /-- The buffered token at a position. -/
  | get (i : Nat)
  /-- The buffered tokens in a range of positions. -/
  | slice (start stop : Nat)
  /-- The input-wide number of a position. -/
  | absolute (i : Nat)
  /-- Drop every buffered token. -/
  | discard
deriving DecidableEq, Repr

/-- What an operation answers. -/
inductive Reply where
  | done
  | token (t : Token)
  | kind (k : Kind)
  | number (n : Nat)
  | found (t : Option Token)
  | tokens (ts : List Token)
deriving DecidableEq, Repr

namespace Op

variable {σ : Type}

/-- The caller may perform the operation: distances start at one, positions are those of buffered
    tokens or right behind them, only consumed tokens are dropped, and no index overflows.  The
    last is more than that numbers fit a word: a buffer has no index behind `2 ^ 58 - 1`, since it
    cannot hold more tokens, so a look must not reach beyond that.  Such a look faults before it
    pulls anything; no other operation on a buffer has this condition. -/
def Allowed (b : Lookahead σ) : Op → Prop
  | .look k | .kind k => 1 ≤ k ∧ b.cursor + k ≤ Machine.bufferLimit
  | .seek target => target ≤ b.size
  | .slice start stop => start ≤ stop ∧ stop ≤ b.size
  | .absolute i => b.base + i < Machine.wordLimit
  | .discard => b.atEnd = true
  | .consume | .mark | .get _ => True

instance (b : Lookahead σ) : (op : Op) → Decidable (op.Allowed b)
  | .look _ | .kind _ | .slice _ _ => inferInstanceAs (Decidable (_ ∧ _))
  | .seek _ => inferInstanceAs (Decidable (_ ≤ _))
  | .absolute _ => inferInstanceAs (Decidable (_ < _))
  | .discard => inferInstanceAs (Decidable (_ = _))
  | .consume | .mark | .get _ => inferInstanceAs (Decidable True)

variable [TokenSource σ]

/-- Performs the operation. -/
def perform : Op → Step σ Reply
  | .look k => .token <$> peek k
  | .kind k => (.kind ·.kind) <$> peek k
  | .consume => fun b => .ok .done b.consume
  | .mark => fun b => .ok (.number b.cursor) b
  | .seek target => (fun _ => .done) <$> Lookahead.seek target
  | .get i => fun b => .ok (.found (b.get? i)) b
  | .slice start stop => .tokens <$> Lookahead.slice start stop
  | .absolute i => .number <$> Lookahead.absolute i
  | .discard => fun b => .ok .done b.clear

/-- Performs one operation after the other. -/
def performAll : List Op → Step σ (List Reply)
  | [] => pure []
  | op :: ops => do return (← op.perform) :: (← performAll ops)

/-- Each operation may be performed where the ones before it lead. -/
def AllowedAll : List Op → Lookahead σ → Prop
  | [], _ => True
  | op :: ops, b => op.Allowed b ∧
    match op.perform b with
    | .ok _ b' => AllowedAll ops b'
    | .error _ _ => True

instance decidableAllowedAll : (ops : List Op) → (b : Lookahead σ) → Decidable (AllowedAll ops b)
  | [], _ => inferInstanceAs (Decidable True)
  | op :: ops, b =>
    have : Decidable (match op.perform b with
        | .ok _ b' => AllowedAll ops b'
        | .error _ _ => True) :=
      match op.perform b with
      | .ok _ b' => decidableAllowedAll ops b'
      | .error _ _ => inferInstanceAs (Decidable True)
    inferInstanceAs (Decidable (_ ∧ _))

end Op

-- ============================================================================
-- The tape
-- ============================================================================

/-- A cursor on a tape that has every token on it. -/
structure Tape where
  /-- The number of the token from which positions are counted. -/
  base : Nat
  /-- The number of the next token. -/
  position : Nat
  /-- One more than the largest number of a token that a look or a step needed so far. -/
  needed : Nat
deriving DecidableEq, Repr

namespace Tape

/-- The cursor at the start of the tape. -/
def start : Tape := ⟨0, 0, 0⟩

/-- The tokens up to `k` places ahead are needed. -/
def need (tape : Tape) (k : Nat) : Tape :=
  { tape with needed := max tape.needed (tape.position + k) }

/-- The cursor after an operation. -/
def after (tape : Tape) : Op → Tape
  | .look k | .kind k => tape.need k
  | .consume => { tape.need 1 with position := tape.position + 1 }
  | .seek target => { tape with position := tape.base + target }
  | .discard => { tape with base := tape.position }
  | .mark | .get _ | .slice _ _ | .absolute _ => tape

/-- What an operation answers on the tape `t`. -/
def reply (t : Nat → Token) (tape : Tape) : Op → Reply
  | .look k => .token (t (tape.position + k - 1))
  | .kind k => .kind (t (tape.position + k - 1)).kind
  | .mark => .number (tape.position - tape.base)
  | .get i => .found (if tape.base + i < tape.needed then some (t (tape.base + i)) else none)
  | .slice start stop => .tokens (stretch t (tape.base + start) (tape.base + stop))
  | .absolute i => .number (tape.base + i)
  | .consume | .seek _ | .discard => .done

/-- The cursor after the operations. -/
def afterAll (tape : Tape) (ops : List Op) : Tape := ops.foldl after tape

/-- What the operations answer on the tape `t`. -/
def replies (t : Nat → Token) : Tape → List Op → List Reply
  | _, [] => []
  | tape, op :: ops => tape.reply t op :: replies t (tape.after op) ops

end Tape

-- ============================================================================
-- Buffers on the tape
-- ============================================================================

variable {σ : Type} [TokenSource σ] {s : σ} {b b' : Lookahead σ} {tape : Tape}

/-- The buffer on the stream of `s` stands where the tape does, and pulled what was needed. -/
structure OnTape (s : σ) (tape : Tape) (b : Lookahead σ) : Prop where
  window : b.IsWindow s
  base : b.base = tape.base
  position : b.position = tape.position
  pulled : b.pulled = tape.needed

theorem onTape_ofSource (s : σ) : OnTape s .start (ofSource s) :=
  ⟨isWindow_ofSource s, rfl, rfl, rfl⟩

omit [TokenSource σ] in
theorem map_of_ok {α β : Type} {f : α → β} {m : Step σ α} {a : α} (h : m b = .ok a b') :
    (f <$> m) b = .ok (f a) b' := by
  show EStateM.map f m b = _
  simp only [EStateM.map, h]

theorem performAll_cons_of_ok {op : Op} {ops : List Op} {reply : Reply} {replies : List Reply}
    {b'' : Lookahead σ} (h : op.perform b = .ok reply b')
    (h' : Op.performAll ops b' = .ok replies b'') :
    Op.performAll (op :: ops) b = .ok (reply :: replies) b'' := by
  show EStateM.bind op.perform _ b = _
  simp only [EStateM.bind, h]
  show EStateM.bind (Op.performAll ops) _ b' = _
  simp only [EStateM.bind, h']
  rfl

namespace OnTape

theorem size_eq (h : OnTape s tape b) : tape.base + b.size = tape.needed := by
  rw [← h.base, ← h.pulled, h.window.pulled_eq]

theorem cursor_eq (h : OnTape s tape b) : tape.base + b.cursor = tape.position := by
  rw [← h.base, ← h.position, Lookahead.position]

/-- A look shows the token of the tape, and pulls up to it. -/
theorem peek (h : OnTape s tape b) {k : Nat} (hk : 1 ≤ k)
    (hlimit : b.cursor + k ≤ Machine.bufferLimit) :
    Lookahead.peek k b = .ok (TokenSource.stream s (tape.position + k - 1)) (b.reach k) ∧
      OnTape s (tape.need k) (b.reach k) := by
  refine ⟨?_, h.window.reach k, ?_, (position_reach b k).trans h.position, ?_⟩
  · rw [peek_eq hk hlimit, h.window.fst_look, h.position, Nat.add_sub_assoc hk]
  · rw [reach, base_pullMany]
    exact h.base
  · rw [h.window.pulled_reach, h.pulled, h.position]
    rfl

/-- A buffered token is the token of the tape with that number. -/
theorem get?_eq (h : OnTape s tape b) (i : Nat) :
    b.get? i = if tape.base + i < tape.needed then some (TokenSource.stream s (tape.base + i))
      else none := by
  have hsize := h.size_eq
  by_cases hi : i < b.size
  · rw [if_pos (by omega), h.window.get?_eq i hi, h.base]
  · rw [if_neg (by omega)]
    exact Array.getElem?_eq_none (Nat.le_of_not_lt hi)

/-- A step pulls the token that it goes past, if that is not there yet. -/
theorem consume (h : OnTape s tape b) : OnTape s (tape.after .consume) b.consume := by
  refine ⟨h.window.consume, ?_, ?_, ?_⟩
  · show (b.reach 1).base = tape.base
    rw [reach, base_pullMany]
    exact h.base
  · rw [position_consume, h.position]
    rfl
  · show (b.reach 1).pulled = _
    rw [h.window.pulled_reach, h.pulled, h.position]
    rfl

omit [TokenSource σ] in
/-- Dropping the buffered tokens, once they are consumed, leaves the cursor where it is. -/
theorem position_clear (hend : b.atEnd = true) : b.clear.position = b.position := by
  have hcursor : b.cursor = b.size := by simpa [atEnd] using hend
  rw [Lookahead.position, Lookahead.position, hcursor]
  rfl

theorem clear (h : OnTape s tape b) (hend : b.atEnd = true) :
    OnTape s (tape.after .discard) b.clear := by
  have hposition := position_clear hend
  exact ⟨h.window.clear, hposition.trans h.position, hposition.trans h.position, h.pulled⟩

/-- An allowed operation answers as the tape does, and stays on the tape. -/
theorem perform (h : OnTape s tape b) {op : Op} (hop : op.Allowed b) :
    ∃ b', op.perform b = .ok (tape.reply (TokenSource.stream s) op) b' ∧
      OnTape s (tape.after op) b' := by
  have hsize := h.size_eq
  cases op with
  | look k =>
      obtain ⟨hpeek, hreach⟩ := h.peek hop.1 hop.2
      exact ⟨_, map_of_ok hpeek, hreach⟩
  | kind k =>
      obtain ⟨hpeek, hreach⟩ := h.peek hop.1 hop.2
      exact ⟨_, map_of_ok hpeek, hreach⟩
  | consume => exact ⟨_, rfl, h.consume⟩
  | mark =>
      have hcursor := h.cursor_eq
      refine ⟨b, ?_, h⟩
      rw [Tape.reply, ← hcursor, Nat.add_sub_cancel_left]
      rfl
  | seek target =>
      have htarget : target ≤ b.size := hop
      have hseek : Lookahead.seek target b = .ok () { b with cursor := target } := if_pos htarget
      refine ⟨_, map_of_ok hseek, h.window.moveTo htarget, h.base, ?_, h.pulled⟩
      show b.base + target = tape.base + target
      rw [h.base]
  | get i =>
      refine ⟨b, ?_, h⟩
      rw [Tape.reply, ← h.get?_eq]
      rfl
  | slice start stop =>
      have hslice : Lookahead.slice start stop b
          = .ok (b.tokens.extract start stop).toList b := if_pos hop
      rw [h.window.extract_eq hop.2, h.base] at hslice
      exact ⟨b, map_of_ok hslice, h⟩
  | absolute i =>
      have hnumber : Lookahead.absolute i b = .ok (b.base + i) b := if_pos hop
      rw [h.base] at hnumber
      exact ⟨b, map_of_ok hnumber, h⟩
  | discard => exact ⟨_, rfl, h.clear hop⟩

/-- So does any run of allowed operations. -/
theorem performAll (h : OnTape s tape b) {ops : List Op} (hops : Op.AllowedAll ops b) :
    ∃ b', Op.performAll ops b = .ok (tape.replies (TokenSource.stream s) ops) b' ∧
      OnTape s (tape.afterAll ops) b' := by
  induction ops generalizing b tape with
  | nil => exact ⟨b, rfl, h⟩
  | cons op ops ih =>
      obtain ⟨hop, hrest⟩ := hops
      obtain ⟨b₁, hrun, h₁⟩ := h.perform hop
      rw [hrun] at hrest
      obtain ⟨b', hruns, h'⟩ := ih h₁ hrest
      exact ⟨b', performAll_cons_of_ok hrun hruns, h'⟩

end OnTape

/-- A buffer over a list of tokens is a cursor on the tape of these tokens and the ends of input
    behind them.  After any operations that the caller may perform it has answered as the tape
    does; its base and its place are those of the tape; and what it pulled, what it dropped and
    holds, and what the source handed out are all the tokens that were needed so far, and no
    more. -/
theorem buffer_is_tape (tokens : List Token) (ops : List Op)
    (hops : Op.AllowedAll ops (ofSource (TokenList.ofTokens tokens))) :
    ∃ b, Op.performAll ops (ofSource (TokenList.ofTokens tokens))
        = .ok (Tape.start.replies (TokenSource.stream (TokenList.ofTokens tokens)) ops) b ∧
      b.base = (Tape.start.afterAll ops).base ∧
      b.base + b.cursor = (Tape.start.afterAll ops).position ∧
      b.pulled = (Tape.start.afterAll ops).needed ∧
      b.base + b.size = b.pulled ∧
      b.source.handedOut = b.pulled ∧
      (b.atEnd = true → b.clear.base + b.clear.cursor = b.base + b.cursor) := by
  obtain ⟨b, hrun, hb⟩ := (onTape_ofSource (TokenList.ofTokens tokens)).performAll hops
  refine ⟨b, hrun, hb.base, hb.position, hb.pulled, hb.window.pulled_eq.symm, ?_,
    OnTape.position_clear⟩
  rw [hb.window.source_eq, TokenList.after_ofTokens]

/-- Looks ahead, steps, a rewind and a drop, and looks at what is left. -/
def backAndForth : List Op :=
  [.look 3, .consume, .consume, .mark, .seek 0, .kind 2, .consume, .get 2, .slice 0 2, .seek 3,
    .discard, .absolute 0, .kind 2, .get 1, .consume, .mark]

/-- On `[a]` the drop leaves the buffer empty in front of the ends of input, of which two are
    pulled. -/
theorem buffer_is_tape_of_backAndForth :
    Op.AllowedAll backAndForth (ofSource (TokenList.ofTokens
      [.unplaced .lbracket "[", .unplaced .name "a", .unplaced .rbracket "]"])) ∧
    ∃ b, Op.performAll backAndForth (ofSource (TokenList.ofTokens
        [.unplaced .lbracket "[", .unplaced .name "a", .unplaced .rbracket "]"]))
      = .ok [.token (.unplaced .rbracket "]"), .done, .done, .number 2, .done, .kind .name, .done,
          .found (some (.unplaced .rbracket "]")),
          .tokens [.unplaced .lbracket "[", .unplaced .name "a"], .done, .done, .number 3,
          .kind .eof, .found (some (.eof 0)), .done, .number 1] b ∧
      b.base = 3 ∧ b.base + b.cursor = 4 ∧ b.pulled = 5 ∧ b.source.handedOut = 5 := by
  have hallowed : Op.AllowedAll backAndForth (ofSource (TokenList.ofTokens
      [.unplaced .lbracket "[", .unplaced .name "a", .unplaced .rbracket "]"])) := by decide
  obtain ⟨b, hrun, hbase, hplace, hpulled, -, hhanded, -⟩ := buffer_is_tape _ _ hallowed
  exact ⟨hallowed, b, hrun, hbase, hplace, hpulled, hhanded.trans hpulled⟩

end Lookahead
end Packrat
