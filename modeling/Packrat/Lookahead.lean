/-
  Packrat.Lookahead

  A cursor over a token source.  Tokens are pulled from the source when a look
  or a step needs them and stay buffered, so the cursor can go back, until the
  buffer is emptied.  Positions count from the oldest buffered token;
  `base` tells how many tokens were dropped before it, so `base + i` is the
  input-wide number of the token at position `i`.
-/

import Packrat.Fault
import Packrat.Machine
import Packrat.TokenSource

namespace Packrat

/-- A token source with a buffer in front of it. -/
structure Lookahead (σ : Type) where
  source : σ
  /-- The buffered tokens. -/
  tokens : Array Token
  /-- The position of the next token to consume. -/
  cursor : Nat
  /-- How many tokens were dropped from the buffer. -/
  base : Nat
  /-- How many tokens were ever pulled. -/
  pulled : Nat

namespace Lookahead

variable {σ : Type}

/-- A buffer with nothing in it. -/
def ofSource (source : σ) : Lookahead σ := ⟨source, #[], 0, 0, 0⟩

/-- How many tokens are buffered. -/
def size (b : Lookahead σ) : Nat := b.tokens.size

/-- Whether nothing is buffered. -/
def isEmpty (b : Lookahead σ) : Bool := b.tokens.isEmpty

/-- Whether every buffered token was consumed. -/
def atEnd (b : Lookahead σ) : Bool := b.cursor == b.size

/-- The input-wide number of the next token. -/
def position (b : Lookahead σ) : Nat := b.base + b.cursor

/-- The buffered token at position `i`. -/
def get? (b : Lookahead σ) (i : Nat) : Option Token := b.tokens[i]?

/-- Empties the buffer and starts counting positions anew. -/
def clear (b : Lookahead σ) : Lookahead σ :=
  { b with base := b.base + b.size, tokens := #[], cursor := 0 }

/-- A step on a buffer; a fault leaves the buffer as it was when it happened. -/
abbrev Step (σ α : Type) : Type := EStateM Fault (Lookahead σ) α

/-- The input-wide number of the token at position `i`. -/
def absolute (i : Nat) : Step σ Nat := fun b =>
  if b.base + i < Machine.wordLimit then .ok (b.base + i) b else .error .overflow b

/-- The buffered tokens at positions `start ≤ i < stop`. -/
def slice (start stop : Nat) : Step σ (List Token) := fun b =>
  if start ≤ stop ∧ stop ≤ b.size then .ok (b.tokens.extract start stop).toList b
  else .error .outOfRange b

/-- Moves the cursor to a position inside the buffer or right behind it. -/
def seek (target : Nat) : Step σ Unit := fun b =>
  if target ≤ b.size then .ok () { b with cursor := target }
  else .error (.seekPastEnd target b.size) b

variable [TokenSource σ]

/-- Takes one token straight from the source, past the buffer. -/
def steal : Step σ Token := fun b =>
  let (token, source) := TokenSource.next b.source
  .ok token { b with source }

/-- Pulls one token into the buffer. -/
def pull (b : Lookahead σ) : Lookahead σ :=
  let (token, source) := TokenSource.next b.source
  { b with source, tokens := b.tokens.push token, pulled := b.pulled + 1 }

/-- Pulls `n` tokens into the buffer. -/
def pullMany : Nat → Lookahead σ → Lookahead σ
  | 0, b => b
  | n + 1, b => pullMany n b.pull

/-- Pulls as many tokens as it takes to have `k` buffered from the cursor on. -/
def reach (b : Lookahead σ) (k : Nat) : Lookahead σ := b.pullMany (b.cursor + k - b.size)

/-- Steps past the next token. -/
def consume (b : Lookahead σ) : Lookahead σ :=
  let b := b.reach 1
  { b with cursor := b.cursor + 1 }

/-- How many tokens can follow the cursor before the end-of-input tail. -/
def pending (b : Lookahead σ) : Nat := b.size - b.cursor + TokenSource.pending b.source

/-! ## What pulling changes -/

@[simp] theorem cursor_pullMany (n : Nat) (b : Lookahead σ) :
    (b.pullMany n).cursor = b.cursor := by
  induction n generalizing b with
  | zero => rfl
  | succ n ih => exact ih b.pull

@[simp] theorem base_pullMany (n : Nat) (b : Lookahead σ) : (b.pullMany n).base = b.base := by
  induction n generalizing b with
  | zero => rfl
  | succ n ih => exact ih b.pull

@[simp] theorem pulled_pullMany (n : Nat) (b : Lookahead σ) :
    (b.pullMany n).pulled = b.pulled + n := by
  induction n generalizing b with
  | zero => rfl
  | succ n ih =>
      have hpull : b.pull.pulled = b.pulled + 1 := rfl
      rw [pullMany, ih, hpull]
      omega

@[simp] theorem size_pullMany (n : Nat) (b : Lookahead σ) :
    (b.pullMany n).size = b.size + n := by
  induction n generalizing b with
  | zero => rfl
  | succ n ih =>
      have hpull : b.pull.size = b.size + 1 := Array.size_push _
      rw [pullMany, ih, hpull]
      omega

/-- Tokens that are buffered already stay where they are. -/
theorem get?_pullMany {n i : Nat} {b : Lookahead σ} (h : i < b.size) :
    (b.pullMany n).get? i = b.get? i := by
  induction n generalizing b with
  | zero => rfl
  | succ n ih =>
      have hsize : b.pull.size = b.size + 1 := Array.size_push _
      rw [pullMany, ih (by omega)]
      exact (Array.getElem?_push_lt h).trans (Array.getElem?_eq_getElem h).symm

/-- Pulling leaves the next token where it is. -/
theorem position_reach (b : Lookahead σ) (k : Nat) : (b.reach k).position = b.position := by
  simp [position, reach]

theorem position_consume (b : Lookahead σ) : b.consume.position = b.position + 1 := by
  simp [position, consume, reach, Nat.add_assoc]

theorem le_size_reach (b : Lookahead σ) (k : Nat) : b.cursor + k ≤ (b.reach k).size := by
  rw [reach, size_pullMany]
  omega

theorem cursor_add_lt_size_reach (b : Lookahead σ) (i : Nat) :
    (b.reach (i + 1)).cursor + i < (b.reach (i + 1)).tokens.size := by
  have hcursor : (b.reach (i + 1)).cursor = b.cursor := cursor_pullMany _ _
  have hle : b.cursor + (i + 1) ≤ (b.reach (i + 1)).tokens.size := le_size_reach b (i + 1)
  omega

/-! ## Looks ahead -/

/-- The token `i` places past the next one, with what the look pulled. -/
def look (b : Lookahead σ) (i : Nat) : Token × Lookahead σ :=
  let r := b.reach (i + 1)
  have : r.cursor + i < r.tokens.size := cursor_add_lt_size_reach b i
  (r.tokens[r.cursor + i], r)

/-- The next token. -/
def next : Step σ Token := fun b =>
  let (token, b) := b.look 0
  .ok token b

/-- The token `k` places ahead, where the next one is one place ahead.  A distance is refused
    if no buffer could hold that token with all that is buffered before it. -/
def peek (k : Nat) : Step σ Token := fun b =>
  if k = 0 then .error .zeroDistance b
  else if Machine.bufferLimit < b.cursor + k then .error .overflow b
  else
    let (token, b) := b.look (k - 1)
    .ok token b

@[simp] theorem snd_look (b : Lookahead σ) (i : Nat) : (b.look i).2 = b.reach (i + 1) := rfl

/-- A look finds the token where the buffer has it afterwards. -/
theorem get?_cursor_add_reach (b : Lookahead σ) (i : Nat) :
    (b.reach (i + 1)).get? (b.cursor + i) = some (b.look i).1 := by
  have hcursor : (b.reach (i + 1)).cursor = b.cursor := cursor_pullMany _ _
  rw [← hcursor]
  exact Array.getElem?_eq_getElem (cursor_add_lt_size_reach b i)

/-- A look within bounds answers, and only pulls. -/
theorem peek_eq {k : Nat} {b : Lookahead σ} (hk : 0 < k)
    (hlimit : b.cursor + k ≤ Machine.bufferLimit) :
    peek k b = .ok (b.look (k - 1)).1 (b.reach k) := by
  obtain ⟨i, rfl⟩ : ∃ i, k = i + 1 := ⟨k - 1, by omega⟩
  have hnot : ¬Machine.bufferLimit < b.cursor + (i + 1) := by omega
  simp [peek, hnot]

end Lookahead
end Packrat
