/-
  Packrat.Span

  Byte ranges of the scanned text.  A span is a pair of 32-bit offsets, end
  exclusive.  Ranges with an offset that does not fit are refused by `ofRange`
  and moved to the last representable offset by `clamped`.
-/

namespace Packrat

/-- The bytes `start ≤ i < stop` of a text. -/
structure Span where
  start : UInt32
  stop : UInt32
deriving DecidableEq, Repr, Inhabited

/-- Why a byte range has no span: one of its offsets is above `2 ^ 32 - 1`. -/
inductive SpanError where
  | startTooLarge (offset : Nat)
  | endTooLarge (offset : Nat)
deriving DecidableEq, Repr

namespace SpanError

/-- The wording of a refused range. -/
def message : SpanError → String
  | startTooLarge offset => "span start " ++ toString offset ++ " exceeds u32::MAX"
  | endTooLarge offset => "span end " ++ toString offset ++ " exceeds u32::MAX"

end SpanError

namespace Span

/-- The empty span at offset zero, for tokens that were not scanned from a text. -/
def origin : Span := ⟨0, 0⟩

/-- The empty span at `offset`. -/
def point (offset : UInt32) : Span := ⟨offset, offset⟩

/-- The last offset that a span can hold. -/
def maxOffset : UInt32 := 4294967295

/-- The span of a byte range; of two offsets that do not fit, the start is blamed. -/
def ofRange (start stop : Nat) : Except SpanError Span :=
  if maxOffset.toNat < start then .error (.startTooLarge start)
  else if maxOffset.toNat < stop then .error (.endTooLarge stop)
  else .ok ⟨UInt32.ofNat start, UInt32.ofNat stop⟩

/-- The span of a byte range; a range that does not fit becomes the empty span at the
    last representable offset. -/
def clamped (start stop : Nat) : Span :=
  match ofRange start stop with
  | .ok span => span
  | .error _ => point maxOffset

/-- How many bytes the span covers, for a span that does not end before it starts. -/
def length (s : Span) : UInt32 := s.stop - s.start

/-- Whether the span covers no byte. -/
def isEmpty (s : Span) : Bool := s.start == s.stop

/-- The least span that covers both. -/
def merge (s t : Span) : Span :=
  ⟨if s.start ≤ t.start then s.start else t.start, if s.stop ≤ t.stop then t.stop else s.stop⟩

/-- The span as `start..stop`. -/
def text (s : Span) : String := toString s.start.toNat ++ ".." ++ toString s.stop.toNat

/-! ## Small facts -/

@[simp] theorem start_point (offset : UInt32) : (point offset).start = offset := rfl

@[simp] theorem stop_point (offset : UInt32) : (point offset).stop = offset := rfl

theorem ofRange_of_le {start stop : Nat} (hs : start ≤ maxOffset.toNat)
    (ht : stop ≤ maxOffset.toNat) :
    ofRange start stop = .ok ⟨UInt32.ofNat start, UInt32.ofNat stop⟩ := by
  simp [ofRange, Nat.not_lt.2 hs, Nat.not_lt.2 ht]

theorem clamped_of_le {start stop : Nat} (hs : start ≤ maxOffset.toNat)
    (ht : stop ≤ maxOffset.toNat) :
    clamped start stop = ⟨UInt32.ofNat start, UInt32.ofNat stop⟩ := by
  simp [clamped, ofRange_of_le hs ht]

theorem clamped_of_lt {start stop : Nat} (h : maxOffset.toNat < stop) :
    clamped start stop = point maxOffset := by
  unfold clamped ofRange
  by_cases hstart : maxOffset.toNat < start
  · rw [if_pos hstart]
  · rw [if_neg hstart, if_pos h]

theorem toNat_start_clamped {start stop : Nat} (hle : start ≤ stop) (hstop : stop < 4294967296) :
    (clamped start stop).start.toNat = start := by
  have hmax : maxOffset.toNat = 4294967295 := rfl
  rw [clamped_of_le (by omega) (by omega)]
  exact UInt32.toNat_ofNat_of_lt' (Nat.lt_of_le_of_lt hle hstop)

theorem toNat_stop_clamped {start stop : Nat} (hle : start ≤ stop) (hstop : stop < 4294967296) :
    (clamped start stop).stop.toNat = stop := by
  have hmax : maxOffset.toNat = 4294967295 := rfl
  rw [clamped_of_le (by omega) (by omega)]
  exact UInt32.toNat_ofNat_of_lt' hstop

end Span
end Packrat
