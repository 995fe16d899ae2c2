/-
  Packrat.Machine

  The limits of the machine that numbers and buffers are held to.
-/

namespace Packrat.Machine

/-- One more than the largest number that a word holds. -/
def wordLimit : Nat := 1 <<< 64

/-- The largest number of tokens that one buffer can hold: `2 ^ 63 - 1` bytes at 32 bytes for
    each token. -/
def bufferLimit : Nat := (1 <<< 58) - 1

end Packrat.Machine
