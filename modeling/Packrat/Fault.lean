/-
  Packrat.Fault

  Misuse of the engine.  A fault is not a failed match: it says that a caller
  broke a rule of an operation, and it ends the run at once.
-/

namespace Packrat

/-- The two ways to close a speculation. -/
inductive Closing where
  /-- Rewind to the mark. -/
  | abandon
  /-- Keep the cursor. -/
  | commit
deriving DecidableEq, Repr

/-- The name of a way to close a speculation. -/
def Closing.name : Closing → String
  | abandon => "abandon"
  | commit => "commit"

/-- Why a run stopped. -/
inductive Fault where
  /-- A token zero places ahead was asked for. -/
  | zeroDistance
  /-- The cursor was to move past the buffered tokens. -/
  | seekPastEnd (target buffered : Nat)
  /-- A speculation was to be closed while none was open. -/
  | unbalanced (closing : Closing)
  /-- The buffer was to be emptied while something could still be rewound or read. -/
  | earlyCompaction
  /-- Tokens outside the buffer were asked for. -/
  | outOfRange
  /-- A position or a size does not fit the machine. -/
  | overflow
  /-- The run was given too little fuel to end. -/
  | exhausted
deriving DecidableEq, Repr

/-- The wording of a fault, for those that have one. -/
def Fault.message? : Fault → Option String
  | .zeroDistance => some "lookahead distance starts at 1"
  | .seekPastEnd target buffered =>
    some ("seek to " ++ toString target ++ " past " ++ toString buffered ++ " buffered tokens")
  | .unbalanced closing =>
    some ("unbalanced speculation: " ++ closing.name ++ " without a matching open")
  | .earlyCompaction => some "compaction while speculating or with unconsumed tokens"
  | .outOfRange => none
  | .overflow => none
  | .exhausted => none

end Packrat
