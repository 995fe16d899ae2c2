/-
  Packrat.Engine

  The state of a recognition and its primitive steps.

  - Every attempt runs between an `openMark` and exactly one `abandon`
    (rewind) or `commit` (stay).
  - A commit with nothing left open and every buffered token consumed empties
    the buffer and the memo in one step (`compact`).
  - While something is open, `memoized` keeps the outcome of a rule by
    position and replays it instead of running the rule again; the furthest
    mismatch of the rule is kept with the outcome, so that a replay reports
    what a second run would.

  Steps that are built from a body take the body as an argument; which rule
  runs as a body is the business of `Packrat.Engine.Eval`.
-/

import Packrat.Lookahead
import Packrat.Mismatch
import Packrat.Settings
import Packrat.Speculation

namespace Packrat

/-- Where a recognition first went past the depth limit. -/
structure DepthHit where
  /-- The input-wide number of the next token. -/
  position : Nat
  /-- The place of that token. -/
  span : Span
deriving DecidableEq, Repr

/-- The state of the engine over a token source. -/
structure Engine (σ : Type) where
  buffer : Lookahead σ
  speculation : Speculation
  memo : Memo
  settings : Settings
  /-- The furthest mismatch of this recognition. -/
  furthest : Option Mismatch
  /-- How often the body of each memoized rule ran, by the name of the rule. -/
  runs : Std.TreeMap String Nat
  /-- How often the buffer was emptied. -/
  compactions : Nat
  /-- How many nested bodies are running. -/
  depth : Nat
  /-- Where this recognition first went past the depth limit. -/
  depthHit : Option DepthHit

/-- A step of the engine; a fault leaves the engine as it was when it happened. -/
abbrev Run (σ α : Type) : Type := EStateM Fault (Engine σ) α

namespace Engine

variable {σ : Type}

/-- An engine at the start of `source`. -/
def ofSource (settings : Settings) (source : σ) : Engine σ :=
  ⟨.ofSource source, .empty, .empty, settings, none, ∅, 0, 0, none⟩

/-- Whether something is open. -/
def isSpeculating (e : Engine σ) : Bool := !e.speculation.isEmpty

/-- Whether nothing is open and every buffered token was consumed. -/
def canCompact (e : Engine σ) : Bool := e.speculation.isEmpty && e.buffer.atEnd

/-- How often the body of a rule ran. -/
def runsOf (e : Engine σ) (rule : RuleId) : Nat := e.runs[rule.name]?.getD 0

-- ============================================================================
-- The cursor and the marks
-- ============================================================================

/-- A step of the buffer as a step of the engine. -/
@[inline] def onBuffer {α : Type} (step : Lookahead.Step σ α) : Run σ α :=
  fun e =>
    match step e.buffer with
    | .ok a buffer => .ok a { e with buffer }
    | .error fault buffer => .error fault { e with buffer }

-- The next three stay out of line: what they read is then settled before a body runs, and the
-- engine before the body is not held on to while the body changes it.

/-- The position of the cursor. -/
@[noinline] def cursor : Run σ Nat := fun e => .ok e.buffer.cursor e

/-- The input-wide number of the next token. -/
@[noinline] def position : Run σ Nat := fun e => .ok e.buffer.position e

/-- Whether outcomes are kept and replayed here. -/
@[noinline] def usesMemo : Run σ Bool := fun e =>
  .ok (e.settings.memoize && e.isSpeculating) e

/-- Opens a speculation at the cursor. -/
def openMark : Run σ Unit :=
  modify fun e => { e with speculation := e.speculation.push e.buffer.cursor }

/-- Closes the innermost speculation and rewinds to its mark. -/
def abandon : Run σ Unit := fun e =>
  match e.speculation.abandon with
  | .ok (mark, speculation) => onBuffer (Lookahead.seek mark) { e with speculation }
  | .error fault => .error fault e

/-- Empties the buffer and the memo. -/
def compact : Run σ Unit := fun e =>
  if e.canCompact then
    .ok () { e with
      buffer := e.buffer.clear
      memo := e.memo.clear
      compactions := e.compactions + 1 }
  else .error .earlyCompaction e

/-- Closes the innermost speculation and keeps the cursor; the outermost commit compacts if
    every buffered token was consumed. -/
def commit : Run σ Unit := fun e =>
  match e.speculation.commit with
  | .ok (_, speculation) =>
    let e := { e with speculation }
    if e.canCompact && !e.buffer.isEmpty then compact e else .ok () e
  | .error fault => .error fault e

variable [TokenSource σ]

/-- The token `k` places ahead. -/
def peek (k : Nat) : Run σ Token := onBuffer (Lookahead.peek k)

/-- The next token. -/
def next : Run σ Token := onBuffer Lookahead.next

/-- Steps past the next token. -/
def consume : Run σ Unit := onBuffer fun b => .ok () b.consume

-- ============================================================================
-- Mismatches and the depth limit
-- ============================================================================

/-- Notes that `kind` was expected in place of `found`, the next token. -/
def expect (kind : Kind) (found : Token) : Run σ Unit :=
  modify fun e =>
    { e with furthest := some (.furthest e.furthest ⟨e.buffer.position, found, .single kind⟩) }

/-- Notes the mismatch that came with a replayed outcome, if its token is still buffered. -/
def replay (point : Option FailurePoint) : Run σ Unit :=
  modify fun e =>
    let noted := do
      let p ← point
      guard (e.buffer.base ≤ p.position)
      let found ← e.buffer.get? (p.position - e.buffer.base)
      some (Mismatch.furthest e.furthest ⟨p.position, found, p.expected⟩)
    { e with furthest := noted.or e.furthest }

/-- Notes where the depth limit was hit, if it was not hit before. -/
def noteDepthHit : Run σ Unit := do
  if (← get).depthHit.isNone then
    let token ← next
    modify fun e => { e with depthHit := some ⟨e.buffer.position, token.span⟩ }

-- ============================================================================
-- Steps with a body
-- ============================================================================

/-- Closes the innermost speculation: kept if it matched, rewound if not. -/
def close (matched : Bool) : Run σ Unit := if matched then commit else abandon

/-- Runs the body as one speculation. -/
@[inline] def speculate (body : Run σ Bool) : Run σ Bool := do
  openMark
  let matched ← body
  close matched
  return matched

/-- Takes the next token if it has the kind; if not, the kind is noted as expected. -/
def takeKind (kind : Kind) : Run σ Bool := do
  let token ← next
  if token.kind = kind then
    consume
    return true
  else
    expect kind token
    return false

/-- Matches the next token if it has the kind. -/
def matchKind (kind : Kind) : Run σ Bool := speculate (takeKind kind)

/-- The kept outcome of a rule at the cursor; the lookup is counted. -/
def outcomeHere (id : RuleId) : Run σ (Option Outcome) :=
  modifyGet fun e =>
    let (outcome, memo) := e.memo.lookup id e.buffer.cursor
    (outcome, { e with memo })

/-- Makes a kept outcome happen again. -/
def replayOutcome : Outcome → Run σ Bool
  | .parsed stop furthest => do
    replay furthest
    onBuffer (Lookahead.seek stop)
    return true
  | .failed furthest => do
    replay furthest
    return false

/-- Counts a run of the body of a rule. -/
def countRun (id : RuleId) : Run σ Unit :=
  modify fun e => { e with runs := e.runs.insert id.name (e.runsOf id + 1) }

/-- Forgets the furthest mismatch and returns it. -/
def takeFurthest : Run σ (Option Mismatch) :=
  modifyGet fun e => (e.furthest, { e with furthest := none })

/-- Keeps the outcome of a rule that ran from `start` to the cursor, unless the depth limit
    cut it short, and brings back the mismatch that was furthest before it ran. -/
def keepOutcome (id : RuleId) (start : Nat) (outer : Option Mismatch) (matched : Bool) :
    Run σ Unit :=
  modify fun e =>
    let point := e.furthest.map Mismatch.point
    let outcome :=
      if matched then Outcome.parsed e.buffer.cursor point else Outcome.failed point
    let furthest :=
      match outer with
      | some m => some (Mismatch.furthest e.furthest m)
      | none => e.furthest
    let memo := if e.depthHit.isNone then e.memo.record id start outcome else e.memo
    { e with furthest, memo }

/-- Runs the body of a rule through the memo. -/
@[inline] def memoized (id : RuleId) (body : Run σ Bool) : Run σ Bool := do
  if ← usesMemo then
    let start ← cursor
    match ← outcomeHere id with
    | some outcome => replayOutcome outcome
    | none =>
      countRun id
      let outer ← takeFurthest
      let matched ← speculate body
      keepOutcome id start outer matched
      return matched
  else
    countRun id
    speculate body

/-- Runs the body one level deeper, or fails at the depth limit. -/
@[inline] def nested (body : Run σ Bool) : Run σ Bool := do
  let e ← get
  if e.settings.maxDepth ≤ e.depth then
    noteDepthHit
    return false
  else
    modify fun e => { e with depth := e.depth + 1 }
    let matched ← body
    modify fun e => { e with depth := e.depth - 1 }
    return matched

end Engine
end Packrat
