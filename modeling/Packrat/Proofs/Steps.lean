/-
  Packrat.Proofs.Steps

  What each primitive step of the engine does, as an equation.  Later proofs
  rewrite with these and leave the definitions closed.
-/

import Packrat.Proofs.Furthest
import Packrat.Recognition

namespace Packrat

namespace Run

variable {σ α β : Type} {m : Run σ α} {k : α → Run σ β} {e e' : Engine σ}

theorem bind_of_ok {a : α} (h : m e = .ok a e') : (m >>= k) e = k a e' := by
  show EStateM.bind m k e = _
  simp only [EStateM.bind, h]

theorem bind_of_error {fault : Fault} (h : m e = .error fault e') :
    (m >>= k) e = .error fault e' := by
  show EStateM.bind m k e = _
  simp only [EStateM.bind, h]

/-- Steps in a row answer iff each does. -/
theorem bind_eq_ok_iff {b : β} {e'' : Engine σ} :
    (m >>= k) e = .ok b e'' ↔ ∃ a e', m e = .ok a e' ∧ k a e' = .ok b e'' := by
  constructor
  · intro h
    cases hm : m e with
    | ok a e' => exact ⟨a, e', rfl, by rwa [bind_of_ok hm] at h⟩
    | error fault e' =>
        rw [bind_of_error hm] at h
        cases h
  · rintro ⟨a, e', hm, hk⟩
    rw [bind_of_ok hm, hk]

/-- What is returned after a step comes of an answer of the step. -/
theorem exists_eq_ok_of_return {f : α → β} {b : β}
    (h : (do return f (← m) : Run σ β) e = .ok b e') : ∃ a, m e = .ok a e' := by
  obtain ⟨a, e₁, hm, hreturn⟩ := bind_eq_ok_iff.1 h
  cases hreturn
  exact ⟨a, hm⟩

/-- Steps in a row fault iff one of them does. -/
theorem bind_eq_error_iff {fault : Fault} {e'' : Engine σ} :
    (m >>= k) e = .error fault e'' ↔
      m e = .error fault e'' ∨ ∃ a e', m e = .ok a e' ∧ k a e' = .error fault e'' := by
  constructor
  · intro h
    cases hm : m e with
    | ok a e' => exact .inr ⟨a, e', rfl, by rwa [bind_of_ok hm] at h⟩
    | error fault' e' =>
        rw [bind_of_error hm] at h
        cases h
        exact .inl rfl
  · rintro (hm | ⟨a, e', hm, hk⟩)
    · exact bind_of_error hm
    · rw [bind_of_ok hm, hk]

end Run

namespace Engine

variable {σ ν : Type} {s : σ} {e : Engine σ}

/-- The engine with a mark more, at the cursor. -/
def pushed (e : Engine σ) : Engine σ :=
  { e with speculation := e.speculation.push e.buffer.cursor }

theorem openMark_eq (e : Engine σ) : openMark e = .ok () e.pushed := rfl

/-- The innermost mark goes and the cursor stays. -/
def committed (e : Engine σ) (marks : List Nat) : Engine σ :=
  { e with speculation := { e.speculation with marks, commits := e.speculation.commits + 1 } }

/-- The innermost mark goes and the cursor goes back to it. -/
def abandoned (e : Engine σ) (mark : Nat) (marks : List Nat) : Engine σ :=
  { e with
    speculation := { e.speculation with marks, abandons := e.speculation.abandons + 1 }
    buffer := { e.buffer with cursor := mark } }

theorem commit_of_nil (h : e.speculation.marks = []) :
    commit e = .error (.unbalanced .commit) e := by
  simp only [commit, Speculation.commit, h]

/-- The outermost commit compacts if it can and there is something to drop. -/
theorem commit_of_cons {mark : Nat} {marks : List Nat} (h : e.speculation.marks = mark :: marks) :
    commit e = if (e.committed marks).canCompact && !e.buffer.isEmpty then
      compact (e.committed marks) else .ok () (e.committed marks) := by
  simp only [commit, Speculation.commit, h]
  rfl

/-- A commit below another mark only takes its mark away. -/
theorem commit_of_open {mark : Nat} {marks : List Nat}
    (h : e.speculation.marks = mark :: marks) (hopen : marks ≠ []) :
    commit e = .ok () (e.committed marks) := by
  have hcompact : (e.committed marks).canCompact = false := by
    simp [canCompact, committed, Speculation.isEmpty, hopen]
  rw [commit_of_cons h, hcompact, Bool.false_and]
  rfl

theorem seek_eq {target : Nat} (h : target ≤ e.buffer.size) :
    onBuffer (Lookahead.seek target) e
      = .ok () { e with buffer := { e.buffer with cursor := target } } := by
  simp only [onBuffer, Lookahead.seek, if_pos h]

theorem abandon_of_nil (h : e.speculation.marks = []) :
    abandon e = .error (.unbalanced .abandon) e := by
  simp only [abandon, Speculation.abandon, h]

/-- The engine with its innermost mark taken off by an abandon. -/
def unmarked (e : Engine σ) (marks : List Nat) : Engine σ :=
  { e with speculation := { e.speculation with marks, abandons := e.speculation.abandons + 1 } }

theorem abandon_of_cons {mark : Nat} {marks : List Nat}
    (h : e.speculation.marks = mark :: marks) :
    abandon e = onBuffer (Lookahead.seek mark) (e.unmarked marks) := by
  simp only [abandon, Speculation.abandon, h, unmarked]

theorem abandon_of_le {mark : Nat} {marks : List Nat} (h : e.speculation.marks = mark :: marks)
    (hmark : mark ≤ e.buffer.size) : abandon e = .ok () (e.abandoned mark marks) := by
  rw [abandon_of_cons h]
  exact seek_eq hmark

/-- The engine with the buffer and the memo emptied. -/
def compacted (e : Engine σ) : Engine σ :=
  { e with buffer := e.buffer.clear, memo := e.memo.clear, compactions := e.compactions + 1 }

theorem compact_eq_ok {e' : Engine σ} (h : compact e = .ok () e') :
    e.speculation.marks = [] ∧ e.buffer.cursor = e.buffer.size ∧ e' = e.compacted := by
  simp only [compact] at h
  split at h
  · next hcan =>
      cases h
      simp only [canCompact, Speculation.isEmpty, Lookahead.atEnd, Bool.and_eq_true,
        List.isEmpty_iff, beq_iff_eq] at hcan
      exact ⟨hcan.1, hcan.2, rfl⟩
  · cases h

/-- A commit takes the innermost mark away, and the outermost one may empty the buffer. -/
theorem commit_eq_ok {e' : Engine σ} (h : commit e = .ok () e') :
    ∃ mark marks, e.speculation.marks = mark :: marks ∧
      (e' = e.committed marks ∨ marks = [] ∧ e.buffer.cursor = e.buffer.size ∧
        e' = (e.committed []).compacted) := by
  cases hmarks : e.speculation.marks with
  | nil =>
      rw [commit_of_nil hmarks] at h
      cases h
  | cons mark marks =>
      refine ⟨mark, marks, rfl, ?_⟩
      rw [commit_of_cons hmarks] at h
      split at h
      · obtain ⟨hnil, hend, rfl⟩ := compact_eq_ok h
        obtain rfl : marks = [] := hnil
        exact .inr ⟨rfl, hend, rfl⟩
      · cases h
        exact .inl rfl

/-- A commit pulls nothing. -/
theorem pulled_of_commit {e' : Engine σ} (h : commit e = .ok () e') :
    e'.buffer.pulled = e.buffer.pulled := by
  obtain ⟨mark, marks, -, rfl | ⟨-, -, rfl⟩⟩ := commit_eq_ok h
  · rfl
  · rfl

/-- A commit leaves the next token where it is. -/
theorem position_of_commit {e' : Engine σ} (h : commit e = .ok () e') :
    e'.buffer.position = e.buffer.position := by
  obtain ⟨mark, marks, -, rfl | ⟨-, hend, rfl⟩⟩ := commit_eq_ok h
  · rfl
  · show e.buffer.base + e.buffer.size = e.buffer.base + e.buffer.cursor
    rw [hend]

theorem seek_eq_ok {target : Nat} {e' : Engine σ}
    (h : onBuffer (Lookahead.seek target) e = .ok () e') :
    target ≤ e.buffer.size ∧ e' = { e with buffer := { e.buffer with cursor := target } } := by
  by_cases hle : target ≤ e.buffer.size
  · rw [seek_eq hle] at h
    cases h
    exact ⟨hle, rfl⟩
  · simp only [onBuffer, Lookahead.seek, if_neg hle] at h
    cases h

theorem slice_eq {start stop : Nat} (hle : start ≤ stop) (hstop : stop ≤ e.buffer.size) :
    onBuffer (Lookahead.slice start stop) e
      = .ok (e.buffer.tokens.extract start stop).toList e := by
  simp only [onBuffer, Lookahead.slice, if_pos (And.intro hle hstop)]

/-- A slice only reads. -/
theorem slice_eq_ok {start stop : Nat} {tokens : List Token} {e' : Engine σ}
    (h : onBuffer (Lookahead.slice start stop) e = .ok tokens e') :
    start ≤ stop ∧ stop ≤ e.buffer.size ∧
      tokens = (e.buffer.tokens.extract start stop).toList ∧ e' = e := by
  by_cases hin : start ≤ stop ∧ stop ≤ e.buffer.size
  · simp only [onBuffer, Lookahead.slice, if_pos hin] at h
    cases h
    exact ⟨hin.1, hin.2, rfl, rfl⟩
  · simp only [onBuffer, Lookahead.slice, if_neg hin] at h
    cases h

theorem abandon_eq_ok {e' : Engine σ} (h : abandon e = .ok () e') :
    ∃ mark marks, e.speculation.marks = mark :: marks ∧ mark ≤ e.buffer.size ∧
      e' = e.abandoned mark marks := by
  cases hmarks : e.speculation.marks with
  | nil =>
      rw [abandon_of_nil hmarks] at h
      cases h
  | cons mark marks =>
      rw [abandon_of_cons hmarks] at h
      obtain ⟨hle, rfl⟩ := seek_eq_ok h
      exact ⟨mark, marks, rfl, hle, rfl⟩

variable [TokenSource σ]

theorem next_eq (h : e.buffer.IsWindow s) :
    next e = .ok (TokenSource.stream s e.buffer.position)
      { e with buffer := e.buffer.reach 1 } := by
  have hlook := h.fst_look 0
  rw [Nat.add_zero] at hlook
  rw [← hlook]
  rfl

theorem peek_eq (h : e.buffer.IsWindow s) {k : Nat} (hk : 0 < k)
    (hlimit : e.buffer.cursor + k ≤ Machine.bufferLimit) :
    peek k e = .ok (TokenSource.stream s (e.buffer.position + (k - 1)))
      { e with buffer := e.buffer.reach k } := by
  rw [← h.fst_look (k - 1)]
  simp [peek, onBuffer, Lookahead.peek_eq hk hlimit]

theorem peek_zero (e : Engine σ) : peek 0 e = .error .zeroDistance e := rfl

theorem peek_of_far {k : Nat} (hk : k ≠ 0)
    (hlimit : Machine.bufferLimit < e.buffer.cursor + k) :
    peek k e = .error .overflow e := by
  simp [peek, onBuffer, Lookahead.peek, hk, hlimit]

/-- A look ahead pulls the tokens up to the one that it looks at. -/
theorem peek_eq_ok {k : Nat} {token : Token} {e' : Engine σ} (h : peek k e = .ok token e') :
    e' = { e with buffer := e.buffer.reach k } := by
  by_cases hk : k = 0
  · rw [hk, peek_zero] at h
    cases h
  · by_cases hlimit : Machine.bufferLimit < e.buffer.cursor + k
    · rw [peek_of_far hk hlimit] at h
      cases h
    · have hpeek := Lookahead.peek_eq (Nat.pos_of_ne_zero hk) (Nat.le_of_not_lt hlimit)
      simp only [peek, onBuffer, hpeek] at h
      cases h
      rfl

theorem consume_eq (e : Engine σ) :
    consume e = .ok () { e with buffer := e.buffer.consume } := rfl

/-- The engine with a mismatch of the next token noted. -/
def expecting (e : Engine σ) (kind : Kind) (found : Token) : Engine σ :=
  { e with furthest := some (.furthest e.furthest ⟨e.buffer.position, found, .single kind⟩) }

omit [TokenSource σ] in
theorem expect_eq (kind : Kind) (found : Token) (e : Engine σ) :
    expect kind found e = .ok () (e.expecting kind found) := rfl

/-- A hit of the depth limit is noted once, with the next token. -/
theorem noteDepthHit_of_none (h : e.buffer.IsWindow s) (hhit : e.depthHit = none) :
    noteDepthHit e = .ok () { e with
      buffer := e.buffer.reach 1
      depthHit := some ⟨e.buffer.position, (TokenSource.stream s e.buffer.position).span⟩ } := by
  have hposition : (e.buffer.reach 1).position = e.buffer.position := by
    simp [Lookahead.position, Lookahead.reach]
  have hget : (get : Run σ (Engine σ)) e = .ok e e := rfl
  simp only [noteDepthHit, Run.bind_of_ok hget, hhit, Option.isNone_none, if_true,
    Run.bind_of_ok (next_eq h)]
  rw [← hposition]
  rfl

theorem noteDepthHit_of_some {hit : DepthHit} (hhit : e.depthHit = some hit) :
    noteDepthHit e = .ok () e := by
  have hget : (get : Run σ (Engine σ)) e = .ok e e := rfl
  simp only [noteDepthHit, Run.bind_of_ok hget, hhit, Option.isNone_some]
  rfl

theorem noteDepthHit_eq_ok (h : e.buffer.IsWindow s) {e' : Engine σ}
    (hrun : noteDepthHit e = .ok () e') :
    e.depthHit ≠ none ∧ e' = e ∨ e.depthHit = none ∧ e' = { e with
      buffer := e.buffer.reach 1
      depthHit := some ⟨e.buffer.position, (TokenSource.stream s e.buffer.position).span⟩ } := by
  cases hhit : e.depthHit with
  | some hit =>
      rw [noteDepthHit_of_some hhit] at hrun
      cases hrun
      exact .inl ⟨Option.some_ne_none hit, rfl⟩
  | none =>
      rw [noteDepthHit_of_none h hhit] at hrun
      cases hrun
      exact .inr ⟨rfl, rfl⟩

/-- A token of the kind is taken. -/
theorem takeKind_of_eq (h : e.buffer.IsWindow s) {kind : Kind}
    (hkind : (TokenSource.stream s e.buffer.position).kind = kind) :
    takeKind kind e = .ok true { e with buffer := (e.buffer.reach 1).consume } := by
  simp only [takeKind, Run.bind_of_ok (next_eq h), if_pos hkind]
  rfl

/-- A token of another kind is noted and stays. -/
theorem takeKind_of_ne (h : e.buffer.IsWindow s) {kind : Kind}
    (hkind : (TokenSource.stream s e.buffer.position).kind ≠ kind) :
    takeKind kind e = .ok false (expecting { e with buffer := e.buffer.reach 1 } kind
      (TokenSource.stream s e.buffer.position)) := by
  simp only [takeKind, Run.bind_of_ok (next_eq h), if_neg hkind]
  rfl

theorem atDelimiter_of_eq (h : e.buffer.IsWindow s) {kind : Kind}
    (hkind : (TokenSource.stream s e.buffer.position).kind = kind) :
    atDelimiter kind e = .ok true { e with buffer := e.buffer.reach 1 } := by
  simp only [atDelimiter, Run.bind_of_ok (next_eq h), if_pos hkind]
  rfl

theorem atDelimiter_of_ne (h : e.buffer.IsWindow s) {kind : Kind}
    (hkind : (TokenSource.stream s e.buffer.position).kind ≠ kind) :
    atDelimiter kind e = .ok false (expecting { e with buffer := e.buffer.reach 1 } kind
      (TokenSource.stream s e.buffer.position)) := by
  simp only [atDelimiter, Run.bind_of_ok (next_eq h), if_neg hkind]
  rfl

/-- Looking for a delimiter pulls the next token, and notes it if it is another one. -/
theorem atDelimiter_eq_ok (h : e.buffer.IsWindow s) {kind : Kind} {matched : Bool}
    {e' : Engine σ} (hrun : atDelimiter kind e = .ok matched e') :
    e' = { e with buffer := e.buffer.reach 1 } ∨
      e' = expecting { e with buffer := e.buffer.reach 1 } kind
        (TokenSource.stream s e.buffer.position) := by
  by_cases hkind : (TokenSource.stream s e.buffer.position).kind = kind
  · rw [atDelimiter_of_eq h hkind] at hrun
    cases hrun
    exact .inl rfl
  · rw [atDelimiter_of_ne h hkind] at hrun
    cases hrun
    exact .inr rfl

theorem nested_of_le {body : Run σ Bool} (h : e.settings.maxDepth ≤ e.depth) :
    nested body e = (do noteDepthHit; return false : Run σ Bool) e := by
  have hget : (get : Run σ (Engine σ)) e = .ok e e := rfl
  simp only [nested, Run.bind_of_ok hget, if_pos h]

theorem nested_of_lt {body : Run σ Bool} (h : e.depth < e.settings.maxDepth) :
    nested body e = (do
      let matched ← body
      modify fun e => { e with depth := e.depth - 1 }
      return matched : Run σ Bool) { e with depth := e.depth + 1 } := by
  have hget : (get : Run σ (Engine σ)) e = .ok e e := rfl
  simp only [nested, Run.bind_of_ok hget, if_neg (Nat.not_le.2 h)]
  rfl

/-- A nested rule notes the depth limit there, and elsewhere runs its body a level deeper. -/
theorem nested_eq_ok {body : Run σ Bool} {matched : Bool} {e' : Engine σ}
    (h : nested body e = .ok matched e') :
    (e.settings.maxDepth ≤ e.depth ∧ noteDepthHit e = .ok () e') ∨
      (e.depth < e.settings.maxDepth ∧ ∃ e₁,
        body { e with depth := e.depth + 1 } = .ok matched e₁ ∧
          e' = { e₁ with depth := e₁.depth - 1 }) := by
  by_cases hdeep : e.settings.maxDepth ≤ e.depth
  · rw [nested_of_le hdeep] at h
    obtain ⟨⟨⟩, e₁, hnote, hreturn⟩ := Run.bind_eq_ok_iff.1 h
    cases hreturn
    exact .inl ⟨hdeep, hnote⟩
  · have hlevel := Nat.lt_of_not_le hdeep
    rw [nested_of_lt hlevel] at h
    obtain ⟨matched', e₁, hbody, hrest⟩ := Run.bind_eq_ok_iff.1 h
    cases hrest
    exact .inr ⟨hlevel, e₁, hbody, rfl⟩

-- ============================================================================
-- Speculations
-- ============================================================================

section

omit [TokenSource σ]

theorem speculate_eq (body : Run σ Bool) (e : Engine σ) :
    speculate body e = (do
      let matched ← body
      close matched
      return matched : Run σ Bool) e.pushed := rfl

/-- A speculation runs its body under a mark of its own and closes that. -/
theorem speculate_eq_ok {body : Run σ Bool} {matched : Bool} {e' : Engine σ}
    (h : speculate body e = .ok matched e') :
    ∃ e₁, body e.pushed = .ok matched e₁ ∧ close matched e₁ = .ok () e' := by
  rw [speculate_eq] at h
  obtain ⟨matched', e₁, hbody, hrest⟩ := Run.bind_eq_ok_iff.1 h
  obtain ⟨⟨⟩, e₂, hclose, hreturn⟩ := Run.bind_eq_ok_iff.1 hrest
  cases hreturn
  exact ⟨e₁, hbody, hclose⟩

end

-- ============================================================================
-- Rules through their memo
-- ============================================================================

/-- The engine with one run more counted for a rule. -/
def counted (e : Engine σ) (id : RuleId) : Engine σ :=
  { e with runs := e.runs.insert id.name (e.runsOf id + 1) }

omit [TokenSource σ]

theorem usesMemo_eq (e : Engine σ) :
    usesMemo e = .ok (e.settings.memoize && e.isSpeculating) e := rfl

/-- Without the memo a body is only counted and run as a speculation. -/
theorem memoized_of_plain {id : RuleId} {body : Run σ Bool}
    (h : (e.settings.memoize && e.isSpeculating) = false) :
    memoized id body e = speculate body (e.counted id) := by
  simp only [memoized, Run.bind_of_ok (usesMemo_eq e), h]
  rfl

/-- An outcome that was kept is replayed, and the lookup counts. -/
theorem memoized_of_kept {id : RuleId} {body : Run σ Bool} {outcome : Outcome}
    (h : (e.settings.memoize && e.isSpeculating) = true)
    (hkept : e.memo.get? id e.buffer.cursor = some outcome) :
    memoized id body e
      = replayOutcome outcome { e with memo := (e.memo.lookup id e.buffer.cursor).2 } := by
  have hlookup : outcomeHere id e
      = .ok (some outcome) { e with memo := (e.memo.lookup id e.buffer.cursor).2 } := by
    rw [← hkept, ← Memo.fst_lookup]
    rfl
  have hcursor : cursor e = .ok e.buffer.cursor e := rfl
  simp only [memoized, Run.bind_of_ok (usesMemo_eq e), h, if_true, Run.bind_of_ok hcursor,
    Run.bind_of_ok hlookup]

/-- The engine in which the body of a rule runs whose outcome is going to be kept. -/
def fresh (e : Engine σ) (id : RuleId) : Engine σ :=
  { e.counted id with memo := (e.memo.lookup id e.buffer.cursor).2, furthest := none }

/-- Without a kept outcome the body runs, and what becomes of it is kept. -/
theorem memoized_of_new {id : RuleId} {body : Run σ Bool}
    (h : (e.settings.memoize && e.isSpeculating) = true)
    (hnew : e.memo.get? id e.buffer.cursor = none) :
    memoized id body e = (do
      let matched ← speculate body
      keepOutcome id e.buffer.cursor e.furthest matched
      return matched : Run σ Bool) (e.fresh id) := by
  have hlookup : outcomeHere id e
      = .ok none { e with memo := (e.memo.lookup id e.buffer.cursor).2 } := by
    rw [← hnew, ← Memo.fst_lookup]
    rfl
  have hcursor : cursor e = .ok e.buffer.cursor e := rfl
  simp only [memoized, Run.bind_of_ok (usesMemo_eq e), h, if_true, Run.bind_of_ok hcursor,
    Run.bind_of_ok hlookup]
  rfl

/-- A rule through its memo is one of three things: a speculation, the replay of an outcome, or
    a speculation whose outcome is kept. -/
theorem memoized_cases (id : RuleId) (body : Run σ Bool) (e : Engine σ) :
    memoized id body e = speculate body (e.counted id) ∨
    (∃ outcome, e.memo.get? id e.buffer.cursor = some outcome ∧
      memoized id body e
        = replayOutcome outcome { e with memo := (e.memo.lookup id e.buffer.cursor).2 }) ∨
    (e.speculation.marks ≠ [] ∧ e.memo.get? id e.buffer.cursor = none ∧
      memoized id body e = (do
        let matched ← speculate body
        keepOutcome id e.buffer.cursor e.furthest matched
        return matched : Run σ Bool) (e.fresh id)) := by
  cases huses : e.settings.memoize && e.isSpeculating with
  | false => exact .inl (memoized_of_plain huses)
  | true =>
      have hopen : e.speculation.marks ≠ [] := by
        intro hnil
        simp [isSpeculating, Speculation.isEmpty, hnil] at huses
      cases hget : e.memo.get? id e.buffer.cursor with
      | some outcome => exact .inr (.inl ⟨outcome, rfl, memoized_of_kept huses hget⟩)
      | none => exact .inr (.inr ⟨hopen, rfl, memoized_of_new huses hget⟩)

theorem memoized_eq_ok {id : RuleId} {body : Run σ Bool} {matched : Bool} {e' : Engine σ}
    (h : memoized id body e = .ok matched e') :
    speculate body (e.counted id) = .ok matched e' ∨
    (∃ outcome, e.memo.get? id e.buffer.cursor = some outcome ∧
      replayOutcome outcome { e with memo := (e.memo.lookup id e.buffer.cursor).2 }
        = .ok matched e') ∨
    (e.speculation.marks ≠ [] ∧ e.memo.get? id e.buffer.cursor = none ∧
      ∃ e₁, speculate body (e.fresh id) = .ok matched e₁ ∧
        keepOutcome id e.buffer.cursor e.furthest matched e₁ = .ok () e') := by
  rcases memoized_cases id body e with heq | ⟨outcome, hget, heq⟩ | ⟨hopen, hget, heq⟩
  · exact .inl (heq ▸ h)
  · exact .inr (.inl ⟨outcome, hget, heq ▸ h⟩)
  · rw [heq] at h
    obtain ⟨matched', e₁, hspeculate, hrest⟩ := Run.bind_eq_ok_iff.1 h
    obtain ⟨⟨⟩, e₂, hkeep, hreturn⟩ := Run.bind_eq_ok_iff.1 hrest
    cases hreturn
    exact .inr (.inr ⟨hopen, hget, e₁, hspeculate, hkeep⟩)

/-- What becomes of a rule is kept unless the depth limit was hit, and the mismatches before
    it are brought back. -/
theorem keepOutcome_eq (id : RuleId) (start : Nat) (outer : Option Mismatch) (matched : Bool)
    (e : Engine σ) :
    keepOutcome id start outer matched e = .ok () { e with
      furthest := Mismatch.join e.furthest outer
      memo := if e.depthHit.isNone then
          e.memo.record id start (if matched then
            .parsed e.buffer.cursor (e.furthest.map Mismatch.point)
          else .failed (e.furthest.map Mismatch.point))
        else e.memo } := by
  cases outer <;> rfl

theorem replay_some (p : FailurePoint) (e : Engine σ) :
    replay (some p) e = .ok () { e with
      furthest := Option.or ((guard (e.buffer.base ≤ p.position) : Option Unit).bind fun _ =>
        (e.buffer.get? (p.position - e.buffer.base)).bind fun found =>
          some (Mismatch.furthest e.furthest ⟨p.position, found, p.expected⟩)) e.furthest } := rfl

/-- A kept mismatch is noted again as it was. -/
theorem replay_eq [TokenSource σ] (h : e.buffer.IsWindow s) {a : Option Mismatch}
    (ha : Mismatch.OnStream (TokenSource.stream s) a)
    (hbuffered : ∀ m, a = some m → e.buffer.base ≤ m.position ∧ m.position < e.buffer.pulled) :
    replay (a.map Mismatch.point) e = .ok () { e with furthest := Mismatch.join e.furthest a } := by
  cases a with
  | none => rfl
  | some m =>
      obtain ⟨hbase, hpulled⟩ := hbuffered m rfl
      have hsize := h.pulled_eq
      have hget : e.buffer.get? (m.point.position - e.buffer.base) = _ :=
        h.get?_eq (m.position - e.buffer.base) (by omega)
      have hguard : (guard (e.buffer.base ≤ m.point.position) : Option Unit) = some () :=
        if_pos hbase
      rw [Nat.add_sub_cancel' hbase, ← ha m rfl] at hget
      rw [Option.map_some, replay_some, hguard, hget]
      rfl

-- ============================================================================
-- Recognitions
-- ============================================================================

/-- The engine without the mismatches and the depth hit of an earlier recognition. -/
def begun (e : Engine σ) : Engine σ := { e with furthest := none, depthHit := none }

variable [TokenSource σ]

/-- A hit of the depth limit is reported before anything else. -/
theorem failure_of_hit {hit : DepthHit} (hhit : e.depthHit = some hit) :
    failure e = .ok (.nestingLimit e.settings.maxDepth hit.position hit.span) e := by
  have hget : (get : Run σ (Engine σ)) e = .ok e e := rfl
  simp only [failure, Run.bind_of_ok hget, hhit]
  rfl

/-- Without a hit of the depth limit the furthest mismatch is reported. -/
theorem failure_of_mismatch {m : Mismatch} (hhit : e.depthHit = none)
    (hfurthest : e.furthest = some m) :
    failure e = .ok (.syntaxError (.ofToken m.position m.found m.expected)) e := by
  have hget : (get : Run σ (Engine σ)) e = .ok e e := rfl
  simp only [failure, Run.bind_of_ok hget, hhit, hfurthest]
  rfl

/-- Without either the next token is reported, and nothing is expected. -/
theorem failure_of_none (h : e.buffer.IsWindow s) (hhit : e.depthHit = none)
    (hfurthest : e.furthest = none) :
    failure e = .ok (.syntaxError (.ofToken e.buffer.position
        (TokenSource.stream s e.buffer.position) .empty))
      { e with buffer := e.buffer.reach 1 } := by
  have hget : (get : Run σ (Engine σ)) e = .ok e e := rfl
  simp only [failure, Run.bind_of_ok hget, hhit, hfurthest, Run.bind_of_ok (next_eq h)]
  rfl

theorem recognizing_eq (body : Run σ Bool) (e : Engine σ) :
    recognizing body e = (do
      if ← body then
        let stop ← cursor
        let tokens ← onBuffer (Lookahead.slice e.buffer.cursor stop)
        commit
        return .ok ⟨e.buffer.position, tokens⟩
      else
        abandon
        return .error (← failure) : Run σ (Except ParseError Match)) e.begun.pushed := rfl

/-- A recognition whose body matches copies out what the body took and commits; any other one is
    abandoned and reports why. -/
theorem recognizing_eq_ok {body : Run σ Bool} {result : Except ParseError Match} {e' : Engine σ}
    (h : recognizing body e = .ok result e') :
    ∃ e₁,
      (body e.begun.pushed = .ok true e₁ ∧ commit e₁ = .ok () e' ∧
        e.buffer.cursor ≤ e₁.buffer.cursor ∧ e₁.buffer.cursor ≤ e₁.buffer.size ∧
        result = .ok ⟨e.buffer.position,
          (e₁.buffer.tokens.extract e.buffer.cursor e₁.buffer.cursor).toList⟩) ∨
      (body e.begun.pushed = .ok false e₁ ∧
        ∃ e₂ err, abandon e₁ = .ok () e₂ ∧ failure e₂ = .ok err e' ∧ result = .error err) := by
  rw [recognizing_eq] at h
  obtain ⟨matched, e₁, hbody, hrest⟩ := Run.bind_eq_ok_iff.1 h
  refine ⟨e₁, ?_⟩
  cases matched with
  | true =>
      obtain ⟨stop, _, ⟨⟩, hrest⟩ := Run.bind_eq_ok_iff.1 hrest
      obtain ⟨tokens, e₂, hslice, hrest⟩ := Run.bind_eq_ok_iff.1 hrest
      obtain ⟨⟨⟩, e₃, hcommit, hreturn⟩ := Run.bind_eq_ok_iff.1 hrest
      cases hreturn
      obtain ⟨hle, hstop, rfl, rfl⟩ := slice_eq_ok hslice
      exact .inl ⟨hbody, hcommit, hle, hstop, rfl⟩
  | false =>
      obtain ⟨⟨⟩, e₂, habandon, hrest⟩ := Run.bind_eq_ok_iff.1 hrest
      obtain ⟨err, e₃, hfailure, hreturn⟩ := Run.bind_eq_ok_iff.1 hrest
      cases hreturn
      exact .inr ⟨hbody, e₂, err, habandon, hfailure, rfl⟩

end Engine
end Packrat
