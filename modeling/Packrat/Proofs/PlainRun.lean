/-
  Packrat.Proofs.PlainRun

  An engine that keeps no outcomes reads rules plainly: while something is
  open, `Engine.eval` answers what `Ground.read` answers, ends in the same
  fault, and changes its state as the reading says (`Engine.Moved`).

  Proven by induction on the fuel with one case for each constructor; the
  steps between are put together by `Follows.bind` and `Follows.speculate`.
-/

import Packrat.Proofs.Furthest
import Packrat.Proofs.PlainRules
import Packrat.Proofs.Reading
import Packrat.Proofs.Steps

namespace Packrat

/-- Where a recognition on a stream first went past the depth limit. -/
def DepthHit.first (t : Nat → Token) (hits : List Nat) : Option DepthHit :=
  hits.head?.map fun i => ⟨i, (t i).span⟩

/-- How many tokens are pulled in the course of a reading, where `before` tells of an earlier
    hit of the depth limit; the token at the first hit is looked at, those at later ones are
    not. -/
def Reading.extent {α : Type} (r : Reading α) (before : Option DepthHit) : Nat :=
  match before, r.hits with
  | none, i :: _ => max r.seen (i + 1)
  | _, _ => r.seen

theorem Reading.extent_of_nil {α : Type} {r : Reading α} (h : r.hits = [])
    (before : Option DepthHit) : r.extent before = r.seen := by
  cases before <;> simp [extent, h]

theorem DepthHit.first_append (t : Nat → Token) (xs ys : List Nat) :
    first t (xs ++ ys) = (first t xs).or (first t ys) := by
  cases xs <;> simp [first]

theorem Reading.extent_append {α β : Type} (t : Nat → Token) (r : Reading α) (r' : Reading β)
    (before : Option DepthHit) :
    (r.append r').extent before
      = max (r.extent before) (r'.extent (before.or (DepthHit.first t r.hits))) := by
  cases before with
  | some hit => cases hr : r.hits <;> simp [extent, append, hr]
  | none =>
      cases hr : r.hits with
      | nil => cases hr' : r'.hits <;> simp [extent, append, hr, hr', DepthHit.first, Nat.max_assoc]
      | cons i hits =>
          simp only [extent, append, hr, DepthHit.first, List.cons_append, List.head?_cons,
            Option.map_some, Option.none_or]
          omega

namespace Engine

variable {σ ν α β : Type} [TokenSource σ]

/-- How a reading changes the state of an engine on the stream of `s`. -/
structure Moved (s : σ) (e : Engine σ) (r : Reading α) (e' : Engine σ) : Prop where
  settings : e'.settings = e.settings
  marks : e'.speculation.marks = e.speculation.marks
  depth : e'.depth = e.depth
  window : e'.buffer.IsWindow s
  base : e'.buffer.base = e.buffer.base
  position : e'.buffer.position = r.stop
  pulled : e'.buffer.pulled = max e.buffer.pulled (r.extent e.depthHit)
  furthest : e'.furthest
    = Mismatch.join e.furthest (Mismatch.noted (TokenSource.stream s) r.misses)
  depthHit : e'.depthHit = e.depthHit.or (DepthHit.first (TokenSource.stream s) r.hits)

/-- The outcome of a step of the engine is that of a reading; of a step that ends in a fault it
    is only told whether the depth limit was hit. -/
def Follows (s : σ) (e : Engine σ) (r : Reading α) : EStateM.Result Fault (Engine σ) α → Prop
  | .ok a e' => r.result = .ok a ∧ Moved s e r e'
  | .error fault e' => r.result = .error fault ∧
      e'.depthHit = e.depthHit.or (DepthHit.first (TokenSource.stream s) r.hits)

/-- The engine keeps no outcomes, has something open, and stands on the ground. -/
structure PlainOn (G : Ground ν) (s : σ) (e : Engine σ) : Prop where
  tokens : G.tokens = TokenSource.stream s
  maxDepth : G.maxDepth = e.settings.maxDepth
  horizon : G.horizon = e.buffer.base + Machine.bufferLimit
  memoize : e.settings.memoize = false
  open_ : e.speculation.marks ≠ []
  window : e.buffer.IsWindow s

section

variable {s : σ} {e e' e'' : Engine σ} {G : Ground ν}

theorem PlainOn.moved {r : Reading α} (h : PlainOn G s e) (hm : Moved s e r e') :
    PlainOn G s e' where
  tokens := h.tokens
  maxDepth := by rw [hm.settings, h.maxDepth]
  horizon := by rw [hm.base, h.horizon]
  memoize := by rw [hm.settings, h.memoize]
  open_ := by rw [hm.marks]; exact h.open_
  window := hm.window

theorem Moved.append {r : Reading α} {r' : Reading β} (h : Moved s e r e')
    (h' : Moved s e' r' e'') : Moved s e (r.append r') e'' where
  settings := h'.settings.trans h.settings
  marks := h'.marks.trans h.marks
  depth := h'.depth.trans h.depth
  window := h'.window
  base := h'.base.trans h.base
  position := h'.position
  pulled := by
    rw [h'.pulled, h.pulled, h.depthHit, Reading.extent_append (TokenSource.stream s),
      Nat.max_assoc]
  furthest := by
    rw [h'.furthest, h.furthest, Mismatch.join_assoc, ← Mismatch.noted_append]
    rfl
  depthHit := by
    rw [h'.depthHit, h.depthHit, Option.or_assoc, ← DepthHit.first_append]
    rfl

/-- A step that leaves the engine as it was. -/
theorem Moved.still {a : α} (h : e.buffer.IsWindow s) :
    Moved s e ⟨.ok a, e.buffer.position, 0, [], []⟩ e where
  settings := rfl
  marks := rfl
  depth := rfl
  window := h
  base := rfl
  position := rfl
  pulled := by cases h : e.depthHit <;> simp [Reading.extent]
  furthest := rfl
  depthHit := by simp [DepthHit.first]

theorem Follows.pure (h : e.buffer.IsWindow s) (a : α) :
    Follows s e ((Pure.pure a : Pass α) e.buffer.position) ((Pure.pure a : Run σ α) e) :=
  ⟨rfl, .still h⟩

/-- Steps in a row follow readings in a row. -/
theorem Follows.bind {r : Reading α} {m : Run σ α} {f : α → Pass β} {k : α → Run σ β}
    (h : Follows s e r (m e))
    (hk : ∀ a e', r.result = .ok a → Moved s e r e' →
      Follows s e' (f a e'.buffer.position) (k a e')) :
    Follows s e (r.andThen f) ((m >>= k) e) := by
  cases hm : m e with
  | ok a e' =>
      rw [hm] at h
      obtain ⟨hr, hmoved⟩ := h
      have hrest := hk a e' hr hmoved
      rw [hmoved.position] at hrest
      rw [Reading.andThen_of_ok hr, Run.bind_of_ok hm]
      cases hfk : k a e' with
      | ok b e'' =>
          rw [hfk] at hrest
          exact ⟨hrest.1, hmoved.append hrest.2⟩
      | error fault e'' =>
          rw [hfk] at hrest
          refine ⟨hrest.1, ?_⟩
          rw [hrest.2, hmoved.depthHit, Option.or_assoc, ← DepthHit.first_append]
          rfl
  | error fault e' =>
      rw [hm] at h
      rw [Reading.andThen_of_error h.1, Run.bind_of_error hm]
      exact ⟨rfl, h.2⟩

-- ============================================================================
-- Primitive steps
-- ============================================================================

/-- A look at a token that `k` places ahead of the next one moves nothing but what is pulled. -/
theorem Moved.look (h : e.buffer.IsWindow s) (k : Nat) {a : α} :
    Moved s e ⟨.ok a, e.buffer.position, e.buffer.position + k + 1, [], []⟩
      { e with buffer := e.buffer.reach (k + 1) } where
  settings := rfl
  marks := rfl
  depth := rfl
  window := h.reach (k + 1)
  base := Lookahead.base_pullMany _ _
  position := by simp [Lookahead.position, Lookahead.reach]
  pulled := by
    rw [h.pulled_reach]
    cases h : e.depthHit <;> simp [Reading.extent, Nat.add_assoc]
  furthest := rfl
  depthHit := by simp [DepthHit.first]

theorem follows_next (h : PlainOn G s e) : Follows s e (G.look 0 e.buffer.position) (next e) := by
  rw [next_eq h.window]
  exact ⟨by rw [← h.tokens]; rfl, .look h.window 0⟩

theorem follows_consume (h : PlainOn G s e) (hpulled : e.buffer.position < e.buffer.pulled) :
    Follows s e (Pass.advance e.buffer.position) (consume e) := by
  have hsize : e.buffer.cursor < e.buffer.size := by
    have := h.window.pulled_eq
    simp only [Lookahead.position] at hpulled
    omega
  have hreach : e.buffer.reach 1 = e.buffer := by
    rw [Lookahead.reach, show e.buffer.cursor + 1 - e.buffer.size = 0 by omega]
    rfl
  have hconsume : e.buffer.consume = { e.buffer with cursor := e.buffer.cursor + 1 } := by
    rw [Lookahead.consume, hreach]
  rw [consume_eq, hconsume]
  refine ⟨rfl, ?_⟩
  exact {
    settings := rfl
    marks := rfl
    depth := rfl
    window := h.window.moveTo hsize
    base := rfl
    position := by simp only [Lookahead.position, Pass.advance]; omega
    pulled := by cases h : e.depthHit <;> simp [Reading.extent, Pass.advance]
    furthest := rfl
    depthHit := by simp [DepthHit.first, Pass.advance] }

theorem follows_expect (h : PlainOn G s e) (kind : Kind) :
    Follows s e (Pass.miss kind e.buffer.position)
      (expect kind (TokenSource.stream s e.buffer.position) e) := by
  rw [expect_eq]
  refine ⟨rfl, ?_⟩
  exact {
    settings := rfl
    marks := rfl
    depth := rfl
    window := h.window
    base := rfl
    position := rfl
    pulled := by cases h : e.depthHit <;> simp [Reading.extent, Pass.miss, expecting]
    furthest := rfl
    depthHit := by simp [DepthHit.first, Pass.miss, expecting] }

theorem follows_noteDepthHit (h : PlainOn G s e) :
    Follows s e (Pass.hit e.buffer.position) (noteDepthHit e) := by
  cases hhit : e.depthHit with
  | some hit =>
      rw [noteDepthHit_of_some hhit]
      exact ⟨rfl, {
        settings := rfl
        marks := rfl
        depth := rfl
        window := h.window
        base := rfl
        position := rfl
        pulled := by simp [Reading.extent, Pass.hit, hhit]
        furthest := rfl
        depthHit := by simp [hhit] }⟩
  | none =>
      rw [noteDepthHit_of_none h.window hhit]
      exact ⟨rfl, {
        settings := rfl
        marks := rfl
        depth := rfl
        window := h.window.reach 1
        base := Lookahead.base_pullMany _ _
        position := by simp [Lookahead.position, Lookahead.reach, Pass.hit]
        pulled := by rw [h.window.pulled_reach]; simp [Reading.extent, Pass.hit, hhit]
        furthest := rfl
        depthHit := by simp [hhit, DepthHit.first, Pass.hit] }⟩

theorem follows_takeKind (h : PlainOn G s e) (kind : Kind) :
    Follows s e (G.takeKind kind e.buffer.position) (takeKind kind e) := by
  refine .bind (follows_next h) fun token e' hr hm => ?_
  have h' := h.moved hm
  have hposition : e'.buffer.position = e.buffer.position := hm.position
  have htoken : token = TokenSource.stream s e'.buffer.position := by
    rw [hposition, ← h.tokens]
    exact (Except.ok.inj hr).symm
  by_cases hkind : token.kind = kind
  · simp only [if_pos hkind]
    refine .bind (follows_consume h' ?_) fun _ e'' _ hm' => .pure (h'.moved hm').window true
    have := hm.pulled
    cases hhit : e.depthHit <;> simp [Reading.extent, Ground.look, hhit] at this <;> omega
  · simp only [if_neg hkind]
    refine .bind ?_ fun _ e'' _ hm' => .pure (h'.moved hm').window false
    rw [htoken]
    exact follows_expect h' kind

theorem follows_atDelimiter (h : PlainOn G s e) (kind : Kind) :
    Follows s e (G.atDelimiter kind e.buffer.position) (atDelimiter kind e) := by
  refine .bind (follows_next h) fun token e' hr hm => ?_
  have h' := h.moved hm
  have hposition : e'.buffer.position = e.buffer.position := hm.position
  have htoken : token = TokenSource.stream s e'.buffer.position := by
    rw [hposition, ← h.tokens]
    exact (Except.ok.inj hr).symm
  by_cases hkind : token.kind = kind
  · simp only [if_pos hkind]
    exact .pure h'.window true
  · simp only [if_neg hkind]
    refine .bind ?_ fun _ e'' _ hm' => .pure (h'.moved hm').window false
    rw [htoken]
    exact follows_expect h' kind

theorem follows_lookAhead (h : PlainOn G s e) (k : Nat) (kind : Kind) :
    Follows s e (G.lookAhead k kind e.buffer.position)
      ((do return (← peek k).kind = kind : Run σ Bool) e) := by
  have hposition : e.buffer.position = e.buffer.base + e.buffer.cursor := rfl
  simp only [Ground.lookAhead]
  by_cases hzero : k = 0
  · subst hzero
    rw [if_pos rfl, Run.bind_of_error (peek_zero e)]
    exact ⟨rfl, by simp [DepthHit.first, Pass.fail]⟩
  · obtain ⟨k, rfl⟩ : ∃ j, k = j + 1 := ⟨k - 1, by omega⟩
    rw [if_neg hzero, h.horizon]
    by_cases hfar : Machine.bufferLimit < e.buffer.cursor + (k + 1)
    · rw [if_pos (by omega), Run.bind_of_error (peek_of_far hzero hfar)]
      exact ⟨rfl, by simp [DepthHit.first, Pass.fail]⟩
    · rw [if_neg (by omega)]
      refine .bind ?_ fun token e' _ hm => .pure hm.window (decide (token.kind = kind))
      rw [peek_eq h.window (Nat.succ_pos k) (Nat.le_of_not_lt hfar)]
      exact ⟨by rw [← h.tokens]; rfl, .look h.window k⟩

-- ============================================================================
-- Speculations
-- ============================================================================

theorem PlainOn.pushed (h : PlainOn G s e) : PlainOn G s e.pushed where
  tokens := h.tokens
  maxDepth := h.maxDepth
  horizon := h.horizon
  memoize := h.memoize
  open_ := List.cons_ne_nil _ _
  window := h.window

theorem PlainOn.counted (h : PlainOn G s e) (id : RuleId) : PlainOn G s (e.counted id) where
  tokens := h.tokens
  maxDepth := h.maxDepth
  horizon := h.horizon
  memoize := h.memoize
  open_ := h.open_
  window := h.window

/-- A speculation around a body rewinds the reading of the body. -/
theorem Follows.speculate {p : Pass Bool} {body : Run σ Bool} (h : PlainOn G s e)
    (hbody : Follows s e.pushed (p e.buffer.position) (body e.pushed)) :
    Follows s e (p.rewind e.buffer.position) (Engine.speculate body e) := by
  simp only [Engine.speculate, Run.bind_of_ok (openMark_eq e)]
  cases hrun : body e.pushed with
  | error fault e' =>
      rw [hrun] at hbody
      rw [Run.bind_of_error hrun, Pass.rewind, hbody.1]
      exact hbody
  | ok matched e' =>
      rw [hrun] at hbody
      obtain ⟨hr, hm⟩ := hbody
      have hmarks : e'.speculation.marks = e.buffer.cursor :: e.speculation.marks := hm.marks
      rw [Run.bind_of_ok hrun, Pass.rewind, hr]
      cases matched with
      | true =>
          have hclose : close true e' = .ok () (e'.committed e.speculation.marks) :=
            commit_of_open hmarks h.open_
          rw [Run.bind_of_ok hclose]
          exact ⟨hr, {
            settings := hm.settings
            marks := rfl
            depth := hm.depth
            window := hm.window
            base := hm.base
            position := hm.position
            pulled := hm.pulled
            furthest := hm.furthest
            depthHit := hm.depthHit }⟩
      | false =>
          have hsize : e.buffer.cursor ≤ e'.buffer.size := by
            have h1 := h.window.cursor_le
            have h2 := h.window.pulled_eq
            have h3 := hm.window.pulled_eq
            have h4 : e'.buffer.base = e.buffer.base := hm.base
            have h5 : e'.buffer.pulled = max e.buffer.pulled _ := hm.pulled
            omega
          have hclose : close false e' = .ok ()
              (e'.abandoned e.buffer.cursor e.speculation.marks) := abandon_of_le hmarks hsize
          have hbase : e'.buffer.base = e.buffer.base := hm.base
          rw [Run.bind_of_ok hclose]
          exact ⟨hr, {
            settings := hm.settings
            marks := rfl
            depth := hm.depth
            window := hm.window.moveTo hsize
            base := hm.base
            position := by simp [abandoned, Lookahead.position, hbase]
            pulled := hm.pulled
            furthest := hm.furthest
            depthHit := hm.depthHit }⟩

theorem follows_matchKind (h : PlainOn G s e) (kind : Kind) :
    Follows s e (G.takeKind kind e.buffer.position) (matchKind kind e) := by
  rw [← Ground.rewind_takeKind]
  exact .speculate h (follows_takeKind h.pushed kind)

theorem Moved.uncounted {id : RuleId} {r : Reading α} (h : Moved s (e.counted id) r e') :
    Moved s e r e' :=
  ⟨h.settings, h.marks, h.depth, h.window, h.base, h.position, h.pulled, h.furthest, h.depthHit⟩

theorem Follows.uncounted {id : RuleId} {r : Reading α} {x : EStateM.Result Fault (Engine σ) α}
    (h : Follows s (e.counted id) r x) : Follows s e r x := by
  cases x with
  | ok a e' => exact ⟨h.1, h.2.uncounted⟩
  | error fault e' => exact h

theorem PlainOn.deeper (h : PlainOn G s e) : PlainOn G s { e with depth := e.depth + 1 } where
  tokens := h.tokens
  maxDepth := h.maxDepth
  horizon := h.horizon
  memoize := h.memoize
  open_ := h.open_
  window := h.window

/-- A body one level deeper comes back to the level of its caller. -/
theorem Follows.deeper {r : Reading α} {body : Run σ α}
    (h : Follows s { e with depth := e.depth + 1 } r (body { e with depth := e.depth + 1 })) :
    Follows s e r ((do
      let a ← body
      modify fun e => { e with depth := e.depth - 1 }
      return a : Run σ α) { e with depth := e.depth + 1 }) := by
  cases hrun : body { e with depth := e.depth + 1 } with
  | error fault e' =>
      rw [hrun] at h
      rw [Run.bind_of_error hrun]
      exact h
  | ok a e' =>
      rw [hrun] at h
      obtain ⟨hr, hm⟩ := h
      have hdepth : e'.depth = e.depth + 1 := hm.depth
      rw [Run.bind_of_ok hrun]
      exact ⟨hr, {
        settings := hm.settings
        marks := hm.marks
        depth := by show e'.depth - 1 = e.depth; omega
        window := hm.window
        base := hm.base
        position := hm.position
        pulled := hm.pulled
        furthest := hm.furthest
        depthHit := hm.depthHit }⟩

end

-- ============================================================================
-- Rules
-- ============================================================================

/-- An engine without a memo reads rules plainly while something is open. -/
theorem follows_eval {s : σ} {G : Ground ν} (hG : ∀ name, (G.grammar name).StackFree) (n : Nat)
    {rule : Rule ν} (hrule : rule.StackFree) {e : Engine σ} (h : PlainOn G s e) :
    Follows s e (G.read n e.depth rule e.buffer.position) (eval G.grammar n rule e) := by
  induction n generalizing rule e with
  | zero => exact ⟨rfl, (Option.or_none).symm⟩
  | succ n ih =>
      cases rule with
      | token kind => exact follows_matchKind h kind
      | const answer => exact .pure h.window answer
      | both first second =>
          refine .bind (ih hrule.1 h) fun a e' _ hm => ?_
          cases a with
          | true =>
              rw [← hm.depth]
              exact ih hrule.2 (h.moved hm)
          | false => exact .pure hm.window false
      | either first second =>
          refine .bind (ih hrule.1 h) fun a e' _ hm => ?_
          cases a with
          | true => exact .pure hm.window true
          | false =>
              rw [← hm.depth]
              exact ih hrule.2 (h.moved hm)
      | negate rule =>
          have hbody : rule.StackFree := hrule
          exact .bind (ih hbody h) fun a e' _ hm => .pure hm.window (!a)
      | attempt rule =>
          have hbody : rule.StackFree := hrule
          exact .speculate h (ih hbody h.pushed)
      | trail delimiter element =>
          have helement : element.StackFree := hrule
          have hagain : (Rule.trail delimiter element).StackFree := hrule
          refine .bind (follows_atDelimiter h delimiter) fun a e' _ hm => ?_
          have h' := h.moved hm
          cases a with
          | false => exact .pure hm.window true
          | true =>
              refine .bind (follows_matchKind h' delimiter) fun a e'' _ hm' => ?_
              have h'' := h'.moved hm'
              cases a with
              | false => exact .pure hm'.window false
              | true =>
                  rw [← hm.depth, ← hm'.depth]
                  refine .bind (ih helement h'') fun a e''' _ hm'' => ?_
                  cases a with
                  | false => exact .pure hm''.window false
                  | true =>
                      rw [← hm''.depth]
                      exact ih hagain (h''.moved hm'')
      | memo id body =>
          have hplain : (e.settings.memoize && e.isSpeculating) = false := by rw [h.memoize]; rfl
          have hfree : body.StackFree := hrule
          have hbody : Follows s (e.counted id).pushed (G.read n e.depth body e.buffer.position)
              (eval G.grammar n body (e.counted id).pushed) :=
            ih hfree (h.counted id).pushed
          show Follows s e _ (memoized id (eval G.grammar n body) e)
          rw [memoized_of_plain hplain]
          exact (Follows.speculate (h.counted id) hbody).uncounted
      | nested body =>
          have hbody : body.StackFree := hrule
          show Follows s e (G.read (n + 1) e.depth (.nested body) e.buffer.position)
            (nested (eval G.grammar n body) e)
          simp only [Ground.read, h.maxDepth]
          by_cases hdeep : e.settings.maxDepth ≤ e.depth
          · rw [if_pos hdeep, nested_of_le hdeep]
            exact .bind (follows_noteDepthHit h) fun _ e' _ hm => .pure hm.window false
          · rw [if_neg hdeep, nested_of_lt (Nat.lt_of_not_le hdeep)]
            exact .deeper (ih hbody h.deeper)
      | ref name => exact ih (hG name) h
      | ahead k kind => exact follows_lookAhead h k kind
      | stack step => exact hrule.elim

end Engine
end Packrat
