/-
  Packrat.Proofs.PlainRecognition

  A recognition by an engine that keeps no outcomes is a reading: if the rule
  matches, the recognition returns the stretch of the stream that was read, and
  if not, it reports the first hit of the depth limit, or else the furthest
  mismatch of the reading.  Afterwards nothing is open, as before.
-/

import Packrat.Proofs.PlainRun
import Packrat.Proofs.Transcript

namespace Packrat

/-- What a reading that started at token `i` reports when it fails. -/
def Reading.failure {α : Type} (r : Reading α) (t : Nat → Token) (maxDepth i : Nat) :
    ParseError :=
  match r.hits, Mismatch.noted t r.misses with
  | hit :: _, _ => .nestingLimit maxDepth hit (t hit).span
  | [], some m => .syntaxError (.ofToken m.position m.found m.expected)
  | [], none => .syntaxError (.ofToken i (t i) .empty)

/-- What a recognition makes of a reading that started at token `i`. -/
def Reading.recognition (r : Reading Bool) (t : Nat → Token) (maxDepth i : Nat) :
    Except ParseError Match :=
  match r.result with
  | .ok true => .ok ⟨i, stretch t i r.stop⟩
  | _ => .error (r.failure t maxDepth i)

namespace Engine

variable {σ ν : Type} [TokenSource σ] {s : σ} {g : Grammar ν} {e e' : Engine σ}

/-- Nothing is open and nothing nested is running. -/
structure Idle (s : σ) (e : Engine σ) : Prop where
  marks : e.speculation.marks = []
  depth : e.depth = 0
  window : e.buffer.IsWindow s

theorem idle_ofSource (settings : Settings) (s : σ) : Idle s (ofSource settings s) where
  marks := rfl
  depth := rfl
  window := Lookahead.isWindow_ofSource s

/-- The ground that a recognition by the engine reads on. -/
def groundAt (s : σ) (g : Grammar ν) (e : Engine σ) : Ground ν :=
  ⟨TokenSource.stream s, g, e.settings.maxDepth, e.buffer.base + Machine.bufferLimit⟩

/-- The body of a recognition runs as its reading does. -/
theorem exists_moved (h : Idle s e) (hplain : e.settings.memoize = false)
    (hg : ∀ name, (g name).StackFree) (n : Nat) {rule : Rule ν} (hrule : rule.StackFree)
    {matched : Bool}
    (hends : ((groundAt s g e).read n 0 rule e.buffer.position).result = .ok matched) :
    ∃ e', eval g n rule e.begun.pushed = .ok matched e' ∧
      Moved s e.begun.pushed ((groundAt s g e).read n 0 rule e.buffer.position) e' ∧
      e'.speculation.marks = [e.buffer.cursor] := by
  have hplainOn : PlainOn (groundAt s g e) s e.begun.pushed := {
    tokens := rfl
    maxDepth := rfl
    horizon := rfl
    memoize := hplain
    open_ := List.cons_ne_nil _ _
    window := h.window }
  have hfollows : Follows s e.begun.pushed _ (eval g n rule e.begun.pushed) :=
    follows_eval (G := groundAt s g e) hg n hrule hplainOn
  rw [show e.begun.pushed.depth = 0 from h.depth] at hfollows
  cases hrun : eval g n rule e.begun.pushed with
  | error fault e' =>
      rw [hrun] at hfollows
      obtain ⟨hresult, -⟩ := hfollows
      cases hends.symm.trans hresult
  | ok matched' e' =>
      rw [hrun] at hfollows
      obtain ⟨hresult, hmoved⟩ := hfollows
      obtain rfl : matched = matched' := Except.ok.inj (hends.symm.trans hresult)
      refine ⟨e', rfl, hmoved, ?_⟩
      rw [hmoved.marks]
      show e.buffer.cursor :: e.speculation.marks = _
      rw [h.marks]

/-- The outermost commit leaves nothing open and the next token where it is. -/
theorem idle_commit {mark : Nat} (hmarks : e.speculation.marks = [mark]) (hdepth : e.depth = 0)
    (hwindow : e.buffer.IsWindow s) :
    ∃ e', commit e = .ok () e' ∧ Idle s e' ∧ e'.settings = e.settings ∧
      e'.buffer.position = e.buffer.position := by
  rw [commit_of_cons hmarks]
  split
  · next hcan =>
      rw [Bool.and_eq_true] at hcan
      have hend : e.buffer.cursor = e.buffer.size := by
        have hcompact := hcan.1
        simp only [canCompact, Bool.and_eq_true, Lookahead.atEnd, beq_iff_eq] at hcompact
        exact hcompact.2
      refine ⟨{ e.committed [] with
        buffer := e.buffer.clear
        memo := e.memo.clear
        compactions := e.compactions + 1 }, ?_, ⟨rfl, hdepth, hwindow.clear⟩, rfl, ?_⟩
      · rw [compact, if_pos hcan.1]
        rfl
      · show e.buffer.base + e.buffer.size + 0 = e.buffer.base + e.buffer.cursor
        omega
  · exact ⟨_, rfl, ⟨rfl, hdepth, hwindow⟩, rfl, rfl⟩

/-- A rule that reads as matching is recognized. -/
theorem recognize_of_match (h : Idle s e) (hplain : e.settings.memoize = false)
    (hg : ∀ name, (g name).StackFree) (n : Nat) {rule : Rule ν} (hrule : rule.StackFree)
    (hmatch : ((groundAt s g e).read n 0 rule e.buffer.position).result = .ok true) :
    ∃ e', recognize g n rule e = .ok (.ok ⟨e.buffer.position,
        stretch (TokenSource.stream s) e.buffer.position
          ((groundAt s g e).read n 0 rule e.buffer.position).stop⟩) e' ∧
      Idle s e' ∧ e'.settings = e.settings ∧
      e'.buffer.position = ((groundAt s g e).read n 0 rule e.buffer.position).stop := by
  obtain ⟨e₁, hrun, hmoved, hmarks⟩ := exists_moved h hplain hg n hrule hmatch
  have hwithin := (groundAt s g e).within_read n 0 rule e.buffer.position
  generalize (groundAt s g e).read n 0 rule e.buffer.position = r at *
  have hbase : e₁.buffer.base = e.buffer.base := hmoved.base
  have hposition : e₁.buffer.base + e₁.buffer.cursor = r.stop := hmoved.position
  have hle : e.buffer.base + e.buffer.cursor ≤ r.stop := hwithin.le_stop
  have hsize := hmoved.window.cursor_le
  have hslice : onBuffer (Lookahead.slice e.buffer.cursor e₁.buffer.cursor) e₁
      = .ok (stretch (TokenSource.stream s) e.buffer.position r.stop) e₁ := by
    have htokens : (e₁.buffer.tokens.extract e.buffer.cursor e₁.buffer.cursor).toList = _ :=
      hmoved.window.extract_eq hsize
    rw [hposition, hbase] at htokens
    simp only [onBuffer, Lookahead.slice, htokens]
    rw [if_pos ⟨by omega, hsize⟩]
    rfl
  obtain ⟨e₂, hcommit, hidle, hsettings, hstop⟩ :=
    idle_commit hmarks (hmoved.depth.trans h.depth) hmoved.window
  refine ⟨e₂, ?_, hidle, hsettings.trans hmoved.settings, hstop.trans hmoved.position⟩
  have hcursor : cursor e₁ = .ok e₁.buffer.cursor e₁ := rfl
  rw [recognize, recognizing_eq, Run.bind_of_ok hrun, if_pos rfl, Run.bind_of_ok hcursor,
    Run.bind_of_ok hslice, Run.bind_of_ok hcommit]
  rfl

/-- What is reported is what the reading has to report. -/
theorem failure_of_reading (h : Idle s e) {r : Reading Bool}
    (hhit : e.depthHit = DepthHit.first (TokenSource.stream s) r.hits)
    (hfurthest : e.furthest = Mismatch.noted (TokenSource.stream s) r.misses) :
    ∃ e', failure e
        = .ok (r.failure (TokenSource.stream s) e.settings.maxDepth e.buffer.position) e' ∧
      Idle s e' ∧ e'.settings = e.settings ∧ e'.buffer.position = e.buffer.position := by
  cases hhits : r.hits with
  | cons hit hits =>
      rw [hhits] at hhit
      refine ⟨e, ?_, h, rfl, rfl⟩
      rw [failure_of_hit hhit]
      simp only [Reading.failure, hhits]
  | nil =>
      have hnohit : e.depthHit = none := by rw [hhit, hhits]; rfl
      cases hnoted : Mismatch.noted (TokenSource.stream s) r.misses with
      | some m =>
          rw [hnoted] at hfurthest
          refine ⟨e, ?_, h, rfl, rfl⟩
          rw [failure_of_mismatch hnohit hfurthest]
          simp only [Reading.failure, hhits, hnoted]
      | none =>
          rw [hnoted] at hfurthest
          refine ⟨{ e with buffer := e.buffer.reach 1 }, ?_,
            ⟨h.marks, h.depth, h.window.reach 1⟩, rfl, ?_⟩
          · rw [failure_of_none h.window hnohit hfurthest]
            simp only [Reading.failure, hhits, hnoted]
          · simp [Lookahead.position, Lookahead.reach]

/-- A rule that does not read as matching is not recognized. -/
theorem recognize_of_mismatch (h : Idle s e) (hplain : e.settings.memoize = false)
    (hg : ∀ name, (g name).StackFree) (n : Nat) {rule : Rule ν} (hrule : rule.StackFree)
    (hmatch : ((groundAt s g e).read n 0 rule e.buffer.position).result = .ok false) :
    ∃ e', recognize g n rule e
        = .ok (.error (((groundAt s g e).read n 0 rule e.buffer.position).failure
            (TokenSource.stream s) e.settings.maxDepth e.buffer.position)) e' ∧
      Idle s e' ∧ e'.settings = e.settings ∧ e'.buffer.position = e.buffer.position := by
  obtain ⟨e₁, hrun, hmoved, hmarks⟩ := exists_moved h hplain hg n hrule hmatch
  generalize (groundAt s g e).read n 0 rule e.buffer.position = r at *
  have hbase : e₁.buffer.base = e.buffer.base := hmoved.base
  have hsize : e.buffer.cursor ≤ e₁.buffer.size := by
    have hpulled : e.buffer.pulled ≤ e₁.buffer.pulled := by
      rw [hmoved.pulled]
      exact Nat.le_max_left _ _
    have h₁ := h.window.pulled_eq
    have h₂ := hmoved.window.pulled_eq
    have h₃ := h.window.cursor_le
    omega
  have hhit : e₁.depthHit = DepthHit.first (TokenSource.stream s) r.hits := by
    rw [hmoved.depthHit]
    rfl
  have hfurthest : e₁.furthest = Mismatch.noted (TokenSource.stream s) r.misses := by
    rw [hmoved.furthest]
    exact Mismatch.none_join _
  have hback : (e₁.abandoned e.buffer.cursor []).buffer.position = e.buffer.position := by
    simp [abandoned, Lookahead.position, hbase]
  have hidle : Idle s (e₁.abandoned e.buffer.cursor []) :=
    ⟨rfl, hmoved.depth.trans h.depth, hmoved.window.moveTo hsize⟩
  obtain ⟨e₂, hfailure, hidle', hsettings, hposition⟩ :=
    failure_of_reading hidle (r := r) hhit hfurthest
  have hlimit : (e₁.abandoned e.buffer.cursor []).settings = e.settings := hmoved.settings
  rw [hback, hlimit] at hfailure
  refine ⟨e₂, ?_, hidle', hsettings.trans hlimit, hposition.trans hback⟩
  rw [recognize, recognizing_eq, Run.bind_of_ok hrun]
  simp only [Bool.false_eq_true, if_false, Run.bind_of_ok (abandon_of_le hmarks hsize),
    Run.bind_of_ok hfailure]
  rfl

/-- A recognition makes of its rule what the reading of the rule says, and goes no way back. -/
theorem recognize_of_reading (h : Idle s e) (hplain : e.settings.memoize = false)
    (hg : ∀ name, (g name).StackFree) (n : Nat) {rule : Rule ν} (hrule : rule.StackFree)
    {matched : Bool}
    (hends : ((groundAt s g e).read n 0 rule e.buffer.position).result = .ok matched) :
    ∃ e', recognize g n rule e
        = .ok (((groundAt s g e).read n 0 rule e.buffer.position).recognition
            (TokenSource.stream s) e.settings.maxDepth e.buffer.position) e' ∧
      Idle s e' ∧ e'.settings = e.settings ∧ e.buffer.position ≤ e'.buffer.position := by
  simp only [Reading.recognition, hends]
  cases matched with
  | true =>
      obtain ⟨e', hrun, hidle, hsettings, hposition⟩ :=
        recognize_of_match h hplain hg n hrule hends
      refine ⟨e', hrun, hidle, hsettings, ?_⟩
      rw [hposition]
      exact ((groundAt s g e).within_read n 0 rule e.buffer.position).le_stop
  | false =>
      obtain ⟨e', hrun, hidle, hsettings, hposition⟩ :=
        recognize_of_mismatch h hplain hg n hrule hends
      exact ⟨e', hrun, hidle, hsettings, Nat.le_of_eq hposition.symm⟩

end Engine
end Packrat
