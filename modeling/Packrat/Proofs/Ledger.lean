/-
  Packrat.Proofs.Ledger

  Bodies of memoized rules run at most once per place.

  The ledger of a session (`Ledger`) sets the bodies that were started beside
  the counters of the engine and what it keeps.  Under an open mark every start
  is a lookup that found nothing, and leaves an outcome behind when the body
  has run; until then the body is listed as running.  So what is kept since the
  last compaction are the starts since then, less those that still run, and a
  place with a start has an outcome to replay, unless the rule came to run
  inside its own run.  That does not happen in runs that end (`Inside.not_mem`).
-/

import Packrat.Proofs.Compaction
import Packrat.Proofs.Descent

namespace Packrat
namespace Engine

variable {σ ν : Type} {log running : List Start} {e e' : Engine σ} {id : RuleId}

-- ============================================================================
-- The ledger
-- ============================================================================

/-- The start that leaves an outcome of the rule at a position of the buffer. -/
def heldAt (e : Engine σ) (id : RuleId) (pos : Nat) : Start :=
  ⟨id, e.buffer.base + pos, e.compactions, true⟩

/-- The starts under an open mark since the last compaction. -/
def recent (e : Engine σ) (log : List Start) : List Start :=
  log.filter fun x => x.speculating && x.epoch == e.compactions

/-- The log tells of all bodies that were started, and `running` of those among them that still
    run and whose outcomes are going to be kept. -/
structure Ledger (log running : List Start) (e : Engine σ) : Prop where
  memoize : e.settings.memoize = true
  epochs : ∀ x ∈ log, x.epoch ≤ e.compactions
  runs : ∀ id, e.runsOf id = log.countP fun x => x.rule = id
  misses : e.memo.misses = (log.filter Start.speculating).length
  once : (log.filter Start.speculating).Nodup
  distinct : running.Nodup
  started : ∀ x ∈ running, x ∈ log
  kept : ∀ id pos, (e.memo.get? id pos).isSome = true ↔
    e.heldAt id pos ∈ log ∧ e.heldAt id pos ∉ running
  size : e.memo.size + running.length = (e.recent log).length

theorem ledger_ofSource (maxDepth : Nat) (source : σ) :
    Ledger [] [] (ofSource ⟨true, maxDepth⟩ source) where
  memoize := rfl
  epochs _ hmem := nomatch hmem
  runs _ := rfl
  misses := rfl
  once := .nil
  distinct := .nil
  started _ hmem := nomatch hmem
  kept id pos := by simp [ofSource]
  size := rfl

/-- Nothing that the ledger is about has changed. -/
structure Silent (e e' : Engine σ) : Prop where
  settings : e'.settings = e.settings
  runs : e'.runs = e.runs
  compactions : e'.compactions = e.compactions
  base : e'.buffer.base = e.buffer.base
  outcomes : e'.memo.outcomes = e.memo.outcomes
  misses : e'.memo.misses = e.memo.misses

theorem Silent.pushed (e : Engine σ) : Silent e e.pushed := ⟨rfl, rfl, rfl, rfl, rfl, rfl⟩

theorem Silent.trans {e'' : Engine σ} (h : Silent e e') (h' : Silent e' e'') : Silent e e'' :=
  ⟨h'.settings.trans h.settings, h'.runs.trans h.runs, h'.compactions.trans h.compactions,
    h'.base.trans h.base, h'.outcomes.trans h.outcomes, h'.misses.trans h.misses⟩

theorem Ledger.silent (h : Ledger log running e) (hsilent : Silent e e') :
    Ledger log running e' where
  memoize := hsilent.settings ▸ h.memoize
  epochs := hsilent.compactions ▸ h.epochs
  runs id := by rw [← h.runs id, runsOf, hsilent.runs, runsOf]
  misses := hsilent.misses.trans h.misses
  once := h.once
  distinct := h.distinct
  started := h.started
  kept id pos := by
    rw [heldAt, hsilent.base, hsilent.compactions, Memo.get?, hsilent.outcomes]
    exact h.kept id pos
  size := by
    rw [recent, hsilent.compactions, Memo.size, hsilent.outcomes]
    exact h.size

/-- What starts nothing adds nothing to the log. -/
theorem Ledger.append_nil (h : Ledger log running e) : Ledger (log ++ []) running e := by
  rwa [List.append_nil]

/-- A compaction closes the books: what is kept and what was started since are both nothing. -/
theorem Ledger.compacted (h : Ledger log [] e) : Ledger log [] e.compacted where
  memoize := h.memoize
  epochs x hmem := Nat.le_succ_of_le (h.epochs x hmem)
  runs := h.runs
  misses := h.misses
  once := h.once
  distinct := h.distinct
  started := h.started
  kept id pos := by
    simp only [Engine.compacted, Memo.get?_clear, Option.isSome_none, Bool.false_eq_true, false_iff]
    rintro ⟨hmem, -⟩
    exact Nat.not_succ_le_self _ (h.epochs _ hmem)
  size := by
    have hnone : e.compacted.recent log = [] := by
      refine List.filter_eq_nil_iff.2 fun x hmem => ?_
      have hle := h.epochs x hmem
      simp only [Engine.compacted, Bool.and_eq_true, beq_iff_eq]
      omega
    rw [hnone]
    rfl

theorem Ledger.commit (h : Ledger log running e) (hrun : Engine.commit e = .ok () e')
    (hopen : running ≠ [] → e'.speculation.marks ≠ []) : Ledger log running e' := by
  obtain ⟨mark, marks, -, rfl | ⟨rfl, -, rfl⟩⟩ := commit_eq_ok hrun
  · exact h.silent ⟨rfl, rfl, rfl, rfl, rfl, rfl⟩
  · obtain rfl : running = [] := Classical.byContradiction fun hsome => hopen hsome rfl
    exact Ledger.compacted (h.silent ⟨rfl, rfl, rfl, rfl, rfl, rfl⟩)

theorem Ledger.abandon (h : Ledger log running e) (hrun : Engine.abandon e = .ok () e') :
    Ledger log running e' := by
  obtain ⟨mark, marks, -, -, rfl⟩ := abandon_eq_ok hrun
  exact h.silent ⟨rfl, rfl, rfl, rfl, rfl, rfl⟩

theorem Ledger.close (h : Ledger log running e) {matched : Bool}
    (hrun : Engine.close matched e = .ok () e')
    (hopen : running ≠ [] → e'.speculation.marks ≠ []) : Ledger log running e' := by
  cases matched with
  | true => exact h.commit hrun hopen
  | false => exact h.abandon hrun

-- ============================================================================
-- Entries
-- ============================================================================

theorem runsOf_counted (e : Engine σ) (id id' : RuleId) :
    (e.counted id).runsOf id' = if id = id' then e.runsOf id' + 1 else e.runsOf id' := by
  obtain ⟨name⟩ := id
  obtain ⟨name'⟩ := id'
  simp only [runsOf, counted, RuleId.mk.injEq, Std.TreeMap.getElem?_insert,
    Std.LawfulEqOrd.compare_eq_iff_eq]
  split
  · next heq => rw [heq]; rfl
  · rfl

theorem runs_append (h : ∀ id, e.runsOf id = log.countP fun x => x.rule = id) (x : Start)
    (id : RuleId) :
    (e.counted x.rule).runsOf id = (log ++ [x]).countP fun y => y.rule = id := by
  rw [runsOf_counted, h, List.countP_append, List.countP_singleton]
  by_cases heq : x.rule = id <;> simp [heq]

/-- Without an open mark a body is only counted. -/
theorem Ledger.counted (h : Ledger log running e) (hclosed : e.isSpeculating = false)
    (id : RuleId) :
    Ledger (log ++ [e.startOf id]) running (e.counted id) := by
  have hplain : (e.startOf id).speculating = false := hclosed
  have hfilter : (log ++ [e.startOf id]).filter Start.speculating
      = log.filter Start.speculating := by simp [hplain]
  have hrecent : (e.counted id).recent (log ++ [e.startOf id]) = e.recent log := by
    simp [recent, Engine.counted, hplain]
  have hheld : ∀ id' pos, (e.counted id).heldAt id' pos ∈ log ++ [e.startOf id] ↔
      e.heldAt id' pos ∈ log := by
    intro id' pos
    rw [List.mem_append, List.mem_singleton]
    refine or_iff_left fun heq => ?_
    rw [← heq] at hplain
    cases hplain
  exact {
    memoize := h.memoize
    epochs := by
      intro x hmem
      rcases List.mem_append.1 hmem with hmem | hmem
      · exact h.epochs x hmem
      · rw [List.mem_singleton.1 hmem]
        exact Nat.le_refl _
    runs := runs_append h.runs (e.startOf id)
    misses := by rw [hfilter]; exact h.misses
    once := by rw [hfilter]; exact h.once
    distinct := h.distinct
    started := fun x hmem => List.mem_append_left _ (h.started x hmem)
    kept := fun id' pos => by rw [hheld]; exact h.kept id' pos
    size := by rw [hrecent]; exact h.size }

/-- Under an open mark a body that is started is looked up in vain, and runs. -/
theorem Ledger.fresh (h : Ledger log running e) (hopen : e.isSpeculating = true)
    (hnew : e.memo.get? id e.buffer.cursor = none) (hfresh : e.startOf id ∉ running) :
    Ledger (log ++ [e.startOf id]) (e.startOf id :: running) (e.fresh id) := by
  have hstart : e.heldAt id e.buffer.cursor = e.startOf id := by
    simp [heldAt, startOf, hopen, Lookahead.position]
  -- What is not kept and does not run was not started.
  have hunstarted : e.startOf id ∉ log := by
    intro hmem
    have := (h.kept id e.buffer.cursor).2 (hstart.symm ▸ ⟨hmem, hfresh⟩)
    rw [hnew] at this
    cases this
  have hspeculating : (e.startOf id).speculating = true := hopen
  have hfilter : (log ++ [e.startOf id]).filter Start.speculating
      = log.filter Start.speculating ++ [e.startOf id] := by simp [hspeculating]
  have hrecent : (e.fresh id).recent (log ++ [e.startOf id]) = e.recent log ++ [e.startOf id] := by
    simp [recent, Engine.fresh, Engine.counted, startOf, hopen]
  exact {
    memoize := h.memoize
    epochs := by
      intro x hmem
      rcases List.mem_append.1 hmem with hmem | hmem
      · exact h.epochs x hmem
      · rw [List.mem_singleton.1 hmem]
        exact Nat.le_refl _
    runs := runs_append h.runs (e.startOf id)
    misses := by
      rw [hfilter, List.length_append, ← h.misses]
      simp [Engine.fresh, Memo.lookup, hnew]
    once := by
      rw [hfilter]
      exact List.nodup_append.2 ⟨h.once, List.pairwise_singleton _ _, fun x hx y hy hxy =>
        hunstarted (List.mem_singleton.1 hy ▸ hxy ▸ (List.mem_filter.1 hx).1)⟩
    distinct := List.nodup_cons.2 ⟨hfresh, h.distinct⟩
    started := by
      intro x hmem
      rcases List.mem_cons.1 hmem with rfl | hmem
      · exact List.mem_append_right _ (List.mem_singleton_self _)
      · exact List.mem_append_left _ (h.started x hmem)
    kept := by
      intro id' pos
      have hheld : (e.fresh id).heldAt id' pos = e.heldAt id' pos := rfl
      rw [hheld, Engine.fresh, Memo.get?_snd_lookup, h.kept, List.mem_append, List.mem_singleton,
        List.mem_cons, not_or]
      constructor
      · rintro ⟨hmem, hout⟩
        exact ⟨.inl hmem, fun heq => hunstarted (heq ▸ hmem), hout⟩
      · rintro ⟨hmem | heq, hne, hout⟩
        · exact ⟨hmem, hout⟩
        · exact absurd heq hne
    size := by
      rw [hrecent, List.length_append, ← h.size]
      simp [Engine.fresh, Memo.lookup, hnew, Memo.size, Nat.add_assoc] }

/-- A body that has run leaves its outcome. -/
theorem Ledger.record {x : Start} {pos : Nat} (h : Ledger log (x :: running) e)
    (hx : x = e.heldAt id pos) (outcome : Outcome) (furthest : Option Mismatch) :
    Ledger log running { e with furthest, memo := e.memo.record id pos outcome } := by
  subst hx
  obtain ⟨hout, hdistinct⟩ := List.nodup_cons.1 h.distinct
  have hnone : (e.memo.get? id pos).isSome = false := by
    rw [← Bool.not_eq_true, h.kept]
    exact fun hkept => hkept.2 List.mem_cons_self
  exact {
    memoize := h.memoize
    epochs := h.epochs
    runs := h.runs
    misses := h.misses
    once := h.once
    distinct := hdistinct
    started := fun x hmem => h.started x (List.mem_cons_of_mem _ hmem)
    kept := by
      intro id' pos'
      show (((e.memo.record id pos outcome).get? id' pos').isSome = true) ↔
        e.heldAt id' pos' ∈ log ∧ e.heldAt id' pos' ∉ running
      rw [Memo.get?_record]
      split
      · next heq =>
          obtain ⟨rfl, rfl⟩ := heq
          exact iff_of_true rfl ⟨h.started _ List.mem_cons_self, hout⟩
      · next hne =>
          have hother : e.heldAt id' pos' ≠ e.heldAt id pos := by
            intro heq
            simp only [heldAt, Start.mk.injEq, Nat.add_left_cancel_iff] at heq
            exact hne ⟨heq.1.symm, heq.2.1.symm⟩
          rw [h.kept, List.mem_cons, not_or]
          exact ⟨fun hkept => ⟨hkept.1, hkept.2.2⟩, fun hkept => ⟨hkept.1, hother, hkept.2⟩⟩
    size := by
      have hsize := h.size
      rw [List.length_cons] at hsize
      show (e.memo.record id pos outcome).size + running.length = (e.recent log).length
      rw [Memo.size_record, hnone]
      simp only [Bool.false_eq_true, if_false]
      omega }

end Engine
end Packrat
