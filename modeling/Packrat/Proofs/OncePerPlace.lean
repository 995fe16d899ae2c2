/-
  Packrat.Proofs.OncePerPlace

  The ledger is kept up by every rule and by every step of a session.

  For rules this is an induction on the fuel.  What it carries from a rule to
  those that come to run in its course is bundled (`Accounted`): the state is
  sound, the ledger is right, and the bodies that still run are those that the
  rule runs inside.
-/

import Packrat.Proofs.Ledger

namespace Packrat
namespace Engine

variable {σ ν : Type} [TokenSource σ] {s : σ} {g : Grammar ν} {bodyOf : RuleId → Rule ν}
variable {log running : List Start} {e e' : Engine σ} {rule rule' : Rule ν} {n : Nat}

-- ============================================================================
-- Steps that the ledger is not about
-- ============================================================================

/-- A look ahead, whatever it notes and wherever it leaves the cursor. -/
theorem Silent.reach (e : Engine σ) (k : Nat) {cursor : Nat} {furthest : Option Mismatch} :
    Silent e { e with buffer := { e.buffer.reach k with cursor }, furthest } :=
  ⟨rfl, rfl, rfl, Lookahead.base_pullMany _ _, rfl, rfl⟩

theorem Silent.takeKind (hwindow : e.buffer.IsWindow s) {kind : Kind} {a : Bool}
    (hrun : Engine.takeKind kind e = .ok a e') : Silent e e' := by
  by_cases hkind : (TokenSource.stream s e.buffer.position).kind = kind
  · rw [takeKind_of_eq hwindow hkind] at hrun
    cases hrun
    rw [Lookahead.consume_reach]
    exact .reach e 1
  · rw [takeKind_of_ne hwindow hkind] at hrun
    cases hrun
    exact .reach e 1

theorem Silent.atDelimiter (hwindow : e.buffer.IsWindow s) {kind : Kind} {a : Bool}
    (hrun : Engine.atDelimiter kind e = .ok a e') : Silent e e' := by
  rcases atDelimiter_eq_ok hwindow hrun with rfl | rfl
  · exact .reach e 1
  · exact .reach e 1

theorem Silent.peek {k : Nat} {token : Token} (hrun : Engine.peek k e = .ok token e') :
    Silent e e' := by
  rw [peek_eq_ok hrun]
  exact .reach e k

omit [TokenSource σ] in
theorem Silent.replay {point : Option FailurePoint} (hrun : Engine.replay point e = .ok () e') :
    Silent e e' := by
  cases hrun
  exact ⟨rfl, rfl, rfl, rfl, rfl, rfl⟩

omit [TokenSource σ] in
theorem Silent.replayOutcome {outcome : Outcome} {matched : Bool}
    (hrun : Engine.replayOutcome outcome e = .ok matched e') : Silent e e' := by
  cases outcome with
  | parsed stop furthest =>
      obtain ⟨⟨⟩, e₁, hreplay, hrest⟩ := Run.bind_eq_ok_iff.1 hrun
      obtain ⟨⟨⟩, e₂, hseek, hreturn⟩ := Run.bind_eq_ok_iff.1 hrest
      obtain ⟨-, rfl⟩ := seek_eq_ok hseek
      cases hreturn
      exact (Silent.replay hreplay).trans ⟨rfl, rfl, rfl, rfl, rfl, rfl⟩
  | failed furthest =>
      obtain ⟨⟨⟩, e₁, hreplay, hreturn⟩ := Run.bind_eq_ok_iff.1 hrun
      cases hreturn
      exact Silent.replay hreplay

omit [TokenSource σ] in
/-- A lookup that finds an outcome counts as a hit only. -/
theorem Silent.lookup {id : RuleId} {outcome : Outcome}
    (hget : e.memo.get? id e.buffer.cursor = some outcome) :
    Silent e { e with memo := (e.memo.lookup id e.buffer.cursor).2 } := by
  simp only [Memo.lookup, hget]
  exact ⟨rfl, rfl, rfl, rfl, rfl, rfl⟩

/-- At the depth limit that is noted, if it was not before. -/
theorem depthHit_ne_none_of_note (hwindow : e.buffer.IsWindow s)
    (hrun : noteDepthHit e = .ok () e') : e'.depthHit ≠ none := by
  rcases noteDepthHit_eq_ok hwindow hrun with ⟨hhit, rfl⟩ | ⟨-, rfl⟩
  · exact hhit
  · exact Option.some_ne_none _

theorem Ledger.matchKind (h : Ledger log running e) (hwindow : e.buffer.IsWindow s)
    (hopen : running ≠ [] → e.speculation.marks ≠ []) {kind : Kind} {a : Bool}
    (hrun : Engine.matchKind kind e = .ok a e') : Ledger log running e' := by
  have htidy := Steady.matchKind kind _ _ _ hrun
  obtain ⟨e₁, htake, hclose⟩ := speculate_eq_ok hrun
  have hpushed : Ledger log running e.pushed := h.silent (.pushed e)
  exact (hpushed.silent (.takeKind hwindow htake)).close hclose fun hsome =>
    htidy.balanced.marks ▸ hopen hsome

-- ============================================================================
-- Rules
-- ============================================================================

/-- The rule is going to run in a state whose ledger is right. -/
structure Accounted (s : σ) (g : Grammar ν) (bodyOf : RuleId → Rule ν) (log running : List Start)
    (rule : Rule ν) (e : Engine σ) : Prop where
  sound : Sound s g bodyOf e
  plain : rule.Plain bodyOf
  inside : Inside s g bodyOf running rule e
  ledger : Ledger log running e

theorem Accounted.enters {log' : List Start} (h : Accounted s g bodyOf log running rule e)
    (hg : ∀ name, (g name).Plain bodyOf) (henters : Enters g n rule e rule' e')
    (hfree : e'.depthHit = none) (hledger : Ledger log' running e') :
    Accounted s g bodyOf log' running rule' e' where
  sound := (h.sound.enters hg h.plain henters).1
  plain := (h.sound.enters hg h.plain henters).2
  inside := h.inside.enters h.sound hg h.plain henters hfree
  ledger := hledger

/-- The ledger is right again after the run, with what the run started. -/
def KeptUp (s : σ) (g : Grammar ν) (bodyOf : RuleId → Rule ν) (n : Nat) : Prop :=
  ∀ {log running : List Start} {rule : Rule ν} {e e' : Engine σ} {matched : Bool},
    Accounted s g bodyOf log running rule e → eval g n rule e = .ok matched e' →
    e'.depthHit = none → Ledger (log ++ starts g n rule e) running e'

/-- A body that runs as a speculation, under a mark of its own. -/
theorem KeptUp.speculate (ih : KeptUp s g bodyOf n)
    (h : Accounted s g bodyOf log running rule e.pushed) {matched : Bool}
    (hrun : Engine.speculate (eval g n rule) e = .ok matched e') (hfree : e'.depthHit = none)
    (hopen : running ≠ [] → e'.speculation.marks ≠ []) :
    Ledger (log ++ starts g n rule e.pushed) running e' := by
  obtain ⟨e₁, hbody, hclose⟩ := speculate_eq_ok hrun
  have hfree₁ := (Latches.close matched).eq_none_of_ok hclose hfree
  exact (ih h hbody hfree₁).close hclose hopen

/-- Under an open mark a body is started that neither was nor is. -/
theorem KeptUp.new (ih : KeptUp s g bodyOf n) (hg : ∀ name, (g name).Plain bodyOf) {id : RuleId}
    (h : Accounted s g bodyOf log running (.memo id (bodyOf id)) e)
    (huses : (e.settings.memoize && e.isSpeculating) = true)
    (hnew : e.memo.get? id e.buffer.cursor = none) {matched : Bool}
    (hrun : eval g (n + 1) (.memo id (bodyOf id)) e = .ok matched e') (hfree : e'.depthHit = none) :
    Ledger (log ++ [e.startOf id] ++ starts g n (bodyOf id) (e.fresh id).pushed) running e' := by
  have hspeculating : e.isSpeculating = true := (Bool.and_eq_true_iff.1 huses).2
  have hopen : e.speculation.marks ≠ [] := by
    simpa [isSpeculating, Speculation.isEmpty] using hspeculating
  have hbody : (bodyOf id).Plain bodyOf := ⟨h.plain.stackFree, h.plain.oneBody.2⟩
  have hfree₀ := (Latches.eval g (n + 1) _).eq_none_of_ok hrun hfree
  have hfresh : e.startOf id ∉ running := by
    obtain ⟨r, ⟨m, hm⟩, hr, -⟩ := h.sound.yields (.eval hg (n + 1) h.plain) hopen hrun hfree
    have hread : (groundFrom s g e.buffer.base).backtrack m (.memo id (bodyOf id))
      e.buffer.position = r := hm m (Nat.le_refl m)
    refine h.inside.not_mem (m := m) ?_
    simp [Ground.EndsOn, hread, hr]
  have hinside : Accounted s g bodyOf (log ++ [e.startOf id]) (e.startOf id :: running)
      (bodyOf id) (e.fresh id).pushed := {
    sound := (h.sound.fresh id).pushed
    plain := hbody
    inside := h.inside.started h.sound hg hbody huses hnew hfree₀
    ledger := (h.ledger.fresh hspeculating hnew hfresh).silent (.pushed _) }
  rw [Engine.eval, memoized_of_new huses hnew] at hrun
  obtain ⟨_, e₂, hspeculate, hkeep⟩ := Run.bind_eq_ok_iff.1 hrun
  obtain ⟨⟨⟩, e₃, hkeep, hreturn⟩ := Run.bind_eq_ok_iff.1 hkeep
  cases hreturn
  rw [keepOutcome_eq] at hkeep
  cases hkeep
  have htidy := Steady.speculate (.eval (stackFree_of_plain hg) n hbody.stackFree) _ _ _ hspeculate
  have hgrown := htidy.grown hopen
  have hledger := ih.speculate hinside hspeculate hfree fun _ => htidy.balanced.marks ▸ hopen
  -- The body has left the cursor anywhere, but the buffer starts where it did.
  have hheld : e₂.heldAt id e.buffer.cursor = e.startOf id := by
    have hbase : e₂.buffer.base = e.buffer.base := hgrown.base
    have hcompactions : e₂.compactions = e.compactions := hgrown.compactions
    rw [heldAt, startOf, hspeculating, hbase, hcompactions]
    rfl
  have hunhit : e₂.depthHit.isNone = true := by
    rw [show e₂.depthHit = none from hfree]
    rfl
  simp only [hunhit, if_true]
  exact hledger.record hheld.symm _ _

/-- A rule through its memo runs its body, or makes a kept outcome happen again. -/
theorem KeptUp.memo (ih : KeptUp s g bodyOf n) (hg : ∀ name, (g name).Plain bodyOf) {id : RuleId}
    (h : Accounted s g bodyOf log running (.memo id (bodyOf id)) e) {matched : Bool}
    (hrun : eval g (n + 1) (.memo id (bodyOf id)) e = .ok matched e') (hfree : e'.depthHit = none) :
    Ledger (log ++ starts g (n + 1) (.memo id (bodyOf id)) e) running e' := by
  by_cases huses : (e.settings.memoize && e.isSpeculating) = true
  · cases hget : e.memo.get? id e.buffer.cursor with
    | some outcome =>
        rw [Engine.eval, memoized_of_kept huses hget] at hrun
        rw [starts, if_pos huses, hget, List.append_nil]
        exact h.ledger.silent ((Silent.lookup hget).trans (.replayOutcome hrun))
    | none =>
        rw [starts, if_pos huses, hget, List.append_cons]
        exact ih.new hg h huses hget hrun hfree
  · have hplain : (e.settings.memoize && e.isSpeculating) = false := Bool.not_eq_true _ ▸ huses
    have hclosed : e.isSpeculating = false := by
      rw [h.ledger.memoize, Bool.true_and] at hplain
      exact hplain
    have hmarks : e.speculation.marks = [] := by
      simpa [isSpeculating, Speculation.isEmpty] using hclosed
    have hnone : running = [] :=
      Classical.byContradiction fun hsome => h.inside.opened hsome hmarks
    have hfree₀ := (Latches.eval g (n + 1) _).eq_none_of_ok hrun hfree
    rw [starts, if_neg huses, List.append_cons]
    rw [Engine.eval, memoized_of_plain hplain] at hrun
    refine ih.speculate (h.enters (n := n) hg (.plain hplain) hfree₀ ?_) hrun hfree
      fun hsome => absurd hnone hsome
    exact (h.ledger.counted hclosed id).silent (.pushed _)

/-- Every element behind a delimiter, and the delimiters. -/
theorem KeptUp.trail (ih : KeptUp s g bodyOf n) (hg : ∀ name, (g name).Plain bodyOf)
    {delimiter : Kind} {element : Rule ν}
    (h : Accounted s g bodyOf log running (.trail delimiter element) e) {matched : Bool}
    (hrun : eval g (n + 1) (.trail delimiter element) e = .ok matched e')
    (hfree : e'.depthHit = none) :
    Ledger (log ++ starts g (n + 1) (.trail delimiter element) e) running e' := by
  obtain ⟨low, hc⟩ := h.sound.coherent
  obtain ⟨a, e₁, hat, hrest⟩ := Run.bind_eq_ok_iff.1 hrun
  have hledger₁ := h.ledger.silent (.atDelimiter hc.window hat)
  rw [starts, hat, Run.following_ok]
  cases a with
  | false =>
      cases hrest
      exact hledger₁.append_nil
  | true =>
      obtain ⟨a, e₂, htake, hrest⟩ := Run.bind_eq_ok_iff.1 hrest
      have hopen₁ : running ≠ [] → e₁.speculation.marks ≠ [] := fun hsome =>
        (Steady.atDelimiter _ _ _ _ hat).balanced.marks ▸ h.inside.opened hsome
      have hledger₂ := hledger₁.matchKind (Upholds.atDelimiter _ _ _ _ _ hc hat).window hopen₁ htake
      rw [if_pos rfl, htake, Run.following_ok]
      cases a with
      | false =>
          cases hrest
          exact hledger₂.append_nil
      | true =>
          obtain ⟨a, e₃, helement, hrest⟩ := Run.bind_eq_ok_iff.1 hrest
          rw [if_pos rfl, helement, Run.following_ok]
          cases a with
          | false =>
              cases hrest
              have hfree₂ := (Latches.eval g n element).eq_none_of_ok helement hfree
              rw [if_neg Bool.false_ne_true, List.append_nil]
              exact ih (h.enters (n := n) hg (.element hat htake) hfree₂ hledger₂) helement hfree
          | true =>
              have hfree₃ := (Latches.eval g n (.trail delimiter element)).eq_none_of_ok hrest hfree
              have hfree₂ := (Latches.eval g n element).eq_none_of_ok helement hfree₃
              have hledger₃ := ih (h.enters (n := n) hg (.element hat htake) hfree₂ hledger₂)
                helement hfree₃
              rw [if_pos rfl, ← List.append_assoc]
              exact ih (h.enters hg (.again hat htake helement) hfree₃ hledger₃) hrest hfree

theorem KeptUp.succ (ih : KeptUp s g bodyOf n) (hg : ∀ name, (g name).Plain bodyOf) :
    KeptUp s g bodyOf (n + 1) := by
  intro log running rule e e' matched h hrun hfree
  have hfree₀ := (Latches.eval g (n + 1) rule).eq_none_of_ok hrun hfree
  have htidy := Steady.eval (stackFree_of_plain hg) (n + 1) h.plain.stackFree _ _ _ hrun
  have hopen : running ≠ [] → e'.speculation.marks ≠ [] := fun hsome =>
    htidy.balanced.marks ▸ h.inside.opened hsome
  obtain ⟨low, hc⟩ := h.sound.coherent
  cases rule with
  | token kind => exact (h.ledger.matchKind hc.window h.inside.opened hrun).append_nil
  | const answer =>
      cases hrun
      exact h.ledger.append_nil
  | both first second =>
      obtain ⟨a, e₁, hfirst, hrest⟩ := Run.bind_eq_ok_iff.1 hrun
      rw [starts, hfirst, Run.following_ok]
      cases a with
      | true =>
          have hfree₁ := (Latches.eval g n second).eq_none_of_ok hrest hfree
          have hledger := ih (h.enters (n := n) hg .first hfree₀ h.ledger) hfirst hfree₁
          rw [if_pos rfl, ← List.append_assoc]
          exact ih (h.enters (n := n) hg (.second hfirst) hfree₁ hledger) hrest hfree
      | false =>
          cases hrest
          rw [if_neg Bool.false_ne_true, List.append_nil]
          exact ih (h.enters (n := n) hg .first hfree₀ h.ledger) hfirst hfree
  | either first second =>
      obtain ⟨a, e₁, hfirst, hrest⟩ := Run.bind_eq_ok_iff.1 hrun
      rw [starts, hfirst, Run.following_ok]
      cases a with
      | true =>
          cases hrest
          rw [if_neg Bool.false_ne_true.symm, List.append_nil]
          exact ih (h.enters (n := n) hg .left hfree₀ h.ledger) hfirst hfree
      | false =>
          have hfree₁ := (Latches.eval g n second).eq_none_of_ok hrest hfree
          have hledger := ih (h.enters (n := n) hg .left hfree₀ h.ledger) hfirst hfree₁
          rw [if_pos rfl, ← List.append_assoc]
          exact ih (h.enters (n := n) hg (.right hfirst) hfree₁ hledger) hrest hfree
  | negate rule =>
      obtain ⟨a, hfirst⟩ := Run.exists_eq_ok_of_return hrun
      exact ih (h.enters (n := n) hg .negate hfree₀ h.ledger) hfirst hfree
  | attempt rule =>
      exact ih.speculate (h.enters (n := n) hg .attempt hfree₀ (h.ledger.silent (.pushed e))) hrun
        hfree hopen
  | trail delimiter element => exact ih.trail hg h hrun hfree
  | memo id body =>
      obtain rfl : body = bodyOf id := h.plain.oneBody.1
      exact ih.memo hg h hrun hfree
  | nested body =>
      rcases nested_eq_ok hrun with ⟨-, hnote⟩ | ⟨hlevel, e₁, hbody, rfl⟩
      · exact absurd hfree (depthHit_ne_none_of_note hc.window hnote)
      · rw [starts, if_neg (Nat.not_le.2 hlevel)]
        have hledger : Ledger log running { e with depth := e.depth + 1 } :=
          h.ledger.silent ⟨rfl, rfl, rfl, rfl, rfl, rfl⟩
        have hafter := ih (h.enters (n := n) hg (.nested hlevel) hfree₀ hledger) hbody hfree
        exact hafter.silent ⟨rfl, rfl, rfl, rfl, rfl, rfl⟩
  | ref name => exact ih (h.enters (n := n) hg .ref hfree₀ h.ledger) hrun hfree
  | ahead k kind =>
      obtain ⟨token, hpeek⟩ := Run.exists_eq_ok_of_return hrun
      exact (h.ledger.silent (.peek hpeek)).append_nil
  | stack step => exact absurd h.plain.stackFree id

/-- Every plain rule keeps up the ledger. -/
theorem keptUp (hg : ∀ name, (g name).Plain bodyOf) (n : Nat) : KeptUp s g bodyOf n := by
  induction n with
  | zero =>
      intro log running rule e e' matched _ hrun
      cases hrun
  | succ n ih => exact ih.succ hg

-- ============================================================================
-- Sessions
-- ============================================================================

theorem Ledger.recognize (hg : ∀ name, (g name).Plain bodyOf) (h : Ledger log [] e)
    (hsound : Sound s g bodyOf e) (hrule : rule.Plain bodyOf) {result : Except ParseError Match}
    (hrun : Engine.recognize g n rule e = .ok result e') (hfree : e'.depthHit = none) :
    Ledger (log ++ starts g n rule e.begun.pushed) [] e' := by
  have haccounted : Accounted s g bodyOf log [] rule e.begun.pushed :=
    ⟨hsound.begun.pushed, hrule, .nil _ _, h.silent ⟨rfl, rfl, rfl, rfl, rfl, rfl⟩⟩
  obtain ⟨e₁, ⟨hbody, hcommit, -⟩ | ⟨hbody, e₂, err, habandon, hfailure, -⟩⟩ :=
    recognizing_eq_ok hrun
  · have hfree₁ := Latches.commit.eq_none_of_ok hcommit hfree
    exact (keptUp hg n haccounted hbody hfree₁).commit hcommit fun hsome => absurd rfl hsome
  · have hfree₁ : e₂.depthHit = none := by
      rcases state_of_failure hfailure with rfl | rfl
      · exact hfree
      · exact hfree
    have hledger := (keptUp hg n haccounted hbody
      (Latches.abandon.eq_none_of_ok habandon hfree₁)).abandon habandon
    rcases state_of_failure hfailure with rfl | rfl
    · exact hledger
    · exact hledger.silent (.reach e₂ 1)

/-- Parsing an entry starts what its rule starts in the grammar of the session. -/
theorem starts_entry {embed : Nonterminal → ν}
    (hembed : ∀ name, g (embed name) = ListGrammar.rule embed name) (n : Nat) (entry : Entry)
    (e : Engine σ) :
    starts g n (entry.rule.rename embed) e = starts ListGrammar.grammar n entry.rule e :=
  starts_rename (fun name => (hembed name).trans (ListGrammar.rule_eq_rename embed name)) n _ e

theorem Ledger.recognizeEntry (hg : ∀ name, (g name).Plain bodyOf) (h : Ledger log [] e)
    (hsound : Sound s g bodyOf e) {entry : Entry} (hentry : (Step.parse entry).Over g bodyOf)
    {result : Except ParseError Match} (hrun : Engine.recognizeEntry n entry e = .ok result e')
    (hfree : e'.depthHit = none) :
    Ledger (log ++ starts ListGrammar.grammar n entry.rule e.begun.pushed) [] e' := by
  obtain ⟨embed, hembed⟩ := hentry
  rw [recognizeEntry_eq_of_rule hembed] at hrun
  rw [← starts_entry hembed]
  exact h.recognize hg hsound (entry.plain_rename embed) hrun hfree

omit [TokenSource σ] in
theorem Ledger.stackStep (h : Ledger log [] e) {step : StackStep}
    (hrun : Engine.stackStep step e = .ok () e') : Ledger log [] e' := by
  cases step with
  | openMark =>
      cases hrun
      exact h.silent (.pushed e)
  | abandon => exact h.abandon hrun
  | commit => exact h.commit hrun fun hsome => absurd rfl hsome
  | compact =>
      obtain ⟨-, -, rfl⟩ := compact_eq_ok hrun
      exact h.compacted

/-- Every step of a session keeps up the ledger. -/
theorem Ledger.perform (hg : ∀ name, (g name).Plain bodyOf) (h : Ledger log [] e)
    (hsound : Sound s g bodyOf e) {step : Step ν} (hstep : step.Over g bodyOf) {answer : Answer}
    (hrun : Engine.perform g n step e = .ok answer e') (hfree : e'.depthHit = none) :
    Ledger (log ++ stepStarts g n step e) [] e' := by
  cases step with
  | parse entry =>
      obtain ⟨result, hfirst⟩ := Run.exists_eq_ok_of_return hrun
      exact h.recognizeEntry hg hsound hstep hfirst hfree
  | tryParse entry =>
      obtain ⟨result, hfirst⟩ := Run.exists_eq_ok_of_return hrun
      exact h.recognizeEntry hg hsound hstep hfirst hfree
  | recognize rule =>
      obtain ⟨result, hfirst⟩ := Run.exists_eq_ok_of_return hrun
      exact h.recognize hg hsound hstep hfirst hfree
  | run rule =>
      obtain ⟨matched, hfirst⟩ := Run.exists_eq_ok_of_return hrun
      exact keptUp hg n ⟨hsound, hstep, .nil _ _, h⟩ hfirst hfree
  | stack step =>
      obtain ⟨⟨⟩, e₁, hfirst, hreturn⟩ := Run.bind_eq_ok_iff.1 hrun
      cases hreturn
      exact (h.stackStep hfirst).append_nil
  | kindAhead k | tokenAhead k =>
      obtain ⟨token, hfirst⟩ := Run.exists_eq_ok_of_return hrun
      exact (h.silent (.peek hfirst)).append_nil
  | tokensBetween start stop =>
      obtain ⟨tokens, hfirst⟩ := Run.exists_eq_ok_of_return hrun
      obtain ⟨-, -, -, rfl⟩ := slice_eq_ok hfirst
      exact h.append_nil
  | absolute pos =>
      obtain ⟨i, hfirst⟩ := Run.exists_eq_ok_of_return hrun
      rw [Upholds.absolute_eq_ok hfirst]
      exact h.append_nil
  | outcomeAt rule pos | tokenAt pos | settings =>
      cases hrun
      exact h.append_nil

/-- The states in between the steps of a session over plain rules that keeps outcomes and never
    hits the depth limit, each with the log of all bodies that were started so far. -/
inductive Logged (g : Grammar ν) (bodyOf : RuleId → Rule ν) (maxDepth : Nat) (s : σ) :
    List Start → Engine σ → Prop where
  | start : Logged g bodyOf maxDepth s [] (ofSource ⟨true, maxDepth⟩ s)
  | step {log : List Start} {e e' : Engine σ} {step : Step ν} {answer : Answer} (n : Nat)
      (h : Logged g bodyOf maxDepth s log e) (hstep : step.Over g bodyOf)
      (hrun : perform g n step e = .ok answer e') (hfree : e'.depthHit = none) :
      Logged g bodyOf maxDepth s (log ++ stepStarts g n step e) e'

variable {maxDepth : Nat}

theorem Logged.visited (h : Logged g bodyOf maxDepth s log e) : Visited s g bodyOf e := by
  induction h with
  | start => exact .start _
  | step n _ hstep hrun _ ih => exact ih.step n hstep hrun

theorem Logged.ledger (hg : ∀ name, (g name).Plain bodyOf) (h : Logged g bodyOf maxDepth s log e) :
    Ledger log [] e := by
  induction h with
  | start => exact ledger_ofSource maxDepth s
  | step n h hstep hrun hfree ih => exact ih.perform hg (h.visited.sound hg) hstep hrun hfree

omit [TokenSource σ] in
/-- What was started under an open mark was started once in its place, between two compactions. -/
theorem Ledger.count_le_one (h : Ledger log running e) (id : RuleId) (position epoch : Nat) :
    log.count ⟨id, position, epoch, true⟩ ≤ 1 := by
  have hcount := List.nodup_iff_count.1 h.once ⟨id, position, epoch, true⟩
  rwa [List.count_filter rfl] at hcount

/-- Bodies of memoized rules run at most once per place.  In a session over plain rules that keeps
    outcomes, whose runs end and never hit the depth limit, no body is started under an open mark
    twice in one place without a compaction in between; the lookups that found nothing are as many
    as these starts; and what is kept after a step is as much as was started since the last
    compaction.  A parse starts no body twice in one place. -/
theorem starts_once (hg : ∀ name, (g name).Plain bodyOf) (h : Logged g bodyOf maxDepth s log e) :
    (∀ id position epoch, log.count ⟨id, position, epoch, true⟩ ≤ 1) ∧
    e.memo.misses = (log.filter Start.speculating).length ∧
    e.memo.size = (e.recent log).length ∧
    (∀ id, e.runsOf id = log.countP fun x => x.rule = id) ∧
    ∀ n entry result e', (Step.parse entry).Over g bodyOf →
      recognizeEntry n entry e = .ok result e' → e'.depthHit = none →
      ∀ id position, (starts ListGrammar.grammar n entry.rule e.begun.pushed).countP
        (fun x => x.rule = id ∧ x.position = position) ≤ 1 := by
  have hledger := h.ledger hg
  have hsound := h.visited.sound hg
  refine ⟨hledger.count_le_one, hledger.misses, hledger.size, hledger.runs, ?_⟩
  intro n entry result e' hentry hrun hfree id position
  have hcount := (hledger.recognizeEntry hg hsound hentry hrun hfree).count_le_one id position
    e.compactions
  obtain ⟨embed, hembed⟩ := hentry
  -- All that a parse starts is started under its own mark, before it can compact.
  have hall : ∀ x ∈ starts ListGrammar.grammar n entry.rule e.begun.pushed,
      x.speculating = true ∧ x.epoch = e.compactions := by
    intro x hmem
    rw [← starts_entry hembed] at hmem
    exact starts_of_open hg (entry.plain_rename embed) hsound.begun.pushed
      (List.cons_ne_nil _ _) hmem
  have hsame : (starts ListGrammar.grammar n entry.rule e.begun.pushed).countP
      (fun x => x.rule = id ∧ x.position = position)
      = (starts ListGrammar.grammar n entry.rule e.begun.pushed).count
          ⟨id, position, e.compactions, true⟩ := by
    refine List.countP_congr fun x hmem => ?_
    obtain ⟨rule, position', epoch, speculating⟩ := x
    obtain ⟨hspeculating, hepoch⟩ := hall _ hmem
    subst hspeculating hepoch
    simp
  rw [List.count_append] at hcount
  omega

/-- A list that is read under an open mark, and then a statement from the same place.  The list
    is started once, and so are its elements, the statement and the assignment. -/
theorem starts_once_of_list :
    ∃ (log : List Start) (e : Engine TokenList),
      Logged ListGrammar.grammar (ListGrammar.bodyOf id) 4 strayName log e ∧
      (∀ id position epoch, log.count ⟨id, position, epoch, true⟩ ≤ 1) ∧
      e.memo.size = 4 ∧ (e.recent log).length = 4 ∧ (log.filter Start.speculating).length = 4 ∧
      (log.countP fun x => x.rule = Nonterminal.list.ruleId) = 1 := by
  have hrun : (match perform ListGrammar.grammar 40 (.run (.ref .list))
        (ofSource ⟨true, 4⟩ strayName).pushed with
      | .ok _ e =>
        e.depthHit.isNone &&
        match perform ListGrammar.grammar 0 (.stack .abandon) e with
        | .ok _ e =>
          e.depthHit.isNone &&
          match perform ListGrammar.grammar 40 (.parse .stat) e with
          | .ok _ e => e.depthHit.isNone && e.memo.size == 4 && e.memo.misses == 4 &&
              e.runsOf Nonterminal.list.ruleId == 1
          | .error _ _ => false
        | .error _ _ => false
      | .error _ _ => false) = true := by decide +kernel
  have hrule : Step.Over ListGrammar.grammar (ListGrammar.bodyOf id)
      (.run (.ref Nonterminal.list)) := ⟨trivial, trivial⟩
  have hmark : ∀ step, Step.Over ListGrammar.grammar (ListGrammar.bodyOf id)
      (.stack step) := fun _ => trivial
  have hparse : Step.Over ListGrammar.grammar (ListGrammar.bodyOf id) (.parse .stat) :=
    ⟨id, fun _ => rfl⟩
  split at hrun
  · next answer e₁ hlist =>
      rw [Bool.and_eq_true, Option.isNone_iff_eq_none] at hrun
      obtain ⟨hfree₁, hrun⟩ := hrun
      split at hrun
      · next answer e₂ hback =>
          rw [Bool.and_eq_true, Option.isNone_iff_eq_none] at hrun
          obtain ⟨hfree₂, hrun⟩ := hrun
          split at hrun
          · next answer e₃ hstat =>
              simp only [Bool.and_eq_true, Option.isNone_iff_eq_none, beq_iff_eq] at hrun
              obtain ⟨⟨⟨hfree₃, hsize⟩, hmisses⟩, hruns⟩ := hrun
              have hlogged := (((Logged.start.step 0 (hmark .openMark) rfl rfl).step 40 hrule
                hlist hfree₁).step 0 (hmark .abandon) hback hfree₂).step 40 hparse hstat hfree₃
              obtain ⟨honce, hmisses', hsize', hruns', -⟩ :=
                starts_once (ListGrammar.plain_rule (ListGrammar.bodyOf_ruleId id)) hlogged
              exact ⟨_, e₃, hlogged, honce, hsize, hsize'.symm.trans hsize,
                hmisses'.symm.trans hmisses, (hruns' _).symm.trans hruns⟩
          · cases hrun
      · cases hrun
  · cases hrun

end Engine
end Packrat
