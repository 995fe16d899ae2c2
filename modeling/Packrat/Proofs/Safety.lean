/-
  Packrat.Proofs.Safety

  Sessions do not fault.  From a coherent state a run of a rule ends in a fault
  only if its fuel runs out or if it looks so far ahead that no buffer has room
  for the token: no cursor moves past the buffered tokens, nothing is closed
  that is not open, and no tokens outside the buffer are copied out.  For what a
  combinator does besides running its parts never faults, so every fault comes
  from a rule that it comes to run (`exists_enters_of_error`).

  What holds between the steps of a session also holds within them: every rule
  that comes to run in the course of a step starts from a coherent state
  (`Comes`), and an outcome that is kept there is replayed with its mismatch.
-/

import Packrat.Proofs.Reach

namespace Packrat

variable {ν : Type}

/-- Every look ahead in the rule is at one of the distances. -/
def Rule.Looks (far : Nat → Prop) : Rule ν → Prop
  | .both first second | .either first second => first.Looks far ∧ second.Looks far
  | .negate rule | .attempt rule | .trail _ rule | .memo _ rule | .nested rule => rule.Looks far
  | .ahead k _ => far k
  | .token _ | .const _ | .ref _ | .stack _ => True

/-- The rule works on no marks, and looks ahead at the distances only. -/
structure Rule.Safe (far : Nat → Prop) (rule : Rule ν) : Prop where
  stackFree : rule.StackFree
  looks : rule.Looks far

theorem ListGrammar.safe_grammar (far : Nat → Prop) (name : Nonterminal) :
    (grammar name).Safe far := by
  refine ⟨Engine.stackFree_list name, ?_⟩
  cases name <;> simp [grammar, rule, thenEnd, nameElement, Rule.oneOf, Rule.anyOf,
    Rule.sequence, Rule.allOf, Rule.separated, Rule.optional, Rule.Looks]

theorem Entry.safe_rule (far : Nat → Prop) (entry : Entry) : entry.rule.Safe far := by
  refine ⟨entry.stackFree_rule, ?_⟩
  cases entry <;> simp [Entry.rule, ListGrammar.thenEnd, Rule.Looks]

/-- The fault says that the fuel ran out, or that a look from the cursor at one of the distances
    went where no buffer reaches. -/
def Fault.Excused (far : Nat → Prop) (cursor : Nat) (fault : Fault) : Prop :=
  fault = .exhausted ∨ fault = .overflow ∧ ∃ k, far k ∧ Machine.bufferLimit < cursor + k

namespace Engine

variable {σ : Type} [TokenSource σ] {s : σ} {far : Nat → Prop} {low : Nat}
variable {e e' : Engine σ} {g : Grammar ν}

-- ============================================================================
-- In the course of a run
-- ============================================================================

/-- Running the one rule from the one state comes to run the other next, from the other state
    and on one fuel less. -/
inductive Enters (g : Grammar ν) (n : Nat) :
    Rule ν → Engine σ → Rule ν → Engine σ → Prop where
  | first {a b : Rule ν} {e : Engine σ} : Enters g n (.both a b) e a e
  | second {a b : Rule ν} {e e' : Engine σ} (h : eval g n a e = .ok true e') :
      Enters g n (.both a b) e b e'
  | left {a b : Rule ν} {e : Engine σ} : Enters g n (.either a b) e a e
  | right {a b : Rule ν} {e e' : Engine σ} (h : eval g n a e = .ok false e') :
      Enters g n (.either a b) e b e'
  | negate {rule : Rule ν} {e : Engine σ} : Enters g n (.negate rule) e rule e
  | attempt {rule : Rule ν} {e : Engine σ} : Enters g n (.attempt rule) e rule e.pushed
  | element {delimiter : Kind} {element : Rule ν} {e e₁ e₂ : Engine σ}
      (h : atDelimiter delimiter e = .ok true e₁) (h' : matchKind delimiter e₁ = .ok true e₂) :
      Enters g n (.trail delimiter element) e element e₂
  | again {delimiter : Kind} {element : Rule ν} {e e₁ e₂ e₃ : Engine σ}
      (h : atDelimiter delimiter e = .ok true e₁) (h' : matchKind delimiter e₁ = .ok true e₂)
      (h'' : eval g n element e₂ = .ok true e₃) :
      Enters g n (.trail delimiter element) e (.trail delimiter element) e₃
  | plain {id : RuleId} {body : Rule ν} {e : Engine σ}
      (h : (e.settings.memoize && e.isSpeculating) = false) :
      Enters g n (.memo id body) e body (e.counted id).pushed
  | new {id : RuleId} {body : Rule ν} {e : Engine σ}
      (h : (e.settings.memoize && e.isSpeculating) = true)
      (h' : e.memo.get? id e.buffer.cursor = none) :
      Enters g n (.memo id body) e body (e.fresh id).pushed
  | nested {body : Rule ν} {e : Engine σ} (h : e.depth < e.settings.maxDepth) :
      Enters g n (.nested body) e body { e with depth := e.depth + 1 }
  | ref {name : ν} {e : Engine σ} : Enters g n (.ref name) e (g name) e

/-- Running the one rule on that fuel from the one state comes to run the other, sooner or later,
    from the other state. -/
inductive Comes (g : Grammar ν) : Nat → Rule ν → Engine σ → Rule ν → Engine σ → Prop where
  | here {n : Nat} {rule : Rule ν} {e : Engine σ} : Comes g n rule e rule e
  | next {n : Nat} {rule rule' rule'' : Rule ν} {e e' e'' : Engine σ}
      (h : Enters g n rule e rule' e') (h' : Comes g n rule' e' rule'' e'') :
      Comes g (n + 1) rule e rule'' e''

/-- In the course of the step a rule comes to run from that state. -/
inductive During (g : Grammar ν) (n : Nat) (e : Engine σ) : Step ν → Engine σ → Prop where
  | parse {entry : Entry} {rule : Rule Nonterminal} {f : Engine σ}
      (h : Comes ListGrammar.grammar n entry.rule e.begun.pushed rule f) :
      During g n e (.parse entry) f
  | tryParse {entry : Entry} {rule : Rule Nonterminal} {f : Engine σ}
      (h : Comes ListGrammar.grammar n entry.rule e.begun.pushed rule f) :
      During g n e (.tryParse entry) f
  | recognize {rule rule' : Rule ν} {f : Engine σ}
      (h : Comes g n rule e.begun.pushed rule' f) : During g n e (.recognize rule) f
  | run {rule rule' : Rule ν} {f : Engine σ} (h : Comes g n rule e rule' f) :
      During g n e (.run rule) f

/-- What a coherent run comes to run starts from a coherent state, and works on no marks. -/
theorem Coherent.enters (h : Coherent s low e) (hg : ∀ name, (g name).StackFree) {n : Nat}
    {rule rule' : Rule ν} (hrule : rule.StackFree) (henters : Enters g n rule e rule' e') :
    (∃ low', Coherent s low' e') ∧ rule'.StackFree := by
  have hup : ∀ {rule : Rule ν}, rule.StackFree → Upholds s (eval g n rule : Run σ Bool) :=
    .eval hg n
  cases henters with
  | first => exact ⟨⟨low, h⟩, hrule.1⟩
  | second hrun => exact ⟨⟨low, hup hrule.1 _ _ _ _ h hrun⟩, hrule.2⟩
  | left => exact ⟨⟨low, h⟩, hrule.1⟩
  | right hrun => exact ⟨⟨low, hup hrule.1 _ _ _ _ h hrun⟩, hrule.2⟩
  | negate => exact ⟨⟨low, h⟩, hrule⟩
  | attempt => exact ⟨⟨low, h.pushed⟩, hrule⟩
  | element hat hmatch =>
      have h₁ := Upholds.atDelimiter _ _ _ _ _ h hat
      exact ⟨⟨low, Upholds.matchKind _ _ _ _ _ h₁ hmatch⟩, hrule⟩
  | @again _ element _ _ _ _ hat hmatch hrun =>
      have helement : element.StackFree := hrule
      have h₁ := Upholds.atDelimiter _ _ _ _ _ h hat
      have h₂ := Upholds.matchKind _ _ _ _ _ h₁ hmatch
      exact ⟨⟨low, hup helement _ _ _ _ h₂ hrun⟩, hrule⟩
  | plain _ => exact ⟨⟨low, (h.counted _).pushed⟩, hrule⟩
  | new _ _ => exact ⟨⟨_, (h.fresh _).pushed⟩, hrule⟩
  | nested _ => exact ⟨⟨low, h.same rfl rfl (fun _ _ => rfl) rfl rfl⟩, hrule⟩
  | ref => exact ⟨⟨low, h⟩, hg _⟩

theorem Coherent.comes (h : Coherent s low e) (hg : ∀ name, (g name).StackFree) {n : Nat}
    {rule rule' : Rule ν} (hrule : rule.StackFree) (hcomes : Comes g n rule e rule' e') :
    ∃ low', Coherent s low' e' := by
  induction hcomes generalizing low with
  | here => exact ⟨low, h⟩
  | next henters _ ih =>
      obtain ⟨⟨low', h'⟩, hrule'⟩ := h.enters hg hrule henters
      exact ih h' hrule'

theorem Coherent.during (h : Coherent s low e) (hg : ∀ name, (g name).StackFree) {n : Nat}
    {step : Step ν} (hstep : step.StackFree) (hduring : During g n e step e') :
    ∃ low', Coherent s low' e' := by
  cases hduring with
  | parse hcomes => exact h.begun.pushed.comes stackFree_list (Entry.stackFree_rule _) hcomes
  | tryParse hcomes => exact h.begun.pushed.comes stackFree_list (Entry.stackFree_rule _) hcomes
  | recognize hcomes => exact h.begun.pushed.comes hg hstep hcomes
  | run hcomes => exact h.comes hg hstep hcomes

-- ============================================================================
-- Where faults come from
-- ============================================================================

section
variable {matched : Bool} {fault : Fault} {body : Run σ Bool}

theorem Coherent.takeKind_ok (h : Coherent s low e) (kind : Kind) :
    ∃ matched e', takeKind kind e = .ok matched e' := by
  by_cases hkind : (TokenSource.stream s e.buffer.position).kind = kind
  · exact ⟨true, _, takeKind_of_eq h.window hkind⟩
  · exact ⟨false, _, takeKind_of_ne h.window hkind⟩

theorem Coherent.atDelimiter_ok (h : Coherent s low e) (kind : Kind) :
    ∃ matched e', atDelimiter kind e = .ok matched e' := by
  by_cases hkind : (TokenSource.stream s e.buffer.position).kind = kind
  · exact ⟨true, _, atDelimiter_of_eq h.window hkind⟩
  · exact ⟨false, _, atDelimiter_of_ne h.window hkind⟩

theorem Coherent.noteDepthHit_ok (h : Coherent s low e) : ∃ e', noteDepthHit e = .ok () e' := by
  cases hhit : e.depthHit with
  | some hit => exact ⟨_, noteDepthHit_of_some hhit⟩
  | none => exact ⟨_, noteDepthHit_of_none h.window hhit⟩

theorem Coherent.failure_ok (h : Coherent s low e) : ∃ err e', Engine.failure e = .ok err e' := by
  cases hhit : e.depthHit with
  | some hit => exact ⟨_, _, failure_of_hit hhit⟩
  | none =>
      cases hfurthest : e.furthest with
      | some m => exact ⟨_, _, failure_of_mismatch hhit hfurthest⟩
      | none => exact ⟨_, _, failure_of_none h.window hhit hfurthest⟩

/-- Looks fault only at no distance and beyond every buffer. -/
theorem Coherent.error_of_peek (h : Coherent s low e) {k : Nat}
    (hrun : peek k e = .error fault e') :
    k = 0 ∧ fault = .zeroDistance ∨
      fault = .overflow ∧ Machine.bufferLimit < e.buffer.cursor + k ∧ e' = e := by
  by_cases hk : k = 0
  · rw [hk, peek_zero] at hrun
    cases hrun
    exact .inl ⟨hk, rfl⟩
  · by_cases hlimit : e.buffer.cursor + k ≤ Machine.bufferLimit
    · rw [peek_eq h.window (Nat.pos_of_ne_zero hk) hlimit] at hrun
      cases hrun
    · rw [peek_of_far hk (Nat.lt_of_not_le hlimit)] at hrun
      cases hrun
      exact .inr ⟨rfl, Nat.lt_of_not_le hlimit, rfl⟩

/-- A speculation faults only as its body does: the body leaves the mark where it was, so it can
    be closed. -/
theorem Coherent.error_of_speculate (h : Coherent s low e) (hsteady : Steady body)
    (hup : Upholds s body) (hrun : speculate body e = .error fault e') :
    body e.pushed = .error fault e' := by
  rw [speculate_eq] at hrun
  rcases Run.bind_eq_error_iff.1 hrun with hfirst | ⟨matched, e₁, hrun₁, hrest⟩
  · exact hfirst
  · have hmarks : e₁.speculation.marks = e.buffer.cursor :: e.speculation.marks :=
      (hsteady _ _ _ hrun₁).balanced.marks
    obtain ⟨e₂, hclose⟩ := (hup _ _ _ _ h.pushed hrun₁).close_eq hmarks matched
    rw [Run.bind_of_ok hclose] at hrest
    cases hrest

theorem Coherent.matchKind_ok (h : Coherent s low e) (kind : Kind) :
    ∃ matched e', matchKind kind e = .ok matched e' := by
  cases hrun : matchKind kind e with
  | ok matched e' => exact ⟨matched, e', rfl⟩
  | error fault e' =>
      have hbody := h.error_of_speculate (.takeKind kind) (.takeKind kind) hrun
      obtain ⟨matched, e₁, hok⟩ := h.pushed.takeKind_ok kind
      rw [hok] at hbody
      cases hbody

/-- A rule through its memo faults only as its body does, where that runs at all. -/
theorem Coherent.error_of_memoized (h : Coherent s low e) {id : RuleId} (hsteady : Steady body)
    (hup : Upholds s body) (hrun : memoized id body e = .error fault e') :
    (e.settings.memoize && e.isSpeculating) = false ∧
      body (e.counted id).pushed = .error fault e' ∨
    (e.settings.memoize && e.isSpeculating) = true ∧ e.memo.get? id e.buffer.cursor = none ∧
      body (e.fresh id).pushed = .error fault e' := by
  cases huses : e.settings.memoize && e.isSpeculating with
  | false =>
      rw [memoized_of_plain huses] at hrun
      exact .inl ⟨rfl, (h.counted id).error_of_speculate hsteady hup hrun⟩
  | true =>
      cases hget : e.memo.get? id e.buffer.cursor with
      | some outcome =>
          obtain ⟨matched, e₁, hreplay, -⟩ :=
            h.replayOutcome hget fun id' pos => Memo.get?_snd_lookup e.memo id id' _ pos
          rw [memoized_of_kept huses hget, hreplay] at hrun
          cases hrun
      | none =>
          rw [memoized_of_new huses hget] at hrun
          rcases Run.bind_eq_error_iff.1 hrun with hfirst | ⟨matched, e₁, -, hrest⟩
          · exact .inr ⟨rfl, rfl, (h.fresh id).error_of_speculate hsteady hup hfirst⟩
          · rw [Run.bind_of_ok (keepOutcome_eq ..)] at hrest
            cases hrest

/-- A rule a level deeper faults only as its body does, where that runs at all. -/
theorem Coherent.error_of_nested (h : Coherent s low e)
    (hrun : nested body e = .error fault e') :
    e.depth < e.settings.maxDepth ∧ body { e with depth := e.depth + 1 } = .error fault e' := by
  by_cases hdeep : e.settings.maxDepth ≤ e.depth
  · obtain ⟨e₁, hnote⟩ := h.noteDepthHit_ok
    rw [nested_of_le hdeep, Run.bind_of_ok hnote] at hrun
    cases hrun
  · have hlt := Nat.lt_of_not_le hdeep
    rw [nested_of_lt hlt] at hrun
    rcases Run.bind_eq_error_iff.1 hrun with hfirst | ⟨matched, e₁, -, hrest⟩
    · exact ⟨hlt, hfirst⟩
    · cases hrest

/-- A rule that runs out of nothing itself faults only in a look ahead of its own, or as a rule
    does that it comes to run. -/
theorem Coherent.exists_enters_of_error (h : Coherent s low e) (hg : ∀ name, (g name).StackFree)
    {n : Nat} {rule : Rule ν} (hrule : rule.StackFree)
    (hrun : eval g (n + 1) rule e = .error fault e') :
    (∃ k kind, rule = .ahead k kind ∧ peek k e = .error fault e') ∨
      ∃ rule' e₁, Enters g n rule e rule' e₁ ∧ eval g n rule' e₁ = .error fault e' := by
  have hsteady : ∀ {rule : Rule ν}, rule.StackFree → Steady (eval g n rule : Run σ Bool) :=
    .eval hg n
  have hup : ∀ {rule : Rule ν}, rule.StackFree → Upholds s (eval g n rule : Run σ Bool) :=
    .eval hg n
  cases rule with
  | token kind =>
      obtain ⟨matched, e₁, hok⟩ := h.matchKind_ok kind
      have hmatch : matchKind kind e = .error fault e' := hrun
      rw [hok] at hmatch
      cases hmatch
  | const answer => cases hrun
  | both first second =>
      refine .inr ?_
      rcases Run.bind_eq_error_iff.1 hrun with hfirst | ⟨matched, e₁, hfirst, hrest⟩
      · exact ⟨first, e, .first, hfirst⟩
      · cases matched with
        | true => exact ⟨second, e₁, .second hfirst, hrest⟩
        | false => cases hrest
  | either first second =>
      refine .inr ?_
      rcases Run.bind_eq_error_iff.1 hrun with hfirst | ⟨matched, e₁, hfirst, hrest⟩
      · exact ⟨first, e, .left, hfirst⟩
      · cases matched with
        | true => cases hrest
        | false => exact ⟨second, e₁, .right hfirst, hrest⟩
  | negate rule =>
      refine .inr ?_
      rcases Run.bind_eq_error_iff.1 hrun with hfirst | ⟨matched, e₁, -, hreturn⟩
      · exact ⟨rule, e, .negate, hfirst⟩
      · cases hreturn
  | attempt rule =>
      have hbody : rule.StackFree := hrule
      exact .inr ⟨rule, _, .attempt, h.error_of_speculate (hsteady hbody) (hup hbody) hrun⟩
  | trail delimiter element =>
      refine .inr ?_
      obtain ⟨at', e₁, hat⟩ := h.atDelimiter_ok delimiter
      have hrest : _ = EStateM.Result.error fault e' := (Run.bind_of_ok hat).symm.trans hrun
      cases at' with
      | false => cases hrest
      | true =>
          have h₁ := Upholds.atDelimiter _ _ _ _ _ h hat
          obtain ⟨matched, e₂, hmatch⟩ := h₁.matchKind_ok delimiter
          have hrest : _ = EStateM.Result.error fault e' :=
            (Run.bind_of_ok hmatch).symm.trans hrest
          cases matched with
          | false => cases hrest
          | true =>
              rcases Run.bind_eq_error_iff.1 hrest with hfirst | ⟨matched, e₃, hfirst, hrest⟩
              · exact ⟨element, e₂, .element hat hmatch, hfirst⟩
              · cases matched with
                | true => exact ⟨_, e₃, .again hat hmatch hfirst, hrest⟩
                | false => cases hrest
  | memo id body =>
      have hbody : body.StackFree := hrule
      refine .inr ?_
      obtain ⟨huses, hrun₁⟩ | ⟨huses, hget, hrun₁⟩ :=
        h.error_of_memoized (hsteady hbody) (hup hbody) hrun
      · exact ⟨body, _, .plain huses, hrun₁⟩
      · exact ⟨body, _, .new huses hget, hrun₁⟩
  | nested body =>
      obtain ⟨hlt, hrun₁⟩ := h.error_of_nested hrun
      exact .inr ⟨body, _, .nested hlt, hrun₁⟩
  | ref name => exact .inr ⟨g name, e, .ref, hrun⟩
  | ahead k kind =>
      rcases Run.bind_eq_error_iff.1 hrun with hfirst | ⟨token, e₁, -, hreturn⟩
      · exact .inl ⟨k, kind, rfl, hfirst⟩
      · cases hreturn
  | stack step => exact hrule.elim

/-- A recognition faults only as its body does: what the body took lies in the buffer, behind
    the mark of the recognition. -/
theorem Coherent.error_of_recognizing (h : Coherent s low e) (hsteady : Steady body)
    (hup : Upholds s body) (hrun : Engine.recognizing body e = .error fault e') :
    body e.begun.pushed = .error fault e' := by
  cases hrun₁ : body e.begun.pushed with
  | error fault₁ e₁ =>
      rw [recognizing_eq, Run.bind_of_error hrun₁] at hrun
      cases hrun
      rfl
  | ok matched e₁ =>
      have h₁ := hup _ _ _ _ h.begun.pushed hrun₁
      have htidy := hsteady _ _ _ hrun₁
      cases matched with
      | true =>
          obtain ⟨e₂, -, hmatch⟩ := h₁.recognizing_of_match htidy hrun₁
          rw [hmatch] at hrun
          cases hrun
      | false =>
          have habandoned : Coherent s low (e₁.abandoned e.buffer.cursor e.speculation.marks) :=
            h₁.abandoned htidy.balanced.marks
          obtain ⟨err, e₂, hfailure⟩ := habandoned.failure_ok
          rw [h₁.recognizing_of_mismatch htidy hrun₁, Run.bind_of_ok hfailure] at hrun
          cases hrun

end

-- ============================================================================
-- Faults of safe rules
-- ============================================================================

/-- What a safe rule comes to run is safe. -/
theorem Rule.Safe.of_enters (hg : ∀ name, (g name).Safe far) {n : Nat} {rule rule' : Rule ν}
    (h : rule.Safe far) (henters : Enters g n rule e rule' e') : rule'.Safe far := by
  obtain ⟨hfree, hlooks⟩ := h
  cases henters with
  | first => exact ⟨hfree.1, hlooks.1⟩
  | second => exact ⟨hfree.2, hlooks.2⟩
  | left => exact ⟨hfree.1, hlooks.1⟩
  | right => exact ⟨hfree.2, hlooks.2⟩
  | ref => exact hg _
  | _ => exact ⟨hfree, hlooks⟩

/-- A look at one of the distances faults only if it goes too far ahead. -/
theorem Coherent.excused_of_peek (h : Coherent s low e) (hfar : ∀ k, far k → k ≠ 0) {k : Nat}
    (hk : far k) {fault : Fault} (hrun : peek k e = .error fault e') :
    fault.Excused far e'.buffer.cursor := by
  obtain ⟨hzero, -⟩ | ⟨hfault, hlimit, rfl⟩ := h.error_of_peek hrun
  · exact absurd hzero (hfar k hk)
  · exact .inr ⟨hfault, k, hk, hlimit⟩

/-- A safe rule faults only for want of fuel or in a look too far ahead. -/
theorem Coherent.excused_of_eval (h : Coherent s low e) (hfar : ∀ k, far k → k ≠ 0)
    (hg : ∀ name, (g name).Safe far) {n : Nat} {rule : Rule ν} (hrule : rule.Safe far)
    {fault : Fault} (hrun : eval g n rule e = .error fault e') :
    fault.Excused far e'.buffer.cursor := by
  have hfree : ∀ name, (g name).StackFree := fun name => (hg name).stackFree
  induction n generalizing rule e low with
  | zero =>
      cases hrun
      exact .inl rfl
  | succ n ih =>
      obtain ⟨k, kind, rfl, hpeek⟩ | ⟨rule', e₁, henters, hrun₁⟩ :=
        h.exists_enters_of_error hfree hrule.stackFree hrun
      · have hk : far k := hrule.looks
        exact h.excused_of_peek hfar hk hpeek
      · obtain ⟨⟨low', h₁⟩, -⟩ := h.enters hfree hrule.stackFree henters
        exact ih h₁ (Rule.Safe.of_enters hg hrule henters) hrun₁

theorem Coherent.excused_of_recognize (h : Coherent s low e) (hfar : ∀ k, far k → k ≠ 0)
    (hg : ∀ name, (g name).Safe far) {n : Nat} {rule : Rule ν} (hrule : rule.Safe far)
    {fault : Fault} (hrun : recognize g n rule e = .error fault e') :
    fault.Excused far e'.buffer.cursor := by
  have hfree : ∀ name, (g name).StackFree := fun name => (hg name).stackFree
  exact h.begun.pushed.excused_of_eval hfar hg hrule
    (h.error_of_recognizing (.eval hfree n hrule.stackFree) (.eval hfree n hrule.stackFree) hrun)

-- ============================================================================
-- Sessions
-- ============================================================================

/-- Buffer, marks, memo and counters fit together. -/
structure WellFormed (e : Engine σ) : Prop where
  cursor_le : e.buffer.cursor ≤ e.buffer.size
  pulled_eq : e.buffer.pulled = e.buffer.base + e.buffer.size
  /-- The innermost mark comes first. -/
  marks : e.speculation.marks.Pairwise (· ≥ ·)
  newest_le : ∀ mark ∈ e.speculation.marks.head?, mark ≤ e.buffer.cursor
  stops : ∀ id pos stop point, e.memo.get? id pos = some (.parsed stop point) →
    pos ≤ stop ∧ stop ≤ e.buffer.size
  points : ∀ id pos outcome p, e.memo.get? id pos = some outcome → outcome.furthest = some p →
    e.buffer.base ≤ p.position ∧ p.position < e.buffer.base + e.buffer.size
  counts : e.speculation.opens
    = e.speculation.abandons + e.speculation.commits + e.speculation.depth

/-- A rule whose outcome is kept for this place is answered from the memo, and the mismatch that
    is kept with the outcome is noted again, with the token that the buffer has there. -/
def Replays (e : Engine σ) : Prop :=
  ∀ (id : RuleId) (body : Run σ Bool) (outcome : Outcome),
    (e.settings.memoize && e.isSpeculating) = true →
    e.memo.get? id e.buffer.cursor = some outcome →
    ∃ matched e', memoized id body e = .ok matched e' ∧
      ∀ p, outcome.furthest = some p → ∃ found,
        e.buffer.get? (p.position - e.buffer.base) = some found ∧
        e'.furthest = some (Mismatch.furthest e.furthest ⟨p.position, found, p.expected⟩)

theorem Coherent.wellFormed (h : Coherent s low e) : e.WellFormed where
  cursor_le := h.window.cursor_le
  pulled_eq := h.window.pulled_eq
  marks := (List.pairwise_cons.1 h.marks).2
  newest_le _ hmem := h.mark_le (List.mem_of_mem_head? hmem)
  stops := h.stops
  points id pos outcome p hget hp := by
    rw [← h.window.pulled_eq]
    exact h.points id pos outcome p hget hp
  counts := h.counts

theorem Coherent.replays (h : Coherent s low e) : e.Replays := by
  intro id body outcome huses hget
  obtain ⟨matched, e', hreplay, -, hfurthest⟩ :=
    h.replayOutcome hget fun id' pos => Memo.get?_snd_lookup e.memo id id' _ pos
  refine ⟨matched, e', by rw [memoized_of_kept huses hget, hreplay], fun p hp => ?_⟩
  obtain ⟨hbase, hpulled⟩ := h.points id _ outcome p hget hp
  rw [h.window.pulled_eq] at hpulled
  refine ⟨TokenSource.stream s p.position, ?_, ?_⟩
  · rw [h.window.get?_eq _ (by omega), Nat.add_sub_cancel' hbase]
  · rw [hfurthest, hp]
    rfl

end Engine

/-- The caller of a session may take the step where the engine stands: rules are safe, marks are
    closed only while something is open, the buffer is emptied only if it may be, and looks ahead
    are at the distances. -/
def Step.Allowed {σ : Type} (far : Nat → Prop) (e : Engine σ) : Step ν → Prop
  | .recognize rule | .run rule => rule.Safe far
  | .stack .abandon | .stack .commit => e.isSpeculating = true
  | .stack .compact => e.canCompact = true
  | .kindAhead k | .tokenAhead k => far k
  | .tokensBetween _ _ | .absolute _ => False
  | .parse _ | .tryParse _ | .stack .openMark | .outcomeAt _ _ | .tokenAt _ | .settings => True

theorem Step.Allowed.stackFree {σ : Type} {far : Nat → Prop} {e : Engine σ} {step : Step ν}
    (h : step.Allowed far e) : step.StackFree := by
  cases step with
  | recognize rule => exact Rule.Safe.stackFree h
  | run rule => exact Rule.Safe.stackFree h
  | _ => trivial

namespace Engine

variable {σ : Type} [TokenSource σ] {s : σ} {far : Nat → Prop} {low : Nat}
variable {e e' : Engine σ} {g : Grammar ν}

omit [TokenSource σ] in
theorem exists_mark_of_isSpeculating (h : e.isSpeculating = true) :
    ∃ mark marks, e.speculation.marks = mark :: marks := by
  cases hmarks : e.speculation.marks with
  | nil => simp [isSpeculating, Speculation.isEmpty, hmarks] at h
  | cons mark marks => exact ⟨mark, marks, rfl⟩

/-- An allowed step ends in no other fault than an excused one. -/
theorem Coherent.excused_of_perform (h : Coherent s low e) (hfar : ∀ k, far k → k ≠ 0)
    (hg : ∀ name, (g name).Safe far) {n : Nat} {step : Step ν} (hstep : step.Allowed far e)
    {fault : Fault} (hrun : perform g n step e = .error fault e') :
    fault.Excused far e'.buffer.cursor := by
  have hanswer : ∀ {α β : Type} {m : Run σ α} {f : α → β},
      (m e = .error fault e' → fault.Excused far e'.buffer.cursor) →
      (do return f (← m) : Run σ β) e = .error fault e' → fault.Excused far e'.buffer.cursor := by
    intro α β m f hm hrun
    rcases Run.bind_eq_error_iff.1 hrun with hfirst | ⟨a, e₁, -, hreturn⟩
    · exact hm hfirst
    · cases hreturn
  have hentry : ∀ entry : Entry, recognizeEntry n entry e = .error fault e' →
      fault.Excused far e'.buffer.cursor := fun entry =>
    h.excused_of_recognize hfar (ListGrammar.safe_grammar far) (entry.safe_rule far)
  cases step with
  | parse entry => exact hanswer (hentry entry) hrun
  | tryParse entry => exact hanswer (hentry entry) hrun
  | recognize rule => exact hanswer (h.excused_of_recognize hfar hg hstep) hrun
  | run rule => exact hanswer (h.excused_of_eval hfar hg hstep) hrun
  | kindAhead k => exact hanswer (h.excused_of_peek hfar hstep) hrun
  | tokenAhead k => exact hanswer (h.excused_of_peek hfar hstep) hrun
  | outcomeAt rule pos => cases hrun
  | tokenAt pos => cases hrun
  | settings => cases hrun
  | tokensBetween start stop => exact hstep.elim
  | absolute pos => exact hstep.elim
  | stack step =>
      cases step with
      | openMark => cases hrun
      | abandon =>
          obtain ⟨mark, marks, hmarks⟩ := exists_mark_of_isSpeculating hstep
          obtain ⟨e₁, hclose⟩ := h.close_eq hmarks false
          have hopen : perform g n (.stack .abandon) e = .ok .done e₁ := Run.bind_of_ok hclose
          rw [hopen] at hrun
          cases hrun
      | commit =>
          obtain ⟨mark, marks, hmarks⟩ := exists_mark_of_isSpeculating hstep
          obtain ⟨e₁, hclose⟩ := h.close_eq hmarks true
          have hopen : perform g n (.stack .commit) e = .ok .done e₁ := Run.bind_of_ok hclose
          rw [hopen] at hrun
          cases hrun
      | compact =>
          have hcompact : compact e = .ok () e.compacted := if_pos hstep
          have hempty : perform g n (.stack .compact) e = .ok .done e.compacted :=
            Run.bind_of_ok hcompact
          rw [hempty] at hrun
          cases hrun

/-- In a session of allowed steps over safe rules buffer, marks, memo and counters fit together
    before and after every step and wherever a rule comes to run within one; a mismatch that is
    kept with an outcome is never lost there; and a step ends in a fault only if its fuel runs
    out or if it looks ahead to where no buffer reaches. -/
theorem reachable_safe (hfar : ∀ k, far k → k ≠ 0) (hg : ∀ name, (g name).Safe far)
    (h : Reachable g (Step.Allowed far) s e) :
    e.WellFormed ∧
    (∀ n step f, Step.Allowed far e step → During g n e step f → f.WellFormed ∧ f.Replays) ∧
    ∀ n step fault e', Step.Allowed far e step → perform g n step e = .error fault e' →
      fault.Excused far e'.buffer.cursor := by
  have hfree : ∀ name, (g name).StackFree := fun name => (hg name).stackFree
  have hcoherent : Coherent s 0 e := h.coherent hfree fun _ _ => Step.Allowed.stackFree
  refine ⟨hcoherent.wellFormed, ?_, ?_⟩
  · intro n step f hstep hduring
    obtain ⟨low, hf⟩ := hcoherent.during hfree hstep.stackFree hduring
    exact ⟨hf.wellFormed, hf.replays⟩
  · intro n step fault e' hstep hrun
    exact hcoherent.excused_of_perform hfar hg hstep hrun

/-- The tokens of `[a]=[b]`. -/
def twoLists : TokenList :=
  .ofKinds [(.lbracket, "["), (.name, "a"), (.rbracket, "]"), (.equals, "="),
    (.lbracket, "["), (.name, "b"), (.rbracket, "]")]

/-- A list that was read under an open mark, so that its outcome is kept. -/
theorem reachable_safe_of_lists :
    ∃ e, Reachable ListGrammar.grammar (Step.Allowed (· = 2)) twoLists e ∧
      e.isSpeculating = true ∧ 0 < e.memo.size ∧ e.WellFormed := by
  have hrun : (match perform ListGrammar.grammar 40 (.run (.ref .list))
        (ofSource ⟨true, 4⟩ twoLists).pushed with
      | .ok _ e => e.isSpeculating && decide (0 < e.memo.size)
      | .error _ _ => false) = true := by decide +kernel
  split at hrun
  · next answer e hlist =>
      rw [Bool.and_eq_true, decide_eq_true_eq] at hrun
      have hmark : Step.Allowed (ν := Nonterminal) (· = 2) (ofSource ⟨true, 4⟩ twoLists)
          (.stack .openMark) := trivial
      have hopen : Reachable ListGrammar.grammar (Step.Allowed (· = 2)) twoLists
          (ofSource ⟨true, 4⟩ twoLists).pushed := .step 0 (.start ⟨true, 4⟩) hmark rfl
      have hrule : Step.Allowed (· = 2) (ofSource ⟨true, 4⟩ twoLists).pushed
          (.run (.ref Nonterminal.list)) := ⟨trivial, trivial⟩
      have hreachable : Reachable ListGrammar.grammar (Step.Allowed (· = 2)) twoLists e :=
        .step 40 hopen hrule hlist
      exact ⟨e, hreachable, hrun.1, hrun.2, (reachable_safe (by simp)
        (ListGrammar.safe_grammar _) hreachable).1⟩
  · cases hrun

/-- A look ahead may fault, if it goes far enough. -/
theorem far_look_faults :
    ¬∀ e : Engine TokenList, Reachable ListGrammar.grammar (Step.Allowed (· ≠ 0)) twoLists e →
      ∀ n step fault e', Step.Allowed (· ≠ 0) e step →
        perform ListGrammar.grammar n step e = .error fault e' → fault = .exhausted := by
  intro hnone
  have hfar : peek (2 ^ 64 - 1) (ofSource ⟨true, 4⟩ twoLists)
      = .error .overflow (ofSource ⟨true, 4⟩ twoLists) :=
    peek_of_far (by decide) (by decide)
  have hrun : perform ListGrammar.grammar 0 (.tokenAhead (2 ^ 64 - 1))
      (ofSource ⟨true, 4⟩ twoLists) = .error .overflow (ofSource ⟨true, 4⟩ twoLists) :=
    Run.bind_of_error hfar
  have hallowed : Step.Allowed (ν := Nonterminal) (· ≠ 0) (ofSource ⟨true, 4⟩ twoLists)
      (.tokenAhead (2 ^ 64 - 1)) := by
    show (2 ^ 64 - 1 : Nat) ≠ 0
    decide
  cases hnone _ (.start ⟨true, 4⟩) 0 _ _ _ hallowed hrun

end Engine
end Packrat
