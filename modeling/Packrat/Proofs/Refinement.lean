/-
  Packrat.Proofs.Refinement

  A session is plain backtracking.  Wherever a session over plain rules stands,
  whatever it keeps and whatever is open, a recognition that the depth limit
  plays no part in makes of its rule what backtracking makes of it: the tokens
  that were read, or an error about the furthest of all mismatches.

  All that a session keeps can be trusted, step by step (`Trusting.perform`);
  the body of a recognition then tracks backtracking, and the rest of the
  recognition reads off where the body led and what it noted.
-/

import Mathlib.Algebra.Group.Nat.Defs
import Packrat.Proofs.OwnRules
import Packrat.Proofs.Reach
import Packrat.Proofs.Tracking

namespace Packrat

variable {ν : Type}

/-- The step runs plain rules of the grammar only.  Parsing an entry runs rules of the list
    language, so it counts if the grammar has these. -/
def Step.Over (g : Grammar ν) (bodyOf : RuleId → Rule ν) : Step ν → Prop
  | .recognize rule | .run rule => rule.Plain bodyOf
  | .parse _ | .tryParse _ =>
      ∃ embed : Nonterminal → ν, ∀ name, g (embed name) = ListGrammar.rule embed name
  | .stack _ | .kindAhead _ | .tokenAhead _ | .outcomeAt _ _ | .tokenAt _ | .tokensBetween _ _
  | .absolute _ | .settings => True

theorem Step.Over.stackFree {g : Grammar ν} {bodyOf : RuleId → Rule ν} {step : Step ν}
    (h : step.Over g bodyOf) : step.StackFree := by
  cases step with
  | recognize rule => exact Rule.Plain.stackFree h
  | run rule => exact Rule.Plain.stackFree h
  | _ => trivial

/-- The error gathers the mismatches of a search that started at token `i`: it stands at the
    furthest of them and expects what was expected there; without a mismatch it stands at the
    start and expects nothing. -/
structure SyntaxError.Gathers (t : Nat → Token) (i : Nat) (misses : List (Nat × Kind))
    (err : SyntaxError) : Prop where
  le : ∀ miss ∈ misses, miss.1 ≤ err.position
  mem : misses ≠ [] → ∃ kind, (err.position, kind) ∈ misses
  start : misses = [] → err.position = i
  expected : ∀ kind, err.expected.contains kind = true ↔ (err.position, kind) ∈ misses
  found : err.found = (t err.position).kind
  lexeme : err.lexeme = (t err.position).text
  span : err.span = (t err.position).span

theorem SyntaxError.Gathers.of_noted {t : Nat → Token} {misses : List (Nat × Kind)} {m : Mismatch}
    (h : Mismatch.noted t misses = some m) (i : Nat) :
    (SyntaxError.ofToken m.position m.found m.expected).Gathers t i misses := by
  have hfound : m.found = t m.position := Mismatch.onStream_noted t misses m h
  exact {
    le := fun _ hmem => Mismatch.le_position_noted h hmem
    mem := fun _ => Mismatch.position_noted_mem h
    start := by
      rintro rfl
      cases h
    expected := Mismatch.contains_noted h
    found := congrArg Token.kind hfound
    lexeme := congrArg Token.text hfound
    span := congrArg Token.span hfound }

theorem SyntaxError.Gathers.nil (t : Nat → Token) (i : Nat) :
    (SyntaxError.ofToken i (t i) .empty).Gathers t i [] where
  le _ hmem := nomatch hmem
  mem hne := absurd rfl hne
  start _ := rfl
  expected kind := by simp [SyntaxError.ofToken, KindSet.contains_empty]
  found := rfl
  lexeme := rfl
  span := rfl

/-- What a recognition from token `i` makes of a reading of its rule: it returns the tokens that
    were read and goes behind them, or it reports the mismatches and stays. -/
def Reading.Recognized (r : Reading Bool) (t : Nat → Token) (i : Nat) (matched : Bool)
    (result : Except ParseError Match) (position : Nat) : Prop :=
  match matched with
  | true => result = .ok ⟨i, stretch t i r.stop⟩ ∧ position = r.stop
  | false => position = i ∧ ∃ err, result = .error (.syntaxError err) ∧ err.Gathers t i r.misses

namespace Engine

variable {σ : Type} [TokenSource σ] {s : σ} {g : Grammar ν} {bodyOf : RuleId → Rule ν}
variable {low : Nat} {e e' : Engine σ}

-- ============================================================================
-- What a session keeps
-- ============================================================================

/-- A recognition keeps only what can be trusted. -/
theorem Trusting.recognize (ht : Trusting s g bodyOf e) (hc : Coherent s low e)
    (hg : ∀ name, (g name).Plain bodyOf) {n : Nat} {rule : Rule ν} (hrule : rule.Plain bodyOf)
    {result : Except ParseError Match} (hrun : recognize g n rule e = .ok result e') :
    Trusting s g bodyOf e' := by
  have htracks := Tracks.eval hg n hrule low _ hc.begun.pushed
    (ht.same rfl (Nat.le_refl _) fun _ _ => rfl)
  obtain ⟨e₁, ⟨hbody, hcommit, -⟩ | ⟨hbody, e₂, err, habandon, hfailure, -⟩⟩ :=
    recognizing_eq_ok hrun
  · rw [hbody] at htracks
    exact htracks.1.of_commit hcommit
  · rw [hbody] at htracks
    have ht₂ := htracks.1.of_abandon habandon
    rcases state_of_failure hfailure with rfl | rfl
    · exact ht₂
    · exact ht₂.reach 1 rfl fun _ _ => rfl

theorem Trusting.peek (ht : Trusting s g bodyOf e) {k : Nat} {token : Token}
    (hrun : Engine.peek k e = .ok token e') : Trusting s g bodyOf e' := by
  rw [peek_eq_ok hrun]
  exact ht.reach k rfl fun _ _ => rfl

theorem Trusting.stackStep (ht : Trusting s g bodyOf e) {step : StackStep}
    (hrun : Engine.stackStep step e = .ok () e') : Trusting s g bodyOf e' := by
  cases step with
  | openMark =>
      cases hrun
      exact ht.same rfl (Nat.le_refl _) fun _ _ => rfl
  | abandon => exact ht.of_abandon hrun
  | commit => exact ht.of_commit hrun
  | compact =>
      obtain ⟨-, -, rfl⟩ := compact_eq_ok hrun
      exact .compacted

/-- Every step of a session over plain rules keeps only what can be trusted. -/
theorem Trusting.perform (ht : Trusting s g bodyOf e) (hc : Coherent s low e)
    (hg : ∀ name, (g name).Plain bodyOf) {n : Nat} {step : Step ν} (hstep : step.Over g bodyOf)
    {answer : Answer} (hrun : Engine.perform g n step e = .ok answer e') :
    Trusting s g bodyOf e' := by
  have hentry : ∀ (entry : Entry) (result : Except ParseError Match) (e₁ : Engine σ),
      (∃ embed : Nonterminal → ν, ∀ name, g (embed name) = ListGrammar.rule embed name) →
      recognizeEntry n entry e = .ok result e₁ → Trusting s g bodyOf e₁ := by
    rintro entry result e₁ ⟨embed, hembed⟩ hentry
    rw [recognizeEntry_eq_of_rule hembed] at hentry
    exact ht.recognize hc hg (entry.plain_rename embed) hentry
  cases step with
  | parse entry =>
      obtain ⟨result, hfirst⟩ := Run.exists_eq_ok_of_return hrun
      exact hentry entry result _ hstep hfirst
  | tryParse entry =>
      obtain ⟨result, hfirst⟩ := Run.exists_eq_ok_of_return hrun
      exact hentry entry result _ hstep hfirst
  | recognize rule =>
      obtain ⟨result, hfirst⟩ := Run.exists_eq_ok_of_return hrun
      exact ht.recognize hc hg hstep hfirst
  | run rule =>
      obtain ⟨matched, hfirst⟩ := Run.exists_eq_ok_of_return hrun
      have htracks := Tracks.eval hg n hstep low e hc ht
      rw [hfirst] at htracks
      exact htracks.1
  | stack step =>
      obtain ⟨⟨⟩, e₁, hfirst, hreturn⟩ := Run.bind_eq_ok_iff.1 hrun
      cases hreturn
      exact ht.stackStep hfirst
  | kindAhead k =>
      obtain ⟨token, hfirst⟩ := Run.exists_eq_ok_of_return hrun
      exact ht.peek hfirst
  | tokenAhead k =>
      obtain ⟨token, hfirst⟩ := Run.exists_eq_ok_of_return hrun
      exact ht.peek hfirst
  | tokensBetween start stop =>
      obtain ⟨tokens, hfirst⟩ := Run.exists_eq_ok_of_return hrun
      obtain ⟨-, -, -, rfl⟩ := slice_eq_ok hfirst
      exact ht
  | absolute pos =>
      obtain ⟨i, hfirst⟩ := Run.exists_eq_ok_of_return hrun
      rw [Upholds.absolute_eq_ok hfirst]
      exact ht
  | outcomeAt rule pos =>
      cases hrun
      exact ht
  | tokenAt pos =>
      cases hrun
      exact ht
  | settings =>
      cases hrun
      exact ht

/-- In every state of a session over plain rules all kept outcomes can be trusted. -/
theorem Reachable.trusting (hg : ∀ name, (g name).Plain bodyOf)
    (h : Reachable g (fun _ => Step.Over g bodyOf) s e) : Trusting s g bodyOf e := by
  induction h with
  | start settings => exact trusting_ofSource settings
  | step n hreach hstep hrun ih =>
      exact ih.perform (hreach.coherent (stackFree_of_plain hg) fun _ _ => Step.Over.stackFree)
        hg hstep hrun

-- ============================================================================
-- Recognitions
-- ============================================================================

/-- Without a hit of the depth limit the mismatches that were noted are reported. -/
theorem failure_gathers (hwindow : e.buffer.IsWindow s) (hhit : e.depthHit = none)
    {misses : List (Nat × Kind)}
    (hfurthest : e.furthest = Mismatch.noted (TokenSource.stream s) misses) :
    ∃ err e', failure e = .ok (.syntaxError err) e' ∧
      err.Gathers (TokenSource.stream s) e.buffer.position misses ∧
      e'.buffer.position = e.buffer.position := by
  cases hnoted : Mismatch.noted (TokenSource.stream s) misses with
  | some m =>
      rw [hnoted] at hfurthest
      exact ⟨_, e, failure_of_mismatch hhit hfurthest, .of_noted hnoted _, rfl⟩
  | none =>
      obtain rfl : misses = [] :=
        Classical.not_not.1 fun hne => Mismatch.noted_ne_none hne hnoted
      rw [hnoted] at hfurthest
      refine ⟨_, _, failure_of_none hwindow hhit hfurthest, .nil _ _, ?_⟩
      simp [Lookahead.position, Lookahead.reach]

/-- Where the depth limit plays no part, the body of a recognition comes to what backtracking
    comes to. -/
theorem led_of_backtrack (hg : ∀ name, (g name).Plain bodyOf) (hc : Coherent s low e)
    (ht : Trusting s g bodyOf e) {rule : Rule ν} (hrule : rule.Plain bodyOf) {n : Nat}
    {r : Reading Bool} {matched : Bool}
    (hread : (groundFrom s g e.buffer.base).backtrack n rule e.buffer.position = r)
    (hends : r.result = .ok matched)
    (hfree : (Run.final (eval g n rule e.begun.pushed)).depthHit = none) :
    ∃ e₁, eval g n rule e.begun.pushed = .ok matched e₁ ∧ Led s e.begun.pushed r e₁ := by
  have htracks := Tracks.eval hg n hrule low e.begun.pushed hc.begun.pushed
    (ht.same rfl (Nat.le_refl _) fun _ _ => rfl)
  have hopen : e.begun.pushed.speculation.marks ≠ [] := List.cons_ne_nil _ _
  cases hrun : eval g n rule e.begun.pushed with
  | error fault e₁ =>
      rw [hrun] at htracks hfree
      obtain ⟨⟨fault', hfault⟩, -⟩ := htracks hopen hfree
      have hfault' : r.result = .error fault' := hread ▸ hfault
      cases hends.symm.trans hfault'
  | ok answer e₁ =>
      rw [hrun] at htracks hfree
      obtain ⟨r', hyields, hr', hled⟩ := htracks.2 hopen hfree
      have hend : ((groundFrom s g e.buffer.base).backtrack n rule e.buffer.position).result
          ≠ .error .exhausted := by
        rw [hread, hends]
        simp
      obtain rfl : r = r' :=
        hread.symm.trans ((Ground.firm_backtrack _ rule).of_yields hend hyields)
      obtain rfl : matched = answer := Except.ok.inj (hends.symm.trans hr')
      exact ⟨e₁, rfl, hled⟩

/-- The depth limit is not hit in the body of a recognition if it is not hit in all of it. -/
theorem final_body_eq_none {body : Run σ Bool}
    (hfree : (Run.final (recognizing body e)).depthHit = none) :
    (Run.final (body e.begun.pushed)).depthHit = none := by
  rw [recognizing_eq] at hfree
  exact Latches.final_eq_none_of_bind (latches_conclusion _ _) hfree

/-- From a coherent state whose outcomes can be trusted, a recognition makes of its rule what
    backtracking makes of it. -/
theorem recognize_of_backtrack (hg : ∀ name, (g name).Plain bodyOf) (hc : Coherent s low e)
    (ht : Trusting s g bodyOf e) {rule : Rule ν} (hrule : rule.Plain bodyOf) {n : Nat}
    {r : Reading Bool} {matched : Bool}
    (hread : (groundFrom s g e.buffer.base).backtrack n rule e.buffer.position = r)
    (hends : r.result = .ok matched)
    (hfree : (Run.final (recognize g n rule e)).depthHit = none) :
    ∃ result e', recognize g n rule e = .ok result e' ∧
      r.Recognized (TokenSource.stream s) e.buffer.position matched result e'.buffer.position := by
  have hstack := stackFree_of_plain hg
  have hfree₁ := final_body_eq_none hfree
  obtain ⟨e₁, hrun, hled⟩ := led_of_backtrack hg hc ht hrule hread hends hfree₁
  rw [hrun] at hfree₁
  have htidy := Steady.eval hstack n hrule.stackFree _ _ _ hrun
  have hc₁ := Upholds.eval hstack n hrule.stackFree _ _ _ _ hc.begun.pushed hrun
  cases matched with
  | true =>
      obtain ⟨e', hcommit, hrecognizing⟩ := hc₁.recognizing_of_match htidy hrun
      rw [hled.position] at hrecognizing
      exact ⟨_, e', hrecognizing, rfl, (position_of_commit hcommit).trans hled.position⟩
  | false =>
      have hfurthest : e₁.furthest = Mismatch.noted (TokenSource.stream s) r.misses :=
        hled.furthest.trans (Mismatch.none_join _)
      have hbase : e₁.buffer.base = e.buffer.base := (htidy.grown (List.cons_ne_nil _ _)).base
      have hback : (e₁.abandoned e.buffer.cursor e.speculation.marks).buffer.position
          = e.buffer.position := by
        simp [abandoned, Lookahead.position, hbase]
      have hwindow : (e₁.abandoned e.buffer.cursor e.speculation.marks).buffer.IsWindow s :=
        (hc₁.abandoned htidy.balanced.marks).window
      obtain ⟨err, e', hfailure, hgathers, hposition⟩ := failure_gathers hwindow hfree₁ hfurthest
      rw [hback] at hgathers hposition
      refine ⟨.error (.syntaxError err), e', ?_, hposition, err, rfl, hgathers⟩
      rw [recognize, hc₁.recognizing_of_mismatch htidy hrun]
      exact Run.bind_of_ok hfailure

/-- In every state of a session over plain rules, whatever the settings, a recognition of a
    plain rule makes of it what backtracking makes of it, if backtracking ends and the depth
    limit is not hit in this recognition.  Any fuel does that suffices for backtracking. -/
theorem recognize_refines (hg : ∀ name, (g name).Plain bodyOf)
    (h : Reachable g (fun _ => Step.Over g bodyOf) s e) {rule : Rule ν}
    (hrule : rule.Plain bodyOf) {n m : Nat} (hle : n ≤ m) {r : Reading Bool} {matched : Bool}
    (hread : (groundFrom s g e.buffer.base).backtrack n rule e.buffer.position = r)
    (hends : r.result = .ok matched)
    (hfree : (Run.final (recognize g m rule e)).depthHit = none) :
    ∃ result e', recognize g m rule e = .ok result e' ∧
      r.Recognized (TokenSource.stream s) e.buffer.position matched result e'.buffer.position := by
  have hcoherent : Coherent s 0 e :=
    h.coherent (stackFree_of_plain hg) fun _ _ => Step.Over.stackFree
  have hmore : (groundFrom s g e.buffer.base).backtrack m rule e.buffer.position = r := by
    rw [← hread]
    refine Ground.firm_backtrack _ rule n m e.buffer.position ?_ hle
    show ((groundFrom s g e.buffer.base).backtrack n rule e.buffer.position).result ≠ _
    rw [hread, hends]
    simp
  exact recognize_of_backtrack hg hcoherent (h.trusting hg) hrule hmore hends hfree

/-- The tokens of `[a] b`. -/
def strayName : TokenList :=
  .ofKinds [(.lbracket, "["), (.name, "a"), (.rbracket, "]"), (.name, "b")]

/-- A session that read a list under a mark and went back, so that the outcome is at hand. -/
theorem exists_list_kept :
    ∃ e, Reachable ListGrammar.grammar
        (fun _ => Step.Over ListGrammar.grammar (ListGrammar.bodyOf id)) strayName e ∧
      0 < e.memo.size ∧ e.buffer.base = 0 ∧ e.buffer.position = 0 ∧
      (Run.final (recognize ListGrammar.grammar 40 (.ref .stat) e)).depthHit = none := by
  have hrun : (match perform ListGrammar.grammar 40 (.run (.ref .list))
        (ofSource ⟨true, 4⟩ strayName).pushed with
      | .ok _ e =>
        match perform ListGrammar.grammar 0 (.stack .abandon) e with
        | .ok _ e => decide (0 < e.memo.size) && e.buffer.base == 0 && e.buffer.position == 0 &&
            (Run.final (recognize ListGrammar.grammar 40 (.ref .stat) e)).depthHit == none
        | .error _ _ => false
      | .error _ _ => false) = true := by decide +kernel
  split at hrun
  · next answer e₁ hlist =>
      split at hrun
      · next answer' e hback =>
          simp only [Bool.and_eq_true, decide_eq_true_eq, beq_iff_eq] at hrun
          obtain ⟨⟨⟨hsize, hbase⟩, hposition⟩, hfree⟩ := hrun
          have hrule : Step.Over ListGrammar.grammar (ListGrammar.bodyOf id)
              (.run (.ref Nonterminal.list)) := ⟨trivial, trivial⟩
          have hmark : ∀ step, Step.Over ListGrammar.grammar (ListGrammar.bodyOf id)
              (.stack step) := fun _ => trivial
          have hopen : Reachable ListGrammar.grammar
              (fun _ => Step.Over ListGrammar.grammar (ListGrammar.bodyOf id)) strayName
              (ofSource ⟨true, 4⟩ strayName).pushed :=
            .step 0 (.start ⟨true, 4⟩) (hmark .openMark) rfl
          exact ⟨e, .step 0 (.step 40 hopen hrule hlist) (hmark .abandon) hback, hsize, hbase,
            hposition, hfree⟩
      · cases hrun
  · cases hrun

/-- A statement that fails behind a list whose outcome is at hand. -/
theorem recognize_refines_of_kept :
    ∃ (e e' : Engine TokenList) (err : SyntaxError), Reachable ListGrammar.grammar
        (fun _ => Step.Over ListGrammar.grammar (ListGrammar.bodyOf id)) strayName e ∧
      0 < e.memo.size ∧
      recognize ListGrammar.grammar 40 (.ref .stat) e = .ok (.error (.syntaxError err)) e' ∧
      err.Gathers (TokenSource.stream strayName) 0
        ((groundFrom strayName ListGrammar.grammar 0).backtrack 40 (.ref .stat) 0).misses := by
  have hrun : (match ((groundFrom strayName ListGrammar.grammar 0).backtrack 40
        (.ref .stat) 0).result with
      | .ok matched => !matched
      | .error _ => false) = true := by decide +kernel
  have hread : ((groundFrom strayName ListGrammar.grammar 0).backtrack 40 (.ref .stat) 0).result
      = .ok false := by
    split at hrun
    · next matched heq => simpa [heq] using hrun
    · cases hrun
  have hrule : (Rule.ref Nonterminal.stat).Plain (ListGrammar.bodyOf id) := ⟨trivial, trivial⟩
  obtain ⟨e, hreachable, hsize, hbase, hposition, hfree⟩ := exists_list_kept
  obtain ⟨result, e', hrecognize, hrecognized⟩ :=
    recognize_refines (ListGrammar.plain_rule (ListGrammar.bodyOf_ruleId id)) hreachable hrule
      (Nat.le_refl 40) rfl (by rw [hbase, hposition]; exact hread) hfree
  rw [hbase, hposition] at hrecognized
  obtain ⟨-, err, rfl, hgathers⟩ := hrecognized
  exact ⟨e, e', err, hreachable, hsize, hrecognize, hgathers⟩

end Engine

-- ============================================================================
-- What is not plain about it
-- ============================================================================

/-- The rule with the bodies of its memoized rules in place of these. -/
def Rule.unkept : Rule ν → Rule ν
  | .both first second => .both first.unkept second.unkept
  | .either first second => .either first.unkept second.unkept
  | .negate rule => .negate rule.unkept
  | .attempt rule => .attempt rule.unkept
  | .trail delimiter element => .trail delimiter element.unkept
  | .memo _ body => body.unkept
  | .nested body => .nested body.unkept
  | rule => rule

namespace Engine

/-- A grammar without names. -/
def noRules : Grammar Empty := fun name => nomatch name

/-- Matches where no name and comma follow; a pair that is run as it is leaves the name taken. -/
def noPair : Rule Empty := .negate (.memo ⟨"pair"⟩ (.both (.token .name) (.token .comma)))

/-- The token of `a`. -/
def oneName : TokenList := .ofKinds [(.name, "a")]

/-- Nothing but the tail. -/
def noTokens : TokenList := .ofKinds []

theorem kind_stream_noTokens (i : Nat) : (TokenSource.stream noTokens i).kind = .eof := by
  rw [noTokens, TokenList.ofKinds, TokenList.stream_ofTokens]
  rfl

/-- A recognition that looks too far ahead faults, whatever there is to see. -/
theorem recognize_of_far {σ : Type} [TokenSource σ] {e : Engine σ} (g : Grammar ν) (n : Nat)
    {k : Nat} (hk : k ≠ 0) (hfar : Machine.bufferLimit < e.buffer.cursor + k) (kind : Kind) :
    recognize g (n + 1) (.ahead k kind) e = .error .overflow e.begun.pushed := by
  have hpeek : peek k e.begun.pushed = .error .overflow e.begun.pushed := peek_of_far hk hfar
  have hbody : eval g (n + 1) (.ahead k kind) e.begun.pushed = .error .overflow e.begun.pushed :=
    Run.bind_of_error hpeek
  rw [recognize, recognizing_eq, Run.bind_of_error hbody]

/-- Two things that the engine does not do: it does not run memoized rules as they are, since a
    body that fails is rewound, and it does not look ahead beyond what a buffer holds. -/
theorem not_recognized_unkept :
    (∃ result e', recognize noRules 4 noPair (ofSource ⟨true, 1024⟩ oneName) = .ok result e' ∧
      e'.depthHit = none ∧
      ((groundFrom oneName noRules 0).backtrack 4 noPair.unkept 0).result = .ok true ∧
      ¬((groundFrom oneName noRules 0).backtrack 4 noPair.unkept 0).Recognized
        (TokenSource.stream oneName) 0 true result e'.buffer.position) ∧
    ∃ e', recognize noRules 1 (.ahead (2 ^ 64 - 1) .eof) (ofSource ⟨true, 1024⟩ noTokens)
        = .error .overflow e' ∧
      e'.depthHit = none ∧
      ((Ground.mk (TokenSource.stream noTokens) noRules 0 (2 ^ 64)).backtrack 1
        (.ahead (2 ^ 64 - 1) .eof) 0).result = .ok true := by
  constructor
  · have hrun : (match recognize noRules 4 noPair (ofSource ⟨true, 1024⟩ oneName) with
        | .ok _ e => e.buffer.position == 0 && e.depthHit == none
        | .error _ _ => false) = true := by decide +kernel
    have hread : (match ((groundFrom oneName noRules 0).backtrack 4 noPair.unkept 0).result with
        | .ok matched => matched
        | .error _ => false) = true := by decide +kernel
    have hstop : ((groundFrom oneName noRules 0).backtrack 4 noPair.unkept 0).stop = 1 := by
      decide +kernel
    split at hrun
    · next result e' hrecognize =>
        simp only [Bool.and_eq_true, beq_iff_eq] at hrun
        obtain ⟨hposition, hhit⟩ := hrun
        split at hread
        · next matched heq =>
            refine ⟨result, e', hrecognize, hhit, by rw [heq, hread], ?_⟩
            rintro ⟨-, hmoved⟩
            rw [hposition, hstop] at hmoved
            cases hmoved
        · cases hread
    · cases hrun
  · -- An endless stream has a token at any distance.
    have hlook : ∀ k, k ≠ 0 → k ≤ 2 ^ 64 → ((Ground.mk (TokenSource.stream noTokens) noRules 0
        (2 ^ 64)).lookAhead k .eof 0).result = .ok true := by
      intro k hk hle
      have hnear : 0 + k ≤ 2 ^ 64 := by omega
      rw [Ground.lookAhead_of_near _ hk hnear, kind_stream_noTokens]
      rfl
    exact ⟨_, recognize_of_far noRules 0 (by decide) (by decide) .eof, rfl,
      hlook _ (by decide) (by decide)⟩

end Engine
end Packrat
