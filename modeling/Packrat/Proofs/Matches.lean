/-
  Packrat.Proofs.Matches

  What recognitions return is what the source handed out.

  A recognition that matches returns the stretch of the stream between the
  cursor before it and the cursor after it, in every state that a session can
  be in (`Coherent.returns_stretch`).  One that is rejected leaves the cursor
  where it was, and so do the steps between recognitions but for an abandon.
  So without an abandon each match starts where the one before it stopped
  (`Consecutive`), and the matches of a session together are the beginning of
  the stream.
-/

import Packrat.Proofs.Reach

namespace Packrat

/-- The match that an answer carries. -/
def Answer.match? : Answer → Option Match
  | .result (.ok found) => some found
  | _ => none

namespace Step

variable {ν : Type}

/-- Whatever tokens the step goes past, it returns them in a match, and it goes past none twice. -/
def Forward : Step ν → Prop
  | .tryParse _ | .run _ | .stack .abandon => False
  | .parse _ | .recognize _ | .stack .openMark | .stack .commit | .stack .compact | .kindAhead _
  | .tokenAhead _ | .outcomeAt _ _ | .tokenAt _ | .tokensBetween _ _ | .absolute _
  | .settings => True

end Step

-- ============================================================================
-- Matches one after the other
-- ============================================================================

namespace Match

variable {t : Nat → Token} {start stop : Nat}

/-- The first match starts at `start`, each other one where the one before it stops, and the last
    one stops at `stop`. -/
def Consecutive : Nat → List Match → Nat → Prop
  | start, [], stop => start = stop
  | start, found :: rest, stop => found.start = start ∧ Consecutive found.stop rest stop

/-- The tokens of the match are those of the stream with the same numbers. -/
def IsStretch (t : Nat → Token) (found : Match) : Prop :=
  found.tokens = stretch t found.start found.stop

theorem start_le_stop (found : Match) : found.start ≤ found.stop := Nat.le_add_right _ _

theorem isStretch_of_le (hle : start ≤ stop) : IsStretch t ⟨start, stretch t start stop⟩ := by
  have hstop : Match.stop ⟨start, stretch t start stop⟩ = stop := by
    simp only [Match.stop, Match.length, length_stretch]
    omega
  rw [IsStretch, hstop]

theorem IsStretch.getElem {found : Match} (h : found.IsStretch t) {i : Nat}
    (hi : i < found.tokens.length) : found.tokens[i] = t (found.start + i) := by
  have hlen : i < found.stop - found.start := by
    simp only [Match.stop, Match.length]
    omega
  apply Option.some.inj
  rw [← List.getElem?_eq_getElem hi, h, getElem?_stretch t hlen]

theorem Consecutive.le {founds : List Match} (h : Consecutive start founds stop) :
    start ≤ stop := by
  induction founds generalizing start with
  | nil => exact Nat.le_of_eq h
  | cons found rest ih =>
      obtain ⟨rfl, hrest⟩ := h
      exact Nat.le_trans found.start_le_stop (ih hrest)

theorem Consecutive.append {founds founds' : List Match} {mid : Nat}
    (h : Consecutive start founds mid) (h' : Consecutive mid founds' stop) :
    Consecutive start (founds ++ founds') stop := by
  induction founds generalizing start with
  | nil =>
      obtain rfl : start = mid := h
      exact h'
  | cons found rest ih => exact ⟨h.1, ih h.2⟩

/-- Put together, consecutive matches leave out no token, and have none twice. -/
theorem Consecutive.flatMap_tokens {founds : List Match} (h : Consecutive start founds stop)
    (hfounds : ∀ found ∈ founds, found.IsStretch t) :
    founds.flatMap Match.tokens = stretch t start stop := by
  induction founds generalizing start with
  | nil =>
      obtain rfl : start = stop := h
      exact (stretch_self t start).symm
  | cons found rest ih =>
      obtain ⟨rfl, hrest⟩ := h
      have hfound : found.tokens = stretch t found.start found.stop := hfounds found (by simp)
      have htail := ih hrest fun other hmem => hfounds other (List.mem_cons_of_mem _ hmem)
      rw [List.flatMap_cons, htail, hfound, stretch_append t found.start_le_stop hrest.le]

end Match

namespace Engine

variable {σ ν : Type} [TokenSource σ] {s : σ} {low : Nat} {e e' : Engine σ} {g : Grammar ν}

-- ============================================================================
-- One recognition
-- ============================================================================

theorem Restored.position (h : Restored e e') : e'.buffer.position = e.buffer.position := by
  obtain ⟨n, hn⟩ := h.buffer
  rw [hn]
  simp [Lookahead.position]

/-- A match holds the tokens between the cursor before the recognition and the cursor after it. -/
theorem Coherent.returns_stretch (h : Coherent s low e) {body : Run σ Bool}
    (hsteady : Steady body) (hbody : Upholds s body) {found : Match}
    (hrun : Engine.recognizing body e = .ok (.ok found) e') :
    found.start = e.buffer.position ∧ found.IsStretch (TokenSource.stream s) ∧
      e'.buffer.position = found.stop := by
  obtain ⟨e₁, ⟨hrun₁, -, hle, -, -⟩ | ⟨-, _, _, -, -, hresult⟩⟩ := recognizing_eq_ok hrun
  · have htidy := hsteady _ _ _ hrun₁
    have h₁ := hbody _ _ _ _ h.begun.pushed hrun₁
    obtain ⟨e₂, hcommit, hmatch⟩ := h₁.recognizing_of_match htidy hrun₁
    rw [hmatch] at hrun
    cases hrun
    have hbase : e₁.buffer.base = e.buffer.base := (htidy.grown (List.cons_ne_nil _ _)).base
    have hposition : e.buffer.position ≤ e₁.buffer.position := by
      simp only [Lookahead.position, hbase]
      omega
    refine ⟨rfl, Match.isStretch_of_le hposition, ?_⟩
    rw [position_of_commit hcommit]
    simp only [Match.stop, Match.length, length_stretch]
    omega
  · cases hresult

-- ============================================================================
-- One step of a session
-- ============================================================================

/-- A step that returns `answer` goes past the tokens of the match that it returns, and past none
    if it returns no match. -/
structure Accounts (s : σ) (e : Engine σ) (answer : Answer) (e' : Engine σ) : Prop where
  consecutive : Match.Consecutive e.buffer.position answer.match?.toList e'.buffer.position
  isStretch : ∀ found ∈ answer.match?.toList, found.IsStretch (TokenSource.stream s)

theorem Accounts.still {answer : Answer} (hanswer : answer.match? = none)
    (hposition : e'.buffer.position = e.buffer.position) : Accounts s e answer e' := by
  refine ⟨?_, ?_⟩ <;> rw [hanswer]
  · exact hposition.symm
  · intro found hmem
    cases hmem

theorem Coherent.accounts_recognizing (h : Coherent s low e) {body : Run σ Bool}
    (hsteady : Steady body) (hbody : Upholds s body) {answer : Answer}
    (hrun : (do return .result (← Engine.recognizing body) : Run σ Answer) e = .ok answer e') :
    Accounts s e answer e' := by
  obtain ⟨result, e₁, hrun₁, hreturn⟩ := Run.bind_eq_ok_iff.1 hrun
  cases hreturn
  cases result with
  | ok found =>
      obtain ⟨hstart, hstretch, hstop⟩ := h.returns_stretch hsteady hbody hrun₁
      refine ⟨⟨hstart, hstop.symm⟩, ?_⟩
      simpa [Answer.match?] using hstretch
  | error err =>
      have hrestored : Restored e e' := (hsteady.close_recognizing hrun₁).2 err rfl
      exact .still rfl hrestored.position

omit [TokenSource σ] in
theorem position_of_stackStep {step : StackStep} (hstep : step ≠ .abandon)
    (hrun : stackStep step e = .ok () e') : e'.buffer.position = e.buffer.position := by
  cases step with
  | openMark =>
      cases hrun
      rfl
  | abandon => exact absurd rfl hstep
  | commit => exact position_of_commit hrun
  | compact =>
      obtain ⟨-, hend, rfl⟩ := compact_eq_ok hrun
      show e.buffer.base + e.buffer.size = e.buffer.base + e.buffer.cursor
      rw [hend]

theorem position_of_peek {k : Nat} {token : Token} (hrun : peek k e = .ok token e') :
    e'.buffer.position = e.buffer.position := by
  rw [peek_eq_ok hrun]
  exact Lookahead.position_reach _ _

/-- Every step that goes forward accounts for the tokens that it went past. -/
theorem Coherent.accounts (hg : ∀ name, (g name).StackFree) (h : Coherent s low e) (n : Nat)
    {step : Step ν} (hstep : step.StackFree) (hforward : step.Forward) {answer : Answer}
    (hrun : perform g n step e = .ok answer e') : Accounts s e answer e' := by
  cases step with
  | parse entry =>
      have hfree := entry.stackFree_rule
      exact h.accounts_recognizing (.eval stackFree_list n hfree) (.eval stackFree_list n hfree)
        hrun
  | recognize rule =>
      have hfree : rule.StackFree := hstep
      exact h.accounts_recognizing (.eval hg n hfree) (.eval hg n hfree) hrun
  | tryParse entry => exact hforward.elim
  | run rule => exact hforward.elim
  | stack step =>
      have hkeeps : step ≠ .abandon := by
        rintro rfl
        exact hforward
      obtain ⟨⟨⟩, e₁, hrun₁, hreturn⟩ := Run.bind_eq_ok_iff.1 hrun
      cases hreturn
      exact .still rfl (position_of_stackStep hkeeps hrun₁)
  | kindAhead k =>
      obtain ⟨token, e₁, hrun₁, hreturn⟩ := Run.bind_eq_ok_iff.1 hrun
      cases hreturn
      exact .still rfl (position_of_peek hrun₁)
  | tokenAhead k =>
      obtain ⟨token, e₁, hrun₁, hreturn⟩ := Run.bind_eq_ok_iff.1 hrun
      cases hreturn
      exact .still rfl (position_of_peek hrun₁)
  | outcomeAt rule pos =>
      cases hrun
      exact .still rfl rfl
  | tokenAt pos =>
      cases hrun
      exact .still rfl rfl
  | settings =>
      cases hrun
      exact .still rfl rfl
  | tokensBetween start stop =>
      obtain ⟨tokens, e₁, hrun₁, hreturn⟩ := Run.bind_eq_ok_iff.1 hrun
      cases hreturn
      obtain ⟨-, -, -, rfl⟩ := slice_eq_ok hrun₁
      exact .still rfl rfl
  | absolute pos =>
      obtain ⟨i, e₁, hrun₁, hreturn⟩ := Run.bind_eq_ok_iff.1 hrun
      cases hreturn
      rw [Upholds.absolute_eq_ok hrun₁]
      exact .still rfl rfl

/-- Only recognitions return results. -/
theorem forward_of_result {n : Nat} {step : Step ν} {result : Except ParseError Match}
    (hrun : perform g n step e = .ok (.result result) e') : step.Forward := by
  cases step with
  | tryParse entry =>
      obtain ⟨_, e₁, -, hreturn⟩ := Run.bind_eq_ok_iff.1 hrun
      cases hreturn
  | run rule =>
      obtain ⟨_, e₁, -, hreturn⟩ := Run.bind_eq_ok_iff.1 hrun
      cases hreturn
  | stack step =>
      obtain ⟨_, e₁, -, hreturn⟩ := Run.bind_eq_ok_iff.1 hrun
      cases hreturn
  | parse entry => trivial
  | recognize rule => trivial
  | kindAhead k => trivial
  | tokenAhead k => trivial
  | outcomeAt rule pos => trivial
  | tokenAt pos => trivial
  | tokensBetween start stop => trivial
  | absolute pos => trivial
  | settings => trivial

-- ============================================================================
-- Sessions
-- ============================================================================

/-- The matches among the answers of a session, in order. -/
def matchesOf (transcript : List (Except Fault Answer × Engine σ)) : List Match :=
  transcript.filterMap fun x => x.1.toOption.bind Answer.match?

omit [TokenSource σ] in
theorem matchesOf_cons (answer : Answer) (e : Engine σ)
    (transcript : List (Except Fault Answer × Engine σ)) :
    matchesOf ((.ok answer, e) :: transcript) = answer.match?.toList ++ matchesOf transcript := by
  cases hfound : answer.match? with
  | none => simp [matchesOf, Except.toOption, hfound]
  | some found => simp [matchesOf, Except.toOption, hfound]

/-- The matches up to any point of a session take up the stream from where the session started to
    where the next token is at that point. -/
theorem Coherent.consecutive_matchesOf (hg : ∀ name, (g name).StackFree) (h : Coherent s low e)
    (n : Nat) {steps : List (Step ν)} (hsteps : ∀ step ∈ steps, step.StackFree ∧ step.Forward)
    {before after : List (Except Fault Answer × Engine σ)} {answer : Answer}
    (hsession : session g n steps e = before ++ (.ok answer, e') :: after) :
    Match.Consecutive e.buffer.position (matchesOf (before ++ [(.ok answer, e')]))
      e'.buffer.position ∧
    ∀ found ∈ matchesOf (before ++ [(.ok answer, e')]),
      found.IsStretch (TokenSource.stream s) := by
  induction steps generalizing e before with
  | nil => simp [session] at hsession
  | cons step steps ih =>
      obtain ⟨⟨hfree, hforward⟩, hrest⟩ := List.forall_mem_cons.1 hsteps
      rw [session] at hsession
      cases hrun : perform g n step e with
      | error fault e₁ =>
          rw [hrun] at hsession
          cases before with
          | nil => cases hsession
          | cons x before => simp at hsession
      | ok answer₁ e₁ =>
          rw [hrun] at hsession
          have hstep := h.accounts hg n hfree hforward hrun
          have h₁ := Upholds.perform hg n hfree _ _ _ _ h hrun
          cases before with
          | nil =>
              cases hsession
              rw [List.nil_append, matchesOf_cons]
              simpa [matchesOf] using And.intro hstep.consecutive hstep.isStretch
          | cons x before =>
              obtain ⟨rfl, hlater⟩ := List.cons.inj hsession
              obtain ⟨hconsecutive, hstretch⟩ := ih h₁ hrest hlater
              rw [List.cons_append, matchesOf_cons]
              refine ⟨hstep.consecutive.append hconsecutive, fun found hmem => ?_⟩
              exact (List.mem_append.1 hmem).elim (hstep.isStretch found) (hstretch found)

/-- No token is lost, taken twice or out of order.  In every state of a session, a recognition
    that matches starts at the next token, returns the tokens that the source handed out under
    the numbers from there on, and ends with the next token right behind them.  In a session
    without an abandon, in which recognitions alone go past tokens, the matches up to any point
    follow one another without a gap, and together they are the stream up to the next token. -/
theorem matches_partition_stream (hg : ∀ name, (g name).StackFree) (s : σ) :
    (∀ e, Reachable g (fun _ step => step.StackFree) s e →
      ∀ n (step : Step ν), step.StackFree → ∀ found e',
      perform g n step e = .ok (.result (.ok found)) e' →
      found.start = e.buffer.position ∧
      (∀ i (hi : i < found.tokens.length),
        found.tokens[i] = TokenSource.stream s (found.start + i)) ∧
      e'.buffer.position = found.stop) ∧
    ∀ settings n (steps : List (Step ν)), (∀ step ∈ steps, step.StackFree ∧ step.Forward) →
      ∀ before answer e' after,
      session g n steps (ofSource settings s) = before ++ (.ok answer, e') :: after →
      Match.Consecutive 0 (matchesOf (before ++ [(.ok answer, e')])) e'.buffer.position ∧
      (matchesOf (before ++ [(.ok answer, e')])).flatMap Match.tokens
        = stretch (TokenSource.stream s) 0 e'.buffer.position := by
  constructor
  · intro e hreach n step hstep found e' hrun
    have hcoherent : Coherent s 0 e := hreach.coherent hg fun _ _ hallowed => hallowed
    have haccounts := hcoherent.accounts hg n hstep (forward_of_result hrun) hrun
    obtain ⟨hstart, hstop⟩ : found.start = e.buffer.position ∧ found.stop = e'.buffer.position :=
      haccounts.consecutive
    have hstretch : found.IsStretch (TokenSource.stream s) :=
      haccounts.isStretch found (List.mem_singleton.2 rfl)
    exact ⟨hstart, fun i hi => hstretch.getElem hi, hstop.symm⟩
  · intro settings n steps hsteps before answer e' after hsession
    obtain ⟨hconsecutive, hstretch⟩ :=
      (coherent_ofSource settings s).consecutive_matchesOf hg n hsteps hsession
    exact ⟨hconsecutive, hconsecutive.flatMap_tokens hstretch⟩

/-- Tokens taken one by one, under a mark and with looks ahead and rejections in between. -/
def oneByOne : List (Step Nonterminal) :=
  [.stack .openMark, .recognize (.token .lbracket), .parse .list, .tokenAhead 2, .stack .commit,
    .recognize (.token .name), .recognize (.ref .list), .recognize (.token .rbracket),
    .stack .compact]

/-- The matches of such a session on `[a]` are one token each, and together the input. -/
theorem matches_partition_stream_of_oneByOne :
    ∃ answer e', (session ListGrammar.grammar 40 oneByOne (ofSource ⟨true, 4⟩ (TokenList.ofKinds
        [(.lbracket, "["), (.name, "a"), (.rbracket, "]")]))).getLast? = some (.ok answer, e') ∧
      e'.buffer.position = 3 ∧
      ((matchesOf (session ListGrammar.grammar 40 oneByOne (ofSource ⟨true, 4⟩ (TokenList.ofKinds
        [(.lbracket, "["), (.name, "a"), (.rbracket, "]")])))).flatMap Match.tokens)
        = stretch (TokenSource.stream (TokenList.ofKinds
            [(.lbracket, "["), (.name, "a"), (.rbracket, "]")])) 0 3 := by
  have hrun : (match (session ListGrammar.grammar 40 oneByOne (ofSource ⟨true, 4⟩
        (TokenList.ofKinds [(.lbracket, "["), (.name, "a"), (.rbracket, "]")]))).getLast? with
      | some (.ok _, e') => decide (e'.buffer.position = 3)
      | some (.error _, _) => false
      | none => false) = true := by decide +kernel
  split at hrun
  · next answer e' hlast =>
      have hposition := of_decide_eq_true hrun
      obtain ⟨before, hsession⟩ := List.getLast?_eq_some_iff.1 hlast
      have hsteps : ∀ step ∈ oneByOne, step.StackFree ∧ step.Forward := by
        simp [oneByOne, Step.StackFree, Step.Forward, Rule.StackFree]
      obtain ⟨-, htokens⟩ :=
        (matches_partition_stream stackFree_list _).2 _ _ _ hsteps before answer e' [] hsession
      rw [← hsession, hposition] at htokens
      exact ⟨answer, e', hlast, hposition, htokens⟩
  · cases hrun
  · cases hrun

end Engine
end Packrat
