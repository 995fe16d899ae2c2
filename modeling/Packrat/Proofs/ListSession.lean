/-
  Packrat.Proofs.ListSession

  Keeping outcomes does not show in sessions over the list language, whether
  the depth limit is hit or not.

  Between its steps such a session has nothing open, and its engine only ever
  goes forward; so each recognition starts no earlier than those that left the
  outcomes behind, and meets none of them deeper than it was made.  Every
  recognition ends on the fuel that the whole input calls for.
-/

import Packrat.Proofs.Brackets
import Packrat.Proofs.EntryReading
import Packrat.Proofs.PlainRecognition

namespace Packrat

/-- The steps of a session over the list language that leave the marks alone. -/
inductive Step.OfList : Step Nonterminal → Prop where
  | parse (entry : Entry) : OfList (.parse entry)
  | tryParse (entry : Entry) : OfList (.tryParse entry)
  | rule (name : Nonterminal) : OfList (.recognize (.ref name))
  | token (kind : Kind) : OfList (.recognize (.token kind))
  | kindAhead (k : Nat) : OfList (.kindAhead k)
  | tokenAhead (k : Nat) : OfList (.tokenAhead k)
  | compact : OfList (.stack .compact)

namespace Ground

variable {G : Ground Nonterminal} {bound n i : Nat}

-- ============================================================================
-- Readings end
-- ============================================================================

theorem Settles.result {left : Kind → Prop} {r : Reading Bool} (h : Settles G 0 i left r) :
    ∃ matched, r.result = .ok matched := by
  rcases h 0 .list (G.maxDepth + 1) rfl with hverdict | hdoomed
  · exact hverdict.result
  · exact ⟨true, hdoomed.result⟩

theorem settles_element (hG : G.grammar = ListGrammar.grammar)
    (hend : TokenSource.EndsBy G.tokens bound) {d : Nat} (hd : d ≤ G.maxDepth)
    (hfuel : 16 * (bound - i) + 10 ≤ n) :
    Settles G d i (fun kind => kind = .rbracket ∨ kind = .comma)
      (G.read n d (.ref .element) i) := by
  obtain ⟨n, rfl⟩ : ∃ k, n = k + 10 := ⟨n - 10, by omega⟩
  by_cases hname : (G.tokens i).kind = .name
  · exact settles_element_of_name hG hd hname
  · refine settles_element_of_ne hG hname fun hkind hdepth => ?_
    have hi : i < bound := hend.lt (by rw [hkind]; decide)
    exact settles_elements hG hend hdepth (by omega)

/-- Every rule of the grammar ends on the fuel for the tokens left. -/
theorem ends_rule (hG : G.grammar = ListGrammar.grammar)
    (hend : TokenSource.EndsBy G.tokens bound) (hfuel : 16 * (bound - i) + 24 ≤ n)
    (name : Nonterminal) : ∃ matched, (G.read n 0 (.ref name) i).result = .ok matched := by
  cases name with
  | stat => exact (verdict_stat hG hend hfuel).result
  | assign => exact (verdict_assign hG hend (by omega)).result
  | list => exact (verdict_list hG hend (by omega) .list).result
  | elements => exact (settles_elements hG hend (Nat.zero_le _) (by omega)).result
  | element => exact (settles_element hG hend (Nat.zero_le _) (by omega)).result

theorem ends_token (kind : Kind) :
    ∃ matched, (G.read (n + 1) 0 (.token kind) i).result = .ok matched := by
  by_cases hkind : (G.tokens i).kind = kind
  · exact ⟨true, congrArg Reading.result (G.takeKind_of_eq hkind)⟩
  · exact ⟨false, congrArg Reading.result (G.takeKind_of_ne hkind)⟩

end Ground

namespace Engine

variable {σ ν α β : Type} [TokenSource σ] {s : σ} {e e₁ e₂ : Engine σ} {bound n maxDepth : Nat}

-- ============================================================================
-- Steps without kept outcomes
-- ============================================================================

/-- The step leaves nothing open and goes no way back, and fuel does not end it. -/
def Rests (s : σ) (e : Engine σ) : EStateM.Result Fault (Engine σ) α → Prop
  | .ok _ e' => Idle s e' ∧ e'.settings = e.settings ∧ e.buffer.position ≤ e'.buffer.position
  | .error fault _ => fault ≠ .exhausted

theorem Rests.answer {m : Run σ α} (h : Rests s e (m e)) (f : α → β) :
    Rests s e ((do return f (← m) : Run σ β) e) := by
  cases hrun : m e with
  | ok a e' =>
      rw [hrun] at h
      rw [Run.bind_of_ok hrun]
      exact h
  | error fault e' =>
      rw [hrun] at h
      rw [Run.bind_of_error hrun]
      exact h

/-- A recognition rests if the reading of its rule ends. -/
theorem rests_recognize {g : Grammar ν} (h : Idle s e) (hplain : e.settings.memoize = false)
    (hg : ∀ name, (g name).StackFree) {rule : Rule ν} (hrule : rule.StackFree)
    (hends : ∃ matched, ((groundAt s g e).read n 0 rule e.buffer.position).result = .ok matched) :
    Rests s e (recognize g n rule e) := by
  obtain ⟨matched, hresult⟩ := hends
  obtain ⟨e', hrun, hrests⟩ := recognize_of_reading h hplain hg n hrule hresult
  rw [hrun]
  exact hrests

theorem rests_peek (h : Idle s e) (k : Nat) : Rests s e (peek k e) := by
  by_cases hk : k = 0
  · rw [hk, peek_zero]
    exact Fault.noConfusion
  · by_cases hlimit : e.buffer.cursor + k ≤ Machine.bufferLimit
    · rw [peek_eq h.window (Nat.pos_of_ne_zero hk) hlimit]
      refine ⟨⟨h.marks, h.depth, h.window.reach k⟩, rfl, ?_⟩
      simp [Lookahead.position, Lookahead.reach]
    · rw [peek_of_far hk (Nat.lt_of_not_le hlimit)]
      exact Fault.noConfusion

theorem rests_compact (h : Idle s e) : Rests s e (compact e) := by
  rw [compact]
  split
  · next hcan =>
      have hend : e.buffer.cursor = e.buffer.size := by
        simp only [canCompact, Bool.and_eq_true, Lookahead.atEnd, beq_iff_eq] at hcan
        exact hcan.2
      refine ⟨⟨h.marks, h.depth, h.window.clear⟩, rfl, ?_⟩
      show e.buffer.base + e.buffer.cursor ≤ e.buffer.base + e.buffer.size + 0
      omega
  · exact Fault.noConfusion

/-- Every step of a session over the list language rests on the fuel for the whole input. -/
theorem rests_perform (hend : TokenSource.EndsBy (TokenSource.stream s) bound)
    (hfuel : parseFuel bound ≤ n) (h : Idle s e) (hplain : e.settings.memoize = false)
    {step : Step Nonterminal} (hstep : step.OfList) :
    Rests s e (perform ListGrammar.grammar n step e) := by
  have hfuel' : 16 * (bound - e.buffer.position) + 24 ≤ n := by
    simp only [parseFuel] at hfuel
    omega
  have hG : (groundAt s ListGrammar.grammar e).grammar = ListGrammar.grammar := rfl
  have hrecognize : ∀ rule : Rule Nonterminal, rule.StackFree →
      (∃ matched, ((groundAt s ListGrammar.grammar e).read n 0 rule
        e.buffer.position).result = .ok matched) →
      Rests s e (recognize ListGrammar.grammar n rule e) :=
    fun rule hrule hends => rests_recognize h hplain stackFree_list hrule hends
  have hentry : ∀ entry : Entry, Rests s e (recognizeEntry n entry e) := by
    intro entry
    exact hrecognize entry.rule entry.stackFree_rule
      (Ground.verdict_entry hG hend hfuel' entry).result
  cases hstep with
  | parse entry => exact .answer (hentry entry) Answer.result
  | tryParse entry => exact .answer (hentry entry) fun r => Answer.flag r.isOk
  | rule name =>
      exact .answer (hrecognize (.ref name) trivial (Ground.ends_rule hG hend hfuel' name))
        Answer.result
  | token kind =>
      obtain ⟨n, rfl⟩ : ∃ k, n = k + 1 := ⟨n - 1, by omega⟩
      exact .answer (hrecognize (.token kind) trivial (Ground.ends_token kind)) Answer.result
  | kindAhead k => exact .answer (rests_peek h k) fun token => Answer.kind token.kind
  | tokenAhead k => exact .answer (rests_peek h k) fun token => Answer.token (some token)
  | compact => exact .answer (rests_compact h) fun _ => Answer.done

-- ============================================================================
-- Steps side by side
-- ============================================================================

/-- The discipline of recognitions of the list language that start at token `start` or further
    on. -/
def listDiscipline (t : Nat → Token) (maxDepth start : Nat) :
    Discipline t ListGrammar.grammar maxDepth :=
  .ofBrackets (ListGrammar.bodyOf id) (ListGrammar.plain_rule (ListGrammar.bodyOf_ruleId id))
    ListGrammar.bracketed start

/-- An engine with kept outcomes and one without, between two steps of a session. -/
structure Abreast (s : σ) (maxDepth : Nat) (e₁ e₂ : Engine σ) : Prop where
  idle : Idle s e₂
  sim : Sim (listDiscipline (TokenSource.stream s) maxDepth e₂.buffer.position) none e₁ e₂

theorem abreast_ofSource (s : σ) (maxDepth : Nat) :
    Abreast s maxDepth (ofSource ⟨true, maxDepth⟩ s) (ofSource ⟨false, maxDepth⟩ s) where
  idle := idle_ofSource _ s
  sim := sim_ofSource _

/-- What was kept for recognitions from one place on is good for those from a later one. -/
theorem Sim.later {start start' : Nat} {outer : Option Mismatch} (hle : start ≤ start')
    (h : Sim (listDiscipline (TokenSource.stream s) maxDepth start) outer e₁ e₂) :
    Sim (listDiscipline (TokenSource.stream s) maxDepth start') outer e₁ e₂ where
  buffer := h.buffer
  marks := h.marks
  depth := h.depth
  depthHit := h.depthHit
  keeping := h.keeping
  plain := h.plain
  window := h.window
  furthest := h.furthest
  onStream_outer := h.onStream_outer
  onStream := h.onStream
  trusted := by
    intro id pos outcome hget
    obtain ⟨n, level, matched, hresult, hhits, hseen, hkeeps, houtcome⟩ :=
      h.trusted id pos outcome hget
    exact ⟨n, level, matched, hresult, hhits, hseen, KeptFrom.mono hkeeps hle, houtcome⟩

/-- A recognition from the place of the engine keeps to the discipline. -/
theorem calls_list {t : Nat → Token} {rule : Rule Nonterminal} {start : Nat}
    (hplain : rule.Plain (ListGrammar.bodyOf id)) (hrule : Bracketed rule .level .level) :
    (listDiscipline t maxDepth start).Calls rule 0 start :=
  ⟨hplain, .inr ⟨.level, .level, hrule, .start_level t start⟩⟩

theorem Abreast.recognize (h : Abreast s maxDepth e₁ e₂) {rule : Rule Nonterminal}
    (hcalls : (listDiscipline (TokenSource.stream s) maxDepth e₂.buffer.position).Calls rule 0
      e₂.buffer.position) :
    Lockstep (listDiscipline (TokenSource.stream s) maxDepth e₂.buffer.position) none
      (Engine.recognize ListGrammar.grammar n rule e₁)
      (Engine.recognize ListGrammar.grammar n rule e₂) := by
  rw [← h.idle.depth] at hcalls
  exact lockstep_recognize h.sim hcalls

theorem Abreast.recognizeEntry (h : Abreast s maxDepth e₁ e₂) (entry : Entry) :
    Lockstep (listDiscipline (TokenSource.stream s) maxDepth e₂.buffer.position) none
      (Engine.recognizeEntry n entry e₁) (Engine.recognizeEntry n entry e₂) := by
  apply h.recognize
  cases entry with
  | stat => exact calls_list ⟨trivial, trivial⟩ (Entry.bracketed_rule .stat)
  | list => exact calls_list ⟨⟨trivial, trivial⟩, trivial, trivial⟩ (Entry.bracketed_rule .list)
  | assign =>
      exact calls_list ⟨⟨trivial, trivial⟩, trivial, trivial⟩ (Entry.bracketed_rule .assign)

theorem Abreast.lockstep_perform (h : Abreast s maxDepth e₁ e₂) {step : Step Nonterminal}
    (hstep : step.OfList) :
    Lockstep (listDiscipline (TokenSource.stream s) maxDepth e₂.buffer.position) none
      (Engine.perform ListGrammar.grammar n step e₁)
      (Engine.perform ListGrammar.grammar n step e₂) := by
  have hlevel : Site.level ≠ .around := by decide
  cases hstep with
  | parse entry => exact .answer (h.recognizeEntry entry) Answer.result
  | tryParse entry => exact .answer (h.recognizeEntry entry) fun r => Answer.flag r.isOk
  | rule name =>
      have hplain : Rule.Plain (ListGrammar.bodyOf id) (.ref name) := ⟨trivial, trivial⟩
      exact .answer (h.recognize (calls_list hplain (.ref hlevel))) Answer.result
  | token kind =>
      have hplain : Rule.Plain (ListGrammar.bodyOf id) (.token kind) := ⟨trivial, trivial⟩
      exact .answer (h.recognize ⟨hplain, .inl ⟨kind, rfl⟩⟩) Answer.result
  | kindAhead k => exact lockstep_perform_of_looks h.sim (.kindAhead k) trivial n
  | tokenAhead k => exact lockstep_perform_of_looks h.sim (.tokenAhead k) trivial n
  | compact => exact lockstep_perform_of_looks h.sim (.stack .compact) trivial n

/-- A step of both engines: they answer the same and are abreast again, or they end in the same
    fault at the same point, and fuel does not end them. -/
def Abreast.Steps (s : σ) (maxDepth : Nat) (x₁ x₂ : EStateM.Result Fault (Engine σ) α) : Prop :=
  match x₂ with
  | .ok answer e₂ => ∃ e₁, x₁ = .ok answer e₁ ∧ Abreast s maxDepth e₁ e₂
  | .error fault e₂ => fault ≠ .exhausted ∧ ∃ e₁, x₁ = .error fault e₁ ∧ Agree e₁ e₂

theorem Abreast.perform (hend : TokenSource.EndsBy (TokenSource.stream s) bound)
    (hfuel : parseFuel bound ≤ n) (h : Abreast s maxDepth e₁ e₂) {step : Step Nonterminal}
    (hstep : step.OfList) :
    Abreast.Steps s maxDepth (Engine.perform ListGrammar.grammar n step e₁)
      (Engine.perform ListGrammar.grammar n step e₂) := by
  have hcounts : ∀ e : Engine σ,
      Counts (listDiscipline (TokenSource.stream s) maxDepth e₂.buffer.position) e :=
    fun _ hlimitless => hlimitless.elim
  have hplain : e₂.settings.memoize = false := by rw [h.sim.plain]
  have hrests := rests_perform hend hfuel h.idle hplain hstep
  have hlockstep := h.lockstep_perform (n := n) hstep
  cases hrun : Engine.perform ListGrammar.grammar n step e₂ with
  | ok answer e₂' =>
      rw [hrun] at hrests hlockstep
      obtain ⟨hidle, -, hle⟩ := hrests
      obtain ⟨e₁', hrun₁, hsim⟩ := hlockstep (hcounts _)
      exact ⟨e₁', hrun₁, hidle, hsim.later hle⟩
  | error fault e₂' =>
      rw [hrun] at hrests hlockstep
      exact ⟨hrests, hlockstep hrests (hcounts _)⟩

-- ============================================================================
-- Sessions
-- ============================================================================

/-- Sessions of engines abreast show the same, and fuel does not end them. -/
theorem Abreast.session (hend : TokenSource.EndsBy (TokenSource.stream s) bound)
    (hfuel : parseFuel bound ≤ n) {steps : List (Step Nonterminal)}
    (hsteps : ∀ step ∈ steps, step.OfList) (h : Abreast s maxDepth e₁ e₂) :
    (Engine.session ListGrammar.grammar n steps e₁).map observe
        = (Engine.session ListGrammar.grammar n steps e₂).map observe ∧
      ∀ x ∈ Engine.session ListGrammar.grammar n steps e₂, x.1 ≠ .error .exhausted := by
  induction steps generalizing e₁ e₂ with
  | nil => exact ⟨rfl, fun x hmem => nomatch hmem⟩
  | cons step steps ih =>
      have hboth := h.perform hend hfuel (hsteps step List.mem_cons_self)
      simp only [Engine.session]
      cases hrun : Engine.perform ListGrammar.grammar n step e₂ with
      | ok answer e₂' =>
          rw [hrun] at hboth
          obtain ⟨e₁', hrun₁, habreast⟩ := hboth
          obtain ⟨hsame, hends⟩ :=
            ih (fun step hmem => hsteps step (List.mem_cons_of_mem _ hmem)) habreast
          simp only [hrun₁]
          refine ⟨?_, ?_⟩
          · simp only [List.map_cons, hsame, observe, Speculation.depth, habreast.sim.buffer,
              habreast.sim.marks]
          · intro x hmem
            rcases List.mem_cons.1 hmem with rfl | hmem
            · exact fun heq => nomatch heq
            · exact hends x hmem
      | error fault e₂' =>
          rw [hrun] at hboth
          obtain ⟨hend, e₁', hrun₁, hagree⟩ := hboth
          simp only [hrun₁]
          refine ⟨?_, ?_⟩
          · simp only [List.map_cons, List.map_nil, observe, Speculation.depth, hagree.buffer,
              hagree.marks]
          · intro x hmem
            rw [List.mem_singleton.1 hmem]
            exact fun heq => hend (Except.error.inj heq)

/-- Kept outcomes do not show in a session over the list language, of a list of tokens or of a
    text, whatever the depth limit; and on the fuel for the whole input every step ends. -/
theorem list_session_memoize_eq (maxDepth n : Nat) (steps : List (Step Nonterminal))
    (hsteps : ∀ step ∈ steps, step.OfList) :
    (∀ tokens : List Token, parseFuel tokens.length ≤ n →
      let source := TokenList.ofTokens tokens
      let plain := session ListGrammar.grammar n steps (ofSource ⟨false, maxDepth⟩ source)
      (session ListGrammar.grammar n steps (ofSource ⟨true, maxDepth⟩ source)).map observe
          = plain.map observe ∧ ∀ x ∈ plain, x.1 ≠ .error .exhausted) ∧
    (∀ text : String, parseFuel text.length ≤ n →
      let source := Scanner.ofSource text
      let plain := session ListGrammar.grammar n steps (ofSource ⟨false, maxDepth⟩ source)
      (session ListGrammar.grammar n steps (ofSource ⟨true, maxDepth⟩ source)).map observe
          = plain.map observe ∧ ∀ x ∈ plain, x.1 ≠ .error .exhausted) :=
  ⟨fun tokens hfuel => (abreast_ofSource _ maxDepth).session
      (TokenList.endsBy_stream_ofTokens tokens) hfuel hsteps,
    fun text hfuel => (abreast_ofSource _ maxDepth).session
      (Scanner.endsBy_stream (.ofSource text)) hfuel hsteps⟩

/-- Steps over a list too deep for a limit of one, until its first bracket is taken. -/
def deepSteps : List (Step Nonterminal) :=
  [.parse .stat, .kindAhead 2, .recognize (.token .lbracket), .recognize (.ref .elements),
   .recognize (.token .rbracket), .tryParse .list, .stack .compact]

/-- The tokens of `[[a]]`. -/
def deepTokens : List Token :=
  [.unplaced .lbracket "[", .unplaced .lbracket "[", .unplaced .name "a",
   .unplaced .rbracket "]", .unplaced .rbracket "]"]

theorem list_session_memoize_eq_of_deep :
    (session ListGrammar.grammar 200 deepSteps
        (ofSource ⟨true, 1⟩ (TokenList.ofTokens deepTokens))).map observe
      = (session ListGrammar.grammar 200 deepSteps
        (ofSource ⟨false, 1⟩ (TokenList.ofTokens deepTokens))).map observe ∧
    (session ListGrammar.grammar 200 deepSteps
        (ofSource ⟨true, 1⟩ (Scanner.ofSource "[[a]]"))).map observe
      = (session ListGrammar.grammar 200 deepSteps
        (ofSource ⟨false, 1⟩ (Scanner.ofSource "[[a]]"))).map observe := by
  have hsteps : ∀ step ∈ deepSteps, step.OfList := by
    intro step hmem
    simp only [deepSteps, List.mem_cons, List.not_mem_nil, or_false] at hmem
    rcases hmem with rfl | rfl | rfl | rfl | rfl | rfl | rfl
    · exact .parse _
    · exact .kindAhead _
    · exact .token _
    · exact .rule _
    · exact .token _
    · exact .tryParse _
    · exact .compact
  have hboth := list_session_memoize_eq 1 200 deepSteps hsteps
  exact ⟨(hboth.1 deepTokens (by decide)).1, (hboth.2 "[[a]]" (by decide)).1⟩

end Engine
end Packrat
