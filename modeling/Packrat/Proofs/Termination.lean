/-
  Packrat.Proofs.Termination

  Parsing the list language ends.

  A run recurses into the rules that it comes to run, and the tail of a source
  never stops; so what has to be shown is that no run comes to run rules for
  ever.  Every rule has a weight, made from weights of the names: what a rule
  comes to run is lighter, unless it comes after a token that was taken, which
  makes up for sixteen.  Where no rule outweighs its name (`Grammar.Founded`)
  sixteen times the tokens left and the weight together go down from a rule to
  whatever it comes to run (`Coherent.rank_lt_of_enters`), and they bound the
  fuel of the run.

  A loop counts on its delimiter not being the end of the input: at the end of
  the input it could take that for ever.
-/

import Packrat.Proofs.Onward

namespace Packrat

-- ============================================================================
-- Weights of rules
-- ============================================================================

namespace Rule

variable {ν : Type}

/-- No loop of the rule has the end of the input for a delimiter. -/
def Delimited : Rule ν → Prop
  | .both first second | .either first second => first.Delimited ∧ second.Delimited
  | .negate rule | .attempt rule | .memo _ rule | .nested rule => rule.Delimited
  | .trail delimiter element => delimiter ≠ .eof ∧ element.Delimited
  | .token _ | .const _ | .ref _ | .ahead _ _ | .stack _ => True

/-- What the tokens make up for that the rule takes in any case when it matches. -/
def gain : Rule ν → Nat
  | .token kind => if kind = .eof then 0 else 16
  | _ => 0

/-- How deep the rule can recurse between one token and the next, where the table tells how deep
    the rule of a name can. -/
def weight (table : ν → Nat) : Rule ν → Nat
  | .token _ | .const _ | .ahead _ _ | .stack _ => 0
  | .both first second => 1 + max (first.weight table) (second.weight table - first.gain)
  | .either first second => 1 + max (first.weight table) (second.weight table)
  | .negate rule | .attempt rule | .memo _ rule | .nested rule => 1 + rule.weight table
  | .trail _ element => 1 + (element.weight table - 16)
  | .ref name => 1 + table name

end Rule

/-- The rules of the grammar work on no marks, and none of them outweighs its name. -/
structure Grammar.Founded {ν : Type} (g : Grammar ν) (table : ν → Nat) : Prop where
  stackFree : ∀ name, (g name).StackFree
  delimited : ∀ name, (g name).Delimited
  weight_le : ∀ name, (g name).weight table ≤ table name

namespace ListGrammar

/-- How deep the rules of the list language can recurse between two tokens. -/
def weights : Nonterminal → Nat
  | .stat => 13
  | .assign => 7
  | .list => 3
  | .elements => 11
  | .element => 7

theorem founded : Grammar.Founded grammar weights where
  stackFree := Engine.stackFree_list
  delimited name := by
    cases name <;> simp [grammar, rule, thenEnd, nameElement, Rule.oneOf, Rule.anyOf,
      Rule.sequence, Rule.allOf, Rule.separated, Rule.optional, Rule.Delimited]
  weight_le name := by cases name <;> decide

end ListGrammar

theorem Entry.delimited_rule (entry : Entry) : entry.rule.Delimited := by
  cases entry <;> simp [Entry.rule, ListGrammar.thenEnd, Rule.Delimited]

theorem Entry.weight_rule_le (entry : Entry) : entry.rule.weight ListGrammar.weights ≤ 14 := by
  cases entry <;> decide

namespace Engine

variable {σ ν : Type} [TokenSource σ] {s : σ} {low : Nat} {e e' : Engine σ}
variable {g : Grammar ν} {table : ν → Nat} {n bound : Nat} {rule rule' : Rule ν}

-- ============================================================================
-- Runs end
-- ============================================================================

/-- How deep a run of the rule can recurse: the tokens left before the ends of input count. -/
def rank (table : ν → Nat) (bound : Nat) (rule : Rule ν) (e : Engine σ) : Nat :=
  16 * (bound - e.buffer.position) + rule.weight table

/-- A rule that matches gains what the tokens make up for that it has to take. -/
theorem Coherent.gain_of_eval (h : Coherent s low e) (hopen : e.speculation.marks ≠ [])
    (hg : ∀ name, (g name).StackFree)
    (hend : TokenSource.EndsBy (TokenSource.stream s) bound) (hrule : rule.StackFree)
    (hrun : eval g n rule e = .ok true e') :
    16 * (bound - e'.buffer.position) + rule.gain ≤ 16 * (bound - e.buffer.position) := by
  have hle := (Onward.eval hg n hrule _ _ _ _ h hopen hrun).position_le
  cases rule with
  | token kind =>
      cases n with
      | zero => cases hrun
      | succ n =>
          have htake := h.takes_of_matchKind hrun
          have hkind := htake.matched_iff.1 rfl
          have hposition : e'.buffer.position = e.buffer.position + 1 := htake.position
          by_cases heof : kind = .eof
          · rw [Rule.gain, if_pos heof]
            omega
          · have hlt := hend.lt (hkind ▸ heof)
            rw [Rule.gain, if_neg heof]
            omega
  | _ =>
      simp only [Rule.gain]
      omega

/-- What a rule comes to run can recurse less deep than the rule. -/
theorem Coherent.rank_lt_of_enters (h : Coherent s low e) (hopen : e.speculation.marks ≠ [])
    (hg : Grammar.Founded g table) (hend : TokenSource.EndsBy (TokenSource.stream s) bound)
    (hrule : rule.StackFree) (hdelimited : rule.Delimited)
    (henters : Enters g n rule e rule' e') :
    rank table bound rule' e' < rank table bound rule e ∧ rule'.Delimited := by
  have hle := (h.inward_of_enters hopen hg.stackFree hrule henters).forward.position_le
  simp only [rank]
  cases henters with
  | first => exact ⟨by simp only [Rule.weight]; omega, hdelimited.1⟩
  | second hrun =>
      have hgain := h.gain_of_eval hopen hg.stackFree hend hrule.1 hrun
      exact ⟨by simp only [Rule.weight]; omega, hdelimited.2⟩
  | left => exact ⟨by simp only [Rule.weight]; omega, hdelimited.1⟩
  | right => exact ⟨by simp only [Rule.weight]; omega, hdelimited.2⟩
  | element hat hmatch =>
      obtain ⟨-, -, hkind, hposition⟩ := h.past_delimiter hopen hat hmatch
      have hlt := hend.lt (hkind ▸ hdelimited.1)
      exact ⟨by simp only [Rule.weight]; omega, hdelimited.2⟩
  | @again _ element _ _ _ _ hat hmatch hrun =>
      have helement : element.StackFree := hrule
      obtain ⟨h₂, hin, hkind, hposition⟩ := h.past_delimiter hopen hat hmatch
      have hlt := hend.lt (hkind ▸ hdelimited.1)
      have hon := (Onward.eval hg.stackFree n helement _ _ _ _ h₂ hin.opened hrun).position_le
      exact ⟨by omega, hdelimited⟩
  | @ref name =>
      have hweight := hg.weight_le name
      exact ⟨by simp only [Rule.weight]; omega, hg.delimited name⟩
  | _ => exact ⟨by simp only [Rule.weight]; omega, hdelimited⟩

/-- A run that can recurse no deeper than its fuel lets it does not run out of fuel. -/
theorem Coherent.ne_exhausted_of_rank_lt (h : Coherent s low e)
    (hopen : e.speculation.marks ≠ []) (hg : Grammar.Founded g table)
    (hend : TokenSource.EndsBy (TokenSource.stream s) bound)
    (hrule : rule.StackFree) (hdelimited : rule.Delimited) (hfuel : rank table bound rule e < n) :
    eval g n rule e ≠ .error .exhausted e' := by
  induction n generalizing rule e low with
  | zero => exact absurd hfuel (Nat.not_lt_zero _)
  | succ n ih =>
      intro hrun
      obtain ⟨k, kind, rfl, hpeek⟩ | ⟨rule', e₁, henters, hrun₁⟩ :=
        h.exists_enters_of_error hg.stackFree hrule hrun
      · obtain ⟨-, hfault⟩ | ⟨hfault, -, -⟩ := h.error_of_peek hpeek <;> cases hfault
      · obtain ⟨hlt, hdelimited'⟩ := h.rank_lt_of_enters hopen hg hend hrule hdelimited henters
        have hopened := (h.inward_of_enters hopen hg.stackFree hrule henters).opened
        obtain ⟨⟨low', h₁⟩, hrule'⟩ := h.enters hg.stackFree hrule henters
        exact ih h₁ hopened hrule' hdelimited' (by omega) hrun₁

/-- A recognition of a rule that looks no further than the next token ends on enough fuel. -/
theorem Coherent.recognize_ok (h : Coherent s low e) (hg : Grammar.Founded g table)
    (hsafe : ∀ name, (g name).Safe fun _ => False)
    (hend : TokenSource.EndsBy (TokenSource.stream s) bound) (hrule : rule.Safe fun _ => False)
    (hdelimited : rule.Delimited) (hfuel : rank table bound rule e < n) :
    ∃ result e', recognize g n rule e = .ok result e' := by
  cases hrun : recognize g n rule e with
  | ok result e' => exact ⟨result, e', rfl⟩
  | error fault e' =>
      have hbody := h.error_of_recognizing (.eval hg.stackFree n hrule.stackFree)
        (.eval hg.stackFree n hrule.stackFree) hrun
      obtain rfl | ⟨-, -, hfar, -⟩ := h.excused_of_recognize (fun _ => False.elim) hsafe hrule hrun
      · exact absurd hbody (h.begun.pushed.ne_exhausted_of_rank_lt (List.cons_ne_nil _ _) hg hend
          hrule.stackFree hdelimited hfuel)
      · exact hfar.elim

-- ============================================================================
-- Parses
-- ============================================================================

/-- Every parse of an entry from a coherent state ends, whatever outcomes are kept there. -/
theorem Coherent.parse_ok (h : Coherent s low e) (hdry : TokenSource.RunsDry s) (entry : Entry) :
    ∃ result e', parse entry e = .ok result e' := by
  have hweight := entry.weight_rule_le
  refine h.recognize_ok ListGrammar.founded (ListGrammar.safe_grammar _)
    (h.window.endsBy_pending hdry) (entry.safe_rule _) entry.delimited_rule ?_
  rw [rank, Nat.add_sub_cancel_left, parseFuel]
  omega

/-- What a parse of an entry takes: it ends; a loop over commas that comes to run in its course
    takes at most one turn more than there are commas left where it starts; and the bodies of
    lists that run inside one another are never more than the depth limit, nor more than one more
    than there are opening brackets left where the parse starts.  From token `bound` on there are
    only ends of input. -/
structure Bounded (s : σ) (bound : Nat) (entry : Entry) (e : Engine σ) : Prop where
  ends : ∃ result e', parse entry e = .ok result e'
  turns : ∀ {element : Rule Nonterminal} {f : Engine σ} {n k : Nat},
    Comes ListGrammar.grammar (parseFuel e.buffer.pending) entry.rule e.begun.pushed
      (.trail .comma element) f →
    ComesToTurn ListGrammar.grammar .comma element n f k →
    k ≤ tokensLeft (TokenSource.stream s) bound .comma f.buffer.position + 1
  bodies : ∀ {rule : Rule Nonterminal} {f : Engine σ} {k : Nat},
    Amid ListGrammar.grammar (parseFuel e.buffer.pending) entry.rule e.begun.pushed k rule f →
    k ≤ min e.settings.maxDepth
      (tokensLeft (TokenSource.stream s) bound .lbracket e.buffer.position + 1)

theorem Coherent.bounded (h : Coherent s low e) (hdry : TokenSource.RunsDry s)
    (hend : TokenSource.EndsBy (TokenSource.stream s) bound) (entry : Entry) :
    Bounded s bound entry e where
  ends := h.parse_ok hdry entry
  turns {element f n k} hcomes hturn := by
    obtain ⟨⟨low', hf⟩, hopen, hloop⟩ := h.begun.pushed.comes_open (List.cons_ne_nil _ _)
      stackFree_list entry.stackFree_rule hcomes
    have helement : element.StackFree := hloop
    exact hf.turns_le hopen stackFree_list hend (by decide) helement hturn
  bodies {rule f k} hamid := by
    have hopen : e.begun.pushed.speculation.marks ≠ [] := List.cons_ne_nil _ _
    have hbrackets : (k : Int) + 0
        ≤ tokensLeft (TokenSource.stream s) bound .lbracket e.buffer.position + 1 :=
      h.begun.pushed.bodies_le_brackets ListGrammar.bracketed hend entry.bracketed_rule hopen hamid
    have hdepth : k = 0 ∨ e.depth + k ≤ e.settings.maxDepth :=
      (h.begun.pushed.bodies_le_maxDepth hopen stackFree_list entry.stackFree_rule hamid).2
    exact Nat.le_min.2 ⟨by omega, by omega⟩

/-- Parsing the list language always ends, from every state of a session over rules that work on
    no marks, and the work of a parse is bounded by the tokens left. -/
theorem parse_bounded {g : Grammar ν} (hg : ∀ name, (g name).StackFree) :
    (∀ (tokens : List Token) e,
      Reachable g (fun _ step => step.StackFree) (TokenList.ofTokens tokens) e →
      ∀ entry, Bounded (TokenList.ofTokens tokens) tokens.length entry e) ∧
    ∀ (source : String) e,
      Reachable g (fun _ step => step.StackFree) (Scanner.ofSource source) e →
      ∀ entry, Bounded (Scanner.ofSource source) source.length entry e := by
  constructor
  · intro tokens e hreach entry
    have h : Coherent _ 0 e := hreach.coherent hg fun _ _ hstep => hstep
    exact h.bounded (TokenList.runsDry_ofTokens tokens) (TokenList.endsBy_stream_ofTokens tokens)
      entry
  · intro source e hreach entry
    have h : Coherent _ 0 e := hreach.coherent hg fun _ _ hstep => hstep
    exact h.bounded (Scanner.runsDry _) (Scanner.endsBy_stream (Scanner.ofSource source)) entry

/-- The tokens of `[a,b]`. -/
def pairInside : List Token :=
  [.unplaced .lbracket "[", .unplaced .name "a", .unplaced .comma ",", .unplaced .name "b",
    .unplaced .rbracket "]"]

/-- In the course of a parse of `[a,b]` a loop over its one comma takes two turns, inside one
    body. -/
theorem parse_bounded_of_pair :
    ∃ f n, Comes ListGrammar.grammar (parseFuel 5) Entry.list.rule
        (ofSource ⟨false, 4⟩ (TokenList.ofTokens pairInside)).begun.pushed
        (.trail .comma (.ref .element)) f ∧
      ComesToTurn ListGrammar.grammar .comma (.ref .element) n f 2 ∧
      2 ≤ tokensLeft (TokenSource.stream (TokenList.ofTokens pairInside)) 5 .comma
        f.buffer.position + 1 ∧
      ∃ result e', parse .list (ofSource ⟨false, 4⟩ (TokenList.ofTokens pairInside))
        = .ok result e' := by
  let g := ListGrammar.grammar
  let e₀ := ofSource ⟨false, 4⟩ (TokenList.ofTokens pairInside)
  let body : Engine TokenList :=
    { (e₀.begun.pushed.counted Nonterminal.list.ruleId).pushed with depth := 1 }
  have hrun : (match eval g 139 (.token .lbracket) body with
      | .ok true e₁ => !e₁.settings.memoize &&
        match eval g 134 (.ref .element) (e₁.counted Nonterminal.elements.ruleId).pushed.pushed with
        | .ok true e₂ => match atDelimiter .comma e₂ with
          | .ok true e₃ => match matchKind .comma e₃ with
            | .ok true e₄ => match eval g 133 (.ref .element) e₄ with
              | .ok true _ => true
              | _ => false
            | _ => false
          | _ => false
        | _ => false
      | _ => false) = true := by decide +kernel
  have hbounded := (parse_bounded stackFree_list).1 pairInside e₀ (.start ⟨false, 4⟩) .list
  split at hrun
  next e₁ hbracket =>
    obtain ⟨hplain, hrun⟩ := Bool.and_eq_true_iff.1 hrun
    have hoff : e₁.settings.memoize = false := by simpa using hplain
    split at hrun
    next e₂ hfirst =>
      split at hrun
      next e₃ hat =>
        split at hrun
        next e₄ hcomma =>
          split at hrun
          next e₅ hsecond =>
            have hcomes : Comes g 144 Entry.list.rule e₀.begun.pushed
                (.trail .comma (.ref .element)) e₂ := by
              refine .next .first (.next .ref (.next (.plain rfl) (.next (.nested (by decide)) ?_)))
              refine .next (.second hbracket) (.next .first (.next .ref (.next (.plain ?_) ?_)))
              · rw [hoff, Bool.false_and]
              · exact .next .attempt (.next (.second hfirst) .here)
            have hturn : ComesToTurn g .comma (.ref .element) 134 e₂ 2 :=
              .again (.again hat hcomma hsecond) .first
            exact ⟨e₂, 134, hcomes, hturn, hbounded.turns hcomes hturn, hbounded.ends⟩
          all_goals cases hrun
        all_goals cases hrun
      all_goals cases hrun
    all_goals cases hrun
  all_goals cases hrun

end Engine
end Packrat
