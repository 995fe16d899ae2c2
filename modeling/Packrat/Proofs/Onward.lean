/-
  Packrat.Proofs.Onward

  Under an open mark a run only goes forward.

  Whatever a rule answers, it leaves the cursor where it started or behind that
  (`Onward.eval`): attempts are rewound to their start, and a kept outcome ends
  no earlier than it starts, whichever body it is the outcome of.  So a token
  that is taken is taken for good as far as the running rules are concerned,
  and what they can still do is bounded by the tokens left: a loop over
  delimiters by the delimiters (`Coherent.turns_le`), and the nested bodies that
  run inside one another by the opening brackets, if every nested rule goes
  around a bracket (`Coherent.bodies_le_brackets`).
-/

import Packrat.Proofs.Brackets
import Packrat.Proofs.Matches
import Packrat.Proofs.Safety

namespace Packrat

-- ============================================================================
-- Tokens left
-- ============================================================================

/-- How many tokens of the kind are left from token `i` on, before token `bound`. -/
def tokensLeft (t : Nat → Token) (bound : Nat) (kind : Kind) (i : Nat) : Nat :=
  (word t i bound).count kind

section
variable {t : Nat → Token} {bound i j : Nat} {kind : Kind}

theorem tokensLeft_anti (h : i ≤ j) : tokensLeft t bound kind j ≤ tokensLeft t bound kind i := by
  by_cases hj : j ≤ bound
  · rw [tokensLeft, tokensLeft, ← word_append t h hj, List.count_append]
    exact Nat.le_add_left _ _
  · have hnil : word t j bound = [] := by
      rw [word, stretch, Nat.sub_eq_zero_of_le (Nat.le_of_not_le hj)]
      rfl
    rw [tokensLeft, hnil]
    exact Nat.zero_le _

/-- Past a token of the kind there is one less. -/
theorem tokensLeft_succ (hend : TokenSource.EndsBy t bound) (hkind : kind ≠ .eof)
    (h : (t i).kind = kind) : tokensLeft t bound kind (i + 1) + 1 = tokensLeft t bound kind i := by
  have hi : i < bound := hend.lt (h ▸ hkind)
  rw [tokensLeft, tokensLeft, word_cons t hi, h, List.count_cons_self]

end

/-- A bracketed rule works on no marks. -/
theorem Bracketed.stackFree {ν : Type} {rule : Rule ν} {site site' : Site}
    (h : Bracketed rule site site') : rule.StackFree := by
  induction h with
  | both _ _ ih ih' => exact ⟨ih, ih'⟩
  | either _ _ ih ih' => exact ⟨ih, ih'⟩
  | attempt _ ih => exact ih
  | trail _ _ _ ih => exact ih
  | memo _ _ ih => exact ih
  | nested _ _ ih => exact ih
  | _ => trivial

/-- How many levels deeper the rules run that a rule comes to run. -/
def Rule.levels {ν : Type} : Rule ν → Nat
  | .nested _ => 1
  | _ => 0

namespace Engine

variable {σ ν α β : Type} [TokenSource σ] {s : σ} {low : Nat} {e e' e'' : Engine σ}

-- ============================================================================
-- States further on
-- ============================================================================

/-- The cursor is not further back than before, and the settings are the same. -/
structure Forward (e e' : Engine σ) : Prop where
  position_le : e.buffer.position ≤ e'.buffer.position
  settings : e'.settings = e.settings

section
omit [TokenSource σ]

theorem Forward.trans (h : Forward e e') (h' : Forward e' e'') : Forward e e'' :=
  ⟨Nat.le_trans h.position_le h'.position_le, h'.settings.trans h.settings⟩

theorem Forward.of_eq (hposition : e'.buffer.position = e.buffer.position)
    (hsettings : e'.settings = e.settings) : Forward e e' :=
  ⟨Nat.le_of_eq hposition.symm, hsettings⟩

theorem settings_of_close {matched : Bool} (h : close matched e = .ok () e') :
    e'.settings = e.settings := by
  cases matched with
  | true => obtain ⟨_, _, -, rfl | ⟨-, -, rfl⟩⟩ := commit_eq_ok h <;> rfl
  | false =>
      obtain ⟨_, _, -, -, rfl⟩ := abandon_eq_ok h
      rfl

end

/-- From a coherent state under an open mark the step goes forward whenever it ends. -/
def Onward (s : σ) (m : Run σ α) : Prop :=
  ∀ low e a e', Coherent s low e → e.speculation.marks ≠ [] → m e = .ok a e' → Forward e e'

/-- Taking a token goes one token on, and not taking one does not. -/
structure Takes (s : σ) (kind : Kind) (e : Engine σ) (matched : Bool) (e' : Engine σ) : Prop where
  matched_iff : matched = true ↔ (TokenSource.stream s e.buffer.position).kind = kind
  position : e'.buffer.position = e.buffer.position + matched.toNat
  settings : e'.settings = e.settings

theorem Takes.forward {kind : Kind} {matched : Bool} (h : Takes s kind e matched e') :
    Forward e e' :=
  ⟨h.position ▸ Nat.le_add_right _ _, h.settings⟩

theorem Coherent.takes_of_takeKind (h : Coherent s low e) {kind : Kind} {matched : Bool}
    (hrun : takeKind kind e = .ok matched e') : Takes s kind e matched e' := by
  by_cases hkind : (TokenSource.stream s e.buffer.position).kind = kind
  · rw [takeKind_of_eq h.window hkind] at hrun
    cases hrun
    refine ⟨iff_of_true rfl hkind, ?_, rfl⟩
    show (e.buffer.reach 1).consume.position = _
    rw [Lookahead.position_consume, Lookahead.position_reach]
    rfl
  · rw [takeKind_of_ne h.window hkind] at hrun
    cases hrun
    exact ⟨iff_of_false Bool.false_ne_true hkind, Lookahead.position_reach _ _, rfl⟩

theorem Coherent.takes_of_matchKind (h : Coherent s low e) {kind : Kind} {matched : Bool}
    (hrun : matchKind kind e = .ok matched e') : Takes s kind e matched e' := by
  obtain ⟨e₁, hrun₁, hclose⟩ := speculate_eq_ok hrun
  have htake := h.pushed.takes_of_takeKind hrun₁
  refine ⟨htake.matched_iff, ?_, (settings_of_close hclose).trans htake.settings⟩
  cases matched with
  | true => exact (position_of_commit hclose).trans htake.position
  | false => exact (((Steady.takeKind kind).close_speculate hrun).2 rfl).position

/-- Looking for a delimiter stays in place. -/
theorem Coherent.still_of_atDelimiter (h : Coherent s low e) {kind : Kind} {matched : Bool}
    (hrun : atDelimiter kind e = .ok matched e') :
    e'.buffer.position = e.buffer.position ∧ e'.settings = e.settings := by
  rcases atDelimiter_eq_ok h.window hrun with rfl | rfl
  · exact ⟨Lookahead.position_reach _ _, rfl⟩
  · exact ⟨Lookahead.position_reach _ _, rfl⟩

/-- A kept outcome leads no further back than the place for which it is kept. -/
theorem Coherent.forward_of_replayOutcome (h : Coherent s low e) {id : RuleId}
    {outcome : Outcome} (hget : e.memo.get? id e.buffer.cursor = some outcome) {memo : Memo}
    {matched : Bool} (hrun : Engine.replayOutcome outcome { e with memo } = .ok matched e') :
    Forward e e' := by
  cases outcome with
  | failed point =>
      obtain ⟨⟨⟩, e₁, hreplay, hreturn⟩ := Run.bind_eq_ok_iff.1 hrun
      cases hreplay
      cases hreturn
      exact .of_eq rfl rfl
  | parsed stop point =>
      obtain ⟨⟨⟩, e₁, hreplay, hrest⟩ := Run.bind_eq_ok_iff.1 hrun
      obtain ⟨⟨⟩, e₂, hseek, hreturn⟩ := Run.bind_eq_ok_iff.1 hrest
      cases hreplay
      cases hreturn
      obtain ⟨-, rfl⟩ := seek_eq_ok hseek
      exact ⟨Nat.add_le_add_left (h.stops _ _ stop point hget).1 _, rfl⟩

-- ============================================================================
-- Runs that go forward
-- ============================================================================

namespace Onward

/-- Of runs in a row, each has to leave a coherent engine and the mark to the next one. -/
theorem composes : Composes fun m : Run σ _ => Steady m ∧ Upholds s m ∧ Onward s m := by
  have hrelates : Composes fun m : Run σ _ => Relates (fun e e' => Tidy e e' ∧
      ∀ low, Coherent s low e → Coherent s low e' ∧
        (e.speculation.marks ≠ [] → Forward e e')) m := by
    refine .relates (fun e => ⟨.refl e, fun low hc => ⟨hc, fun _ => .of_eq rfl rfl⟩⟩) ?_
    rintro e e' e'' ⟨htidy, h⟩ ⟨htidy', h'⟩
    refine ⟨htidy.trans htidy', fun low hc => ?_⟩
    obtain ⟨hc', hforward⟩ := h low hc
    obtain ⟨hc'', hforward'⟩ := h' low hc'
    refine ⟨hc'', fun hopen => (hforward hopen).trans (hforward' ?_)⟩
    rwa [htidy.balanced.marks]
  refine hrelates.congr ⟨fun h => ⟨?_, ?_, ?_⟩, ?_⟩
  · intro e a e' hrun
    exact (h e a e' hrun).1
  · intro low e a e' hc hrun
    exact ((h e a e' hrun).2 low hc).1
  · intro low e a e' hc hopen hrun
    exact ((h e a e' hrun).2 low hc).2 hopen
  · rintro ⟨hsteady, hup, hon⟩ e a e' hrun
    exact ⟨hsteady e a e' hrun, fun low hc =>
      ⟨hup low e a e' hc hrun, fun hopen => hon low e a e' hc hopen hrun⟩⟩

theorem peek (k : Nat) : Onward s (Engine.peek k : Run σ Token) := by
  intro low e token e' _ _ hrun
  rw [peek_eq_ok hrun]
  exact .of_eq (Lookahead.position_reach _ _) rfl

theorem matchKind (kind : Kind) : Onward s (Engine.matchKind kind : Run σ Bool) :=
  fun _ _ _ _ h _ hrun => (h.takes_of_matchKind hrun).forward

theorem atDelimiter (kind : Kind) : Onward s (Engine.atDelimiter kind : Run σ Bool) :=
  fun _ _ _ _ h _ hrun =>
    have hstill := h.still_of_atDelimiter hrun
    .of_eq hstill.1 hstill.2

theorem noteDepthHit : Onward s (Engine.noteDepthHit : Run σ Unit) := by
  intro low e a e' h _ hrun
  rcases noteDepthHit_eq_ok h.window hrun with ⟨-, rfl⟩ | ⟨-, rfl⟩
  · exact .of_eq rfl rfl
  · exact .of_eq (Lookahead.position_reach _ _) rfl

/-- A speculation stays where its body stopped or goes back to where that started. -/
theorem speculate {body : Run σ Bool} (hbody : Onward s body) (hsteady : Steady body) :
    Onward s (Engine.speculate body) := by
  intro low e matched e' h _ hrun
  obtain ⟨e₁, hrun₁, hclose⟩ := speculate_eq_ok hrun
  obtain ⟨hle, hsettings⟩ := hbody _ _ _ _ h.pushed (List.cons_ne_nil _ _) hrun₁
  have hsame : e'.settings = e.settings := (settings_of_close hclose).trans hsettings
  cases matched with
  | true => exact ⟨(position_of_commit hclose).symm ▸ hle, hsame⟩
  | false => exact .of_eq ((hsteady.close_speculate hrun).2 rfl).position hsame

theorem memoized {id : RuleId} {body : Run σ Bool} (hbody : Onward s body)
    (hsteady : Steady body) : Onward s (Engine.memoized id body) := by
  intro low e matched e' h hopen hrun
  have hspeculate := speculate hbody hsteady
  rcases memoized_eq_ok hrun with hplain | ⟨outcome, hget, hreplay⟩ | ⟨-, -, e₁, hnew, hkeep⟩
  · have hforward := hspeculate _ _ _ _ (h.counted id) hopen hplain
    exact ⟨hforward.position_le, hforward.settings⟩
  · exact h.forward_of_replayOutcome hget hreplay
  · rw [keepOutcome_eq] at hkeep
    cases hkeep
    have hforward := hspeculate _ _ _ _ (h.fresh id) hopen hnew
    exact ⟨hforward.position_le, hforward.settings⟩

theorem nested {body : Run σ Bool} (hbody : Onward s body) :
    Onward s (Engine.nested body) := by
  intro low e a e' h hopen hrun
  rcases nested_eq_ok hrun with ⟨-, hnote⟩ | ⟨-, e₁, hrun₁, rfl⟩
  · exact noteDepthHit _ _ _ _ h hopen hnote
  · have hdeeper : Coherent s low { e with depth := e.depth + 1 } :=
      h.same rfl rfl (fun _ _ => rfl) rfl rfl
    have hforward := hbody _ _ _ _ hdeeper hopen hrun₁
    exact ⟨hforward.position_le, hforward.settings⟩

theorem compositional :
    Compositional fun m : Run σ _ => Steady m ∧ Upholds s m ∧ Onward s m where
  toComposes := composes
  peek k := ⟨.peek k, .peek k, peek k⟩
  matchKind kind := ⟨.matchKind kind, .matchKind kind, matchKind kind⟩
  atDelimiter delimiter := ⟨.atDelimiter delimiter, .atDelimiter delimiter, atDelimiter delimiter⟩
  speculate h := ⟨h.1.speculate, h.2.1.speculate, speculate h.2.2 h.1⟩
  memoized h := ⟨h.1.memoized, .memoized h.1 h.2.1, memoized h.2.2 h.1⟩
  nested h := ⟨h.1.nested, h.2.1.nested, nested h.2.2⟩

/-- Whatever a rule answers, it does not go back behind where it started. -/
theorem eval {g : Grammar ν} (hg : ∀ name, (g name).StackFree) (n : Nat) {rule : Rule ν}
    (hrule : rule.StackFree) : Onward s (Engine.eval g n rule : Run σ Bool) :=
  (compositional.eval n (.inr ⟨hg, hrule⟩)).2.2

end Onward

-- ============================================================================
-- From a rule to the rules that it comes to run
-- ============================================================================

variable {g : Grammar ν} {n k bound : Nat} {rule rule' : Rule ν} {site site' : Site}

/-- Further on, still under an open mark, and so many levels deeper. -/
structure Inward (levels : Nat) (e e' : Engine σ) : Prop where
  forward : Forward e e'
  opened : e'.speculation.marks ≠ []
  depth : e'.depth = e.depth + levels

omit [TokenSource σ] in
theorem Inward.trans {levels : Nat} (h : Inward 0 e e') (h' : Inward levels e' e'') :
    Inward levels e e'' :=
  ⟨h.forward.trans h'.forward, h'.opened, by rw [h'.depth, h.depth, Nat.add_zero]⟩

theorem Coherent.inward_of_run (h : Coherent s low e) (hopen : e.speculation.marks ≠ [])
    {m : Run σ α} (hm : Onward s m) (hsteady : Steady m) {a : α} (hrun : m e = .ok a e') :
    Inward 0 e e' :=
  have hbalanced := (hsteady _ _ _ hrun).balanced
  ⟨hm _ _ _ _ h hopen hrun, hbalanced.marks ▸ hopen, hbalanced.depth⟩

/-- A loop that goes on goes past its delimiter. -/
theorem Coherent.past_delimiter (h : Coherent s low e) (hopen : e.speculation.marks ≠ [])
    {delimiter : Kind} (hat : atDelimiter delimiter e = .ok true e')
    (hmatch : matchKind delimiter e' = .ok true e'') :
    Coherent s low e'' ∧ Inward 0 e e'' ∧
      (TokenSource.stream s e.buffer.position).kind = delimiter ∧
      e''.buffer.position = e.buffer.position + 1 := by
  have h' := Upholds.atDelimiter _ _ _ _ _ h hat
  have hin := h.inward_of_run hopen (.atDelimiter _) (.atDelimiter _) hat
  have hin' := h'.inward_of_run hin.opened (.matchKind _) (.matchKind _) hmatch
  obtain ⟨hmatched, hposition, -⟩ := h'.takes_of_matchKind hmatch
  rw [(h.still_of_atDelimiter hat).1] at hmatched hposition
  exact ⟨Upholds.matchKind _ _ _ _ _ h' hmatch, hin.trans hin', hmatched.1 rfl, hposition⟩

/-- A rule that comes to run starts where the one that runs it started or behind that; only the
    body of a nested rule is deeper. -/
theorem Coherent.inward_of_enters (h : Coherent s low e) (hopen : e.speculation.marks ≠ [])
    (hg : ∀ name, (g name).StackFree) (hrule : rule.StackFree)
    (henters : Enters g n rule e rule' e') : Inward rule.levels e e' := by
  have hstay : Forward e e := .of_eq rfl rfl
  have heval : ∀ {rule : Rule ν} {low : Nat} {e e' : Engine σ} {matched : Bool}, rule.StackFree →
      Coherent s low e → e.speculation.marks ≠ [] → eval g n rule e = .ok matched e' →
      Inward 0 e e' :=
    fun hrule h hopen => h.inward_of_run hopen (.eval hg n hrule) (.eval hg n hrule)
  cases henters with
  | first => exact ⟨hstay, hopen, rfl⟩
  | second hrun => exact heval hrule.1 h hopen hrun
  | left => exact ⟨hstay, hopen, rfl⟩
  | right hrun => exact heval hrule.1 h hopen hrun
  | negate => exact ⟨hstay, hopen, rfl⟩
  | attempt => exact ⟨.of_eq rfl rfl, List.cons_ne_nil _ _, rfl⟩
  | element hat hmatch => exact (h.past_delimiter hopen hat hmatch).2.1
  | @again _ element _ _ _ _ hat hmatch hrun =>
      have helement : element.StackFree := hrule
      obtain ⟨h₂, hin, -⟩ := h.past_delimiter hopen hat hmatch
      exact hin.trans (heval helement h₂ hin.opened hrun)
  | plain _ => exact ⟨.of_eq rfl rfl, List.cons_ne_nil _ _, rfl⟩
  | new _ _ => exact ⟨.of_eq rfl rfl, List.cons_ne_nil _ _, rfl⟩
  | nested _ => exact ⟨.of_eq rfl rfl, hopen, rfl⟩
  | ref => exact ⟨hstay, hopen, rfl⟩

/-- What comes to run in the course of a run that goes forward does so too. -/
theorem Coherent.comes_open (h : Coherent s low e) (hopen : e.speculation.marks ≠ [])
    (hg : ∀ name, (g name).StackFree) (hrule : rule.StackFree)
    (hcomes : Comes g n rule e rule' e') :
    (∃ low', Coherent s low' e') ∧ e'.speculation.marks ≠ [] ∧ rule'.StackFree := by
  induction hcomes generalizing low with
  | here => exact ⟨⟨low, h⟩, hopen, hrule⟩
  | next henters _ ih =>
      have hopened := (h.inward_of_enters hopen hg hrule henters).opened
      obtain ⟨⟨low', h'⟩, hrule'⟩ := h.enters hg hrule henters
      exact ih h' hopened hrule'

-- ============================================================================
-- Turns of a loop
-- ============================================================================

/-- The loop, on that fuel and from that state, comes to look for its delimiter a `k`-th time. -/
inductive ComesToTurn (g : Grammar ν) (delimiter : Kind) (element : Rule ν) :
    Nat → Engine σ → Nat → Prop where
  | first {n : Nat} {e : Engine σ} : ComesToTurn g delimiter element n e 1
  | again {n k : Nat} {e e' : Engine σ}
      (h : Enters g n (.trail delimiter element) e (.trail delimiter element) e')
      (h' : ComesToTurn g delimiter element n e' k) : ComesToTurn g delimiter element (n + 1) e
        (k + 1)

/-- One turn leads to the next past a delimiter. -/
theorem Coherent.left_of_again (h : Coherent s low e) (hopen : e.speculation.marks ≠ [])
    (hg : ∀ name, (g name).StackFree)
    (hend : TokenSource.EndsBy (TokenSource.stream s) bound) {delimiter : Kind}
    (hdelimiter : delimiter ≠ .eof) {element : Rule ν} (helement : element.StackFree)
    (henters : Enters g n (.trail delimiter element) e (.trail delimiter element) e') :
    tokensLeft (TokenSource.stream s) bound delimiter e'.buffer.position + 1
      ≤ tokensLeft (TokenSource.stream s) bound delimiter e.buffer.position := by
  cases henters with
  | @again _ _ _ e₁ e₂ _ hat hmatch hrun =>
      obtain ⟨h₂, hin, hkind, hposition⟩ := h.past_delimiter hopen hat hmatch
      have hforward := Onward.eval hg n helement _ _ _ _ h₂ hin.opened hrun
      have hanti : tokensLeft (TokenSource.stream s) bound delimiter e'.buffer.position
          ≤ tokensLeft (TokenSource.stream s) bound delimiter (e.buffer.position + 1) :=
        tokensLeft_anti (hposition ▸ hforward.position_le)
      rw [← tokensLeft_succ hend hdelimiter hkind]
      omega

/-- A loop takes at most one turn more than there are delimiters left. -/
theorem Coherent.turns_le (h : Coherent s low e) (hopen : e.speculation.marks ≠ [])
    (hg : ∀ name, (g name).StackFree)
    (hend : TokenSource.EndsBy (TokenSource.stream s) bound) {delimiter : Kind}
    (hdelimiter : delimiter ≠ .eof) {element : Rule ν} (helement : element.StackFree)
    (hturn : ComesToTurn g delimiter element n e k) :
    k ≤ tokensLeft (TokenSource.stream s) bound delimiter e.buffer.position + 1 := by
  have hloop : (Rule.trail delimiter element).StackFree := helement
  induction hturn generalizing low with
  | first => exact Nat.le_add_left _ _
  | again henters _ ih =>
      have hleft := h.left_of_again hopen hg hend hdelimiter helement henters
      have hopened := (h.inward_of_enters hopen hg hloop henters).opened
      obtain ⟨⟨low', h'⟩, -⟩ := h.enters hg hloop henters
      have hle := ih h' hopened
      omega

-- ============================================================================
-- Bodies inside one another
-- ============================================================================

/-- Running the one rule on that fuel from the one state comes to run the other, from the other
    state and inside `k` nested bodies. -/
inductive Amid (g : Grammar ν) : Nat → Rule ν → Engine σ → Nat → Rule ν → Engine σ → Prop where
  | here {n : Nat} {rule : Rule ν} {e : Engine σ} : Amid g n rule e 0 rule e
  | next {n k : Nat} {rule rule' rule'' : Rule ν} {e e' e'' : Engine σ}
      (h : Enters g n rule e rule' e') (h' : Amid g n rule' e' k rule'' e'') :
      Amid g (n + 1) rule e (rule.levels + k) rule'' e''

/-- A nested body runs only above the depth limit. -/
theorem Enters.levels_le (henters : Enters g n rule e rule' e') :
    rule.levels = 0 ∨ e.depth + rule.levels ≤ e.settings.maxDepth := by
  cases henters with
  | nested h => exact .inr h
  | _ => exact .inl rfl

/-- The depth counts the nested bodies, and the depth limit bounds them. -/
theorem Coherent.bodies_le_maxDepth (h : Coherent s low e) (hopen : e.speculation.marks ≠ [])
    (hg : ∀ name, (g name).StackFree) (hrule : rule.StackFree)
    (hamid : Amid g n rule e k rule' e') :
    e'.depth = e.depth + k ∧ (k = 0 ∨ e.depth + k ≤ e.settings.maxDepth) := by
  induction hamid generalizing low with
  | here => exact ⟨rfl, .inl rfl⟩
  | next henters _ ih =>
      obtain ⟨hforward, hopened, hdepth⟩ := h.inward_of_enters hopen hg hrule henters
      obtain ⟨⟨low', h'⟩, hrule'⟩ := h.enters hg hrule henters
      obtain ⟨hdepth', hle⟩ := ih h' hopened hrule'
      have hlevels := henters.levels_le
      rw [hforward.settings] at hle
      omega

/-- Where a bracketed rule that matches leads inside a bracket, it took an opening one. -/
theorem Coherent.left_of_bracketed (hg : ∀ name, (g name).StackFree)
    (hend : TokenSource.EndsBy (TokenSource.stream s) bound) (hrule : Bracketed rule site site')
    (h : Coherent s low e) (hopen : e.speculation.marks ≠ [])
    (hrun : eval g n rule e = .ok true e') :
    (tokensLeft (TokenSource.stream s) bound .lbracket e'.buffer.position : Int) + site.lag
      ≤ tokensLeft (TokenSource.stream s) bound .lbracket e.buffer.position + site'.lag := by
  induction n generalizing rule low e e' site site' with
  | zero => cases hrun
  | succ n ih =>
      have hforward := Onward.eval hg (n + 1) hrule.stackFree _ _ _ _ h hopen hrun
      have hanti : tokensLeft (TokenSource.stream s) bound .lbracket e'.buffer.position
          ≤ tokensLeft (TokenSource.stream s) bound .lbracket e.buffer.position :=
        tokensLeft_anti hforward.position_le
      cases hrule with
      | opening =>
          have htake := h.takes_of_matchKind hrun
          have hleft := tokensLeft_succ hend (by decide) (htake.matched_iff.1 rfl)
          have hposition : e'.buffer.position = e.buffer.position + 1 := htake.position
          rw [hposition]
          simp only [Site.lag]
          omega
      | closing =>
          simp only [Site.lag]
          omega
      | both hfirst hsecond =>
          obtain ⟨matched, e₁, hrun₁, hrest⟩ := Run.bind_eq_ok_iff.1 hrun
          cases matched with
          | false => cases hrest
          | true =>
              have h₁ := Upholds.eval hg n hfirst.stackFree _ _ _ _ h hrun₁
              have hin := h.inward_of_run hopen (.eval hg n hfirst.stackFree)
                (.eval hg n hfirst.stackFree) hrun₁
              have hle := ih hfirst h hopen hrun₁
              have hle' := ih hsecond h₁ hin.opened hrest
              omega
      | @either first _ _ _ hfirst hsecond =>
          obtain ⟨matched, e₁, hrun₁, hrest⟩ := Run.bind_eq_ok_iff.1 hrun
          have hattempt : (Rule.attempt first).StackFree := hfirst.stackFree
          have h₁ := Upholds.eval hg n hattempt _ _ _ _ h hrun₁
          have hin := h.inward_of_run hopen (.eval hg n hattempt) (.eval hg n hattempt) hrun₁
          cases matched with
          | true =>
              cases hrest
              exact ih (.attempt hfirst) h hopen hrun₁
          | false =>
              -- The alternative that failed was an attempt, so the other starts where it started.
              have hle := ih hsecond h₁ hin.opened hrest
              rwa [(restored_of_attempt hg hfirst.stackFree hrun₁).position] at hle
      | attempt hrule =>
          obtain ⟨e₁, hrun₁, hclose⟩ := speculate_eq_ok hrun
          rw [position_of_commit hclose]
          have hle := ih hrule h.pushed (List.cons_ne_nil _ _) hrun₁
          exact hle
      | _ => omega

/-- Going from a bracketed rule to one that it comes to run takes an opening bracket for every
    level that it goes deeper, or is about to take it. -/
theorem Coherent.left_of_enters (hbracketed : ∀ name, Bracketed (g name) .level .level)
    (hend : TokenSource.EndsBy (TokenSource.stream s) bound) (hrule : Bracketed rule site site')
    (h : Coherent s low e) (hopen : e.speculation.marks ≠ [])
    (henters : Enters g n rule e rule' e') :
    ∃ site₁ site₁', Bracketed rule' site₁ site₁' ∧
      (rule.levels : Int) + tokensLeft (TokenSource.stream s) bound .lbracket e'.buffer.position
        + site.lag
      ≤ tokensLeft (TokenSource.stream s) bound .lbracket e.buffer.position + site₁.lag := by
  have hg : ∀ name, (g name).StackFree := fun name => (hbracketed name).stackFree
  have hforward := (h.inward_of_enters hopen hg hrule.stackFree henters).forward
  have hanti : tokensLeft (TokenSource.stream s) bound .lbracket e'.buffer.position
      ≤ tokensLeft (TokenSource.stream s) bound .lbracket e.buffer.position :=
    tokensLeft_anti hforward.position_le
  cases hrule with
  | both hfirst hsecond =>
      cases henters with
      | first => exact ⟨_, _, hfirst, by simp [Rule.levels]⟩
      | second hrun =>
          have hle := left_of_bracketed hg hend hfirst h hopen hrun
          exact ⟨_, _, hsecond, by simpa [Rule.levels] using hle⟩
  | either hfirst hsecond =>
      cases henters with
      | left => exact ⟨_, _, .attempt hfirst, by simp [Rule.levels]⟩
      | right hrun => exact ⟨_, _, hsecond, by simp only [Rule.levels]; omega⟩
  | attempt hrule =>
      cases henters
      exact ⟨_, _, hrule, by simp only [Rule.levels]; omega⟩
  | trail hl hr helement =>
      cases henters with
      | element => exact ⟨_, _, helement, by simp only [Rule.levels]; omega⟩
      | again => exact ⟨_, _, .trail hl hr helement, by simp only [Rule.levels]; omega⟩
  | memo hsite hbody =>
      rw [Site.lag_of_ne hsite]
      cases henters with
      | plain => exact ⟨_, _, hbody, by simp only [Rule.levels, Site.lag]; omega⟩
      | new => exact ⟨_, _, hbody, by simp only [Rule.levels, Site.lag]; omega⟩
  | nested hsite hbody =>
      rw [Site.lag_of_ne hsite]
      cases henters
      exact ⟨_, _, hbody, by simp only [Rule.levels, Site.lag]; omega⟩
  | ref hsite =>
      rw [Site.lag_of_ne hsite]
      cases henters
      exact ⟨_, _, hbracketed _, by simp only [Rule.levels, Site.lag]; omega⟩
  | _ => cases henters

/-- If every nested rule goes around a bracket, there are never more nested bodies inside one
    another than one more than there were opening brackets left. -/
theorem Coherent.bodies_le_brackets (hbracketed : ∀ name, Bracketed (g name) .level .level)
    (hend : TokenSource.EndsBy (TokenSource.stream s) bound) (hrule : Bracketed rule site site')
    (h : Coherent s low e) (hopen : e.speculation.marks ≠ [])
    (hamid : Amid g n rule e k rule' e') :
    (k : Int) + site.lag
      ≤ tokensLeft (TokenSource.stream s) bound .lbracket e.buffer.position + 1 := by
  have hg : ∀ name, (g name).StackFree := fun name => (hbracketed name).stackFree
  induction hamid generalizing low site site' with
  | here =>
      have hlag : site.lag ≤ 1 := by cases site <;> decide
      omega
  | next henters _ ih =>
      obtain ⟨site₁, site₁', hrule', hleft⟩ :=
        left_of_enters hbracketed hend hrule h hopen henters
      have hopened := (h.inward_of_enters hopen hg hrule.stackFree henters).opened
      obtain ⟨⟨low', h'⟩, -⟩ := h.enters hg hrule.stackFree henters
      have hle := ih hrule' h' hopened
      push_cast
      omega

end Engine
end Packrat
