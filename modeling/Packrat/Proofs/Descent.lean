/-
  Packrat.Proofs.Descent

  In a run that ends no rule comes to run inside its own run from the same place.

  Whatever the engine comes to run under an open mark (`Enters`), plain
  backtracking comes to run as well, and on less fuel (`EndsOn.enters`): what ran
  before answered what backtracking answers and led where it leads.  A rule that
  came to run inside its own run from the same place would end on less and less
  fuel (`Inside.not_mem`).  What is kept plays no part in this, since plain
  backtracking keeps nothing.
-/

import Packrat.Proofs.Safety
import Packrat.Proofs.Starts
import Packrat.Proofs.Twins

namespace Packrat

variable {ν α β : Type} {i : Nat}

-- ============================================================================
-- Backtracking that ends
-- ============================================================================

/-- Plain backtracking ends on that fuel, with an answer or in a fault. -/
def Ground.EndsOn (G : Ground ν) (n : Nat) (rule : Rule ν) (i : Nat) : Prop :=
  (G.backtrack n rule i).result ≠ .error .exhausted

namespace Reading

variable {r : Reading α}

/-- A reading that goes on ends only if its first part does. -/
theorem ends_of_andThen {f : α → Pass β} {fault : Fault}
    (h : (r.andThen f).result ≠ .error fault) : r.result ≠ .error fault := by
  intro hr
  rw [andThen_of_error hr] at h
  exact h rfl

/-- What a reading comes to after a yes. -/
theorem result_andThen_of_true {r : Reading Bool} {p q : Pass Bool} (hr : r.result = .ok true) :
    (r.andThen fun a => if a then p else q).result = (p r.stop).result := by
  rw [andThen_of_ok hr]
  rfl

/-- What a reading comes to after a no. -/
theorem result_andThen_of_false {r : Reading Bool} {p q : Pass Bool} (hr : r.result = .ok false) :
    (r.andThen fun a => if a then p else q).result = (q r.stop).result := by
  rw [andThen_of_ok hr]
  rfl

end Reading

theorem Pass.ends_of_rewind {p : Pass Bool} {fault : Fault}
    (h : (p.rewind i).result ≠ .error fault) : (p i).result ≠ .error fault := by
  simp only [rewind] at h
  split at h
  · next hresult =>
      simp [hresult]
  · exact h

namespace Engine

variable {σ : Type} [TokenSource σ] {s : σ} {g : Grammar ν} {bodyOf : RuleId → Rule ν}
variable {n m : Nat} {e e' : Engine σ} {rule rule' : Rule ν}

-- ============================================================================
-- What the engine comes to run
-- ============================================================================

/-- Plain rules come to run only plain rules, and from states that are as sound. -/
theorem Sound.enters (h : Sound s g bodyOf e) (hg : ∀ name, (g name).Plain bodyOf)
    (hrule : rule.Plain bodyOf) (henters : Enters g n rule e rule' e') :
    Sound s g bodyOf e' ∧ rule'.Plain bodyOf := by
  have heval : ∀ {rule : Rule ν}, rule.Plain bodyOf → Sustains s g bodyOf (eval g n rule) :=
    .eval hg n
  have hdelimiter : ∀ kind, Sustains s g bodyOf (atDelimiter kind) := fun kind =>
    .of_tracks (.atDelimiter kind) (.atDelimiter (n := n) kind)
  have hmatch : ∀ kind, Sustains s g bodyOf (matchKind kind) := fun kind =>
    .of_tracks (.matchKind kind) (.matchKind (n := n) kind)
  obtain ⟨hstack, hone⟩ := hrule
  cases henters with
  | first => exact ⟨h, hstack.1, hone.1⟩
  | second hrun => exact ⟨heval ⟨hstack.1, hone.1⟩ _ _ _ h hrun, hstack.2, hone.2⟩
  | left => exact ⟨h, hstack.1, hone.1⟩
  | right hrun => exact ⟨heval ⟨hstack.1, hone.1⟩ _ _ _ h hrun, hstack.2, hone.2⟩
  | negate => exact ⟨h, hstack, hone⟩
  | attempt => exact ⟨h.pushed, hstack, hone⟩
  | element hat htake =>
      exact ⟨hmatch _ _ _ _ (hdelimiter _ _ _ _ h hat) htake, hstack, hone⟩
  | @again _ element _ _ _ _ hat htake hrun =>
      have helement : element.Plain bodyOf := ⟨hstack, hone⟩
      exact ⟨heval helement _ _ _ (hmatch _ _ _ _ (hdelimiter _ _ _ _ h hat) htake) hrun,
        hstack, hone⟩
  | plain _ => exact ⟨(h.counted _).pushed, hstack, hone.2⟩
  | new _ _ => exact ⟨(h.fresh _).pushed, hstack, hone.2⟩
  | nested _ => exact ⟨h.deeper, hstack, hone⟩
  | ref => exact ⟨h, hg _⟩

/-- Under an open mark what comes to run is under an open mark, and nothing was dropped. -/
theorem Enters.grown (henters : Enters g n rule e rule' e') (hg : ∀ name, (g name).Plain bodyOf)
    (hrule : rule.Plain bodyOf) (hopen : e.speculation.marks ≠ []) :
    e'.speculation.marks ≠ [] ∧ Grown e e' := by
  have htidy : ∀ {e e' : Engine σ}, Tidy e e' → e.speculation.marks ≠ [] →
      e'.speculation.marks ≠ [] ∧ Grown e e' := fun h hopen =>
    ⟨h.balanced.marks ▸ hopen, h.grown hopen⟩
  have hsame : ∀ {e' : Engine σ}, e'.buffer = e.buffer → e'.compactions = e.compactions →
      (∀ id pos, e'.memo.get? id pos = e.memo.get? id pos) → Grown e e' := .of_buffer_eq
  have heval : ∀ {rule : Rule ν}, rule.StackFree → Steady (eval g n rule : Run σ Bool) :=
    .eval (stackFree_of_plain hg) n
  have hstack := hrule.stackFree
  cases henters with
  | first => exact ⟨hopen, hsame rfl rfl fun _ _ => rfl⟩
  | second hrun => exact htidy (heval hstack.1 _ _ _ hrun) hopen
  | left => exact ⟨hopen, hsame rfl rfl fun _ _ => rfl⟩
  | right hrun => exact htidy (heval hstack.1 _ _ _ hrun) hopen
  | negate => exact ⟨hopen, hsame rfl rfl fun _ _ => rfl⟩
  | attempt => exact ⟨List.cons_ne_nil _ _, hsame rfl rfl fun _ _ => rfl⟩
  | element hat htake =>
      exact htidy ((Steady.atDelimiter _ _ _ _ hat).trans (Steady.matchKind _ _ _ _ htake)) hopen
  | @again _ element _ _ _ _ hat htake hrun =>
      have helement : element.StackFree := hstack
      exact htidy (((Steady.atDelimiter _ _ _ _ hat).trans
        (Steady.matchKind _ _ _ _ htake)).trans (heval helement _ _ _ hrun)) hopen
  | plain _ => exact ⟨List.cons_ne_nil _ _, hsame rfl rfl fun _ _ => rfl⟩
  | new _ _ => exact ⟨List.cons_ne_nil _ _, hsame rfl rfl fun _ _ => Memo.get?_snd_lookup _ _ _ _ _⟩
  | nested _ => exact ⟨hopen, hsame rfl rfl fun _ _ => rfl⟩
  | ref => exact ⟨hopen, hsame rfl rfl fun _ _ => rfl⟩

/-- A rule starts its own body, if it is a memoized one, and what the rules start that it comes to
    run. -/
theorem mem_starts_succ {x : Start} (hmem : x ∈ starts g (n + 1) rule e) :
    (∃ id body, rule = .memo id body ∧ x = e.startOf id) ∨
    ∃ rule' e', Enters g n rule e rule' e' ∧ x ∈ starts g n rule' e' := by
  cases rule with
  | token kind => cases hmem
  | const answer => cases hmem
  | both first second =>
      rcases List.mem_append.1 hmem with hmem | hmem
      · exact .inr ⟨first, e, .first, hmem⟩
      · obtain ⟨e₁, hrun, hmem⟩ := Run.mem_following hmem
        exact .inr ⟨second, e₁, .second hrun, hmem⟩
  | either first second =>
      rcases List.mem_append.1 hmem with hmem | hmem
      · exact .inr ⟨first, e, .left, hmem⟩
      · obtain ⟨e₁, hrun, hmem⟩ := Run.mem_following hmem
        exact .inr ⟨second, e₁, .right hrun, hmem⟩
  | negate rule => exact .inr ⟨rule, e, .negate, hmem⟩
  | attempt rule => exact .inr ⟨rule, e.pushed, .attempt, hmem⟩
  | trail delimiter element =>
      obtain ⟨e₁, hat, hmem⟩ := Run.mem_following hmem
      obtain ⟨e₂, htake, hmem⟩ := Run.mem_following hmem
      rcases List.mem_append.1 hmem with hmem | hmem
      · exact .inr ⟨element, e₂, .element hat htake, hmem⟩
      · obtain ⟨e₃, hrun, hmem⟩ := Run.mem_following hmem
        exact .inr ⟨_, e₃, .again hat htake hrun, hmem⟩
  | memo id body =>
      simp only [starts] at hmem
      split at hmem
      · next huses =>
          split at hmem
          · cases hmem
          · next hnew =>
              rcases List.mem_cons.1 hmem with rfl | hmem
              · exact .inl ⟨id, body, rfl, rfl⟩
              · exact .inr ⟨body, _, .new huses hnew, hmem⟩
      · next huses =>
          rcases List.mem_cons.1 hmem with rfl | hmem
          · exact .inl ⟨id, body, rfl, rfl⟩
          · exact .inr ⟨body, _, .plain (Bool.not_eq_true _ ▸ huses), hmem⟩
  | nested body =>
      simp only [starts] at hmem
      split at hmem
      · cases hmem
      · next hdeep => exact .inr ⟨body, _, .nested (Nat.lt_of_not_le hdeep), hmem⟩
  | ref name => exact .inr ⟨g name, e, .ref, hmem⟩
  | ahead k kind => cases hmem
  | stack step => cases hmem

/-- All that is started under an open mark is started under open marks, without a compaction in
    between. -/
theorem starts_of_open (hg : ∀ name, (g name).Plain bodyOf) (hrule : rule.Plain bodyOf)
    (h : Sound s g bodyOf e) (hopen : e.speculation.marks ≠ []) {x : Start}
    (hmem : x ∈ starts g n rule e) : x.speculating = true ∧ x.epoch = e.compactions := by
  induction n generalizing rule e with
  | zero => cases hmem
  | succ n ih =>
      rcases mem_starts_succ hmem with ⟨id, body, -, rfl⟩ | ⟨rule', e', henters, hmem⟩
      · refine ⟨?_, rfl⟩
        simpa [startOf, isSpeculating, Speculation.isEmpty] using hopen
      · obtain ⟨hopen', hgrown⟩ := henters.grown hg hrule hopen
        obtain ⟨h', hrule'⟩ := h.enters hg hrule henters
        rw [← hgrown.compactions]
        exact ih hrule' h' hopen' hmem

/-- An answer under an open mark is what the pass yields that the step tracks, and leads where
    that stops. -/
theorem Sound.yields {p : Nat → Nat → Pass α} {m : Run σ α} {a : α} (h : Sound s g bodyOf e)
    (htracks : Tracks s g bodyOf p n m) (hopen : e.speculation.marks ≠ [])
    (hrun : m e = .ok a e') (hfree : e'.depthHit = none) :
    ∃ r, Yields (p e.buffer.base) e.buffer.position r ∧ r.result = .ok a ∧
      r.stop = e'.buffer.position := by
  obtain ⟨low, hc⟩ := h.coherent
  have htallies := htracks low e hc h.trusting
  rw [hrun] at htallies
  obtain ⟨r, hyields, hr, hled⟩ := htallies.2 hopen hfree
  exact ⟨r, hyields, hr, hled.position.symm⟩

/-- What a rule answered, plain backtracking answers if it ends. -/
theorem Sound.backtrack (h : Sound s g bodyOf e) (hg : ∀ name, (g name).Plain bodyOf)
    (hrule : rule.Plain bodyOf) (hopen : e.speculation.marks ≠ []) {matched : Bool}
    (hrun : eval g n rule e = .ok matched e') (hfree : e'.depthHit = none)
    (hends : (groundFrom s g e.buffer.base).EndsOn m rule e.buffer.position) :
    ((groundFrom s g e.buffer.base).backtrack m rule e.buffer.position).result = .ok matched ∧
      ((groundFrom s g e.buffer.base).backtrack m rule e.buffer.position).stop
        = e'.buffer.position := by
  obtain ⟨r, hyields, hr, hstop⟩ := h.yields (.eval hg n hrule) hopen hrun hfree
  rw [(Ground.firm_backtrack _ rule).of_yields hends hyields]
  exact ⟨hr, hstop⟩

omit [TokenSource σ] in
/-- Where a step ends without a hit of the depth limit, there was none before. -/
theorem Latches.eq_none_of_ok {m : Run σ α} {a : α} (h : Latches m) (hrun : m e = .ok a e')
    (hfree : e'.depthHit = none) : e.depthHit = none := by
  refine Classical.byContradiction fun hhit => h e hhit ?_
  rw [hrun]
  exact hfree

/-- Behind a delimiter that was taken, plain backtracking goes on with the element. -/
theorem EndsOn.trail {delimiter : Kind} {element : Rule ν} {e₁ : Engine σ}
    (h : Sound s g bodyOf e) (hopen : e.speculation.marks ≠ [])
    (hat : atDelimiter delimiter e = .ok true e₁) (htake : matchKind delimiter e₁ = .ok true e')
    (hfree : e'.depthHit = none)
    (hends : (groundFrom s g e.buffer.base).EndsOn (m + 1) (.trail delimiter element)
      e.buffer.position) :
    let G := groundFrom s g e.buffer.base
    ((G.backtrack m element e'.buffer.position).andThen fun a =>
      if a then G.backtrack m (.trail delimiter element) else pure false).result
        ≠ .error .exhausted := by
  intro G
  have htracks : Tracks s g bodyOf (fun base _ => (groundFrom s g base).atDelimiter delimiter) 0
      (atDelimiter delimiter) := .atDelimiter delimiter
  have htidy := Steady.atDelimiter _ _ _ _ hat
  have h₁ : Sound s g bodyOf e₁ :=
    Sustains.of_tracks (.atDelimiter delimiter) htracks _ _ _ h hat
  have hopen₁ : e₁.speculation.marks ≠ [] := htidy.balanced.marks ▸ hopen
  have hbase : e₁.buffer.base = e.buffer.base := (htidy.grown hopen).base
  obtain ⟨_, hyields, hr, hstop⟩ := h.yields htracks hopen hat
    ((Latches.matchKind delimiter).eq_none_of_ok htake hfree)
  obtain ⟨_, hyields', hr', hstop'⟩ := h₁.yields (n := 0) (.matchKind delimiter) hopen₁ htake hfree
  obtain rfl := (Yields.const rfl).unique hyields
  obtain rfl := (Yields.const rfl).unique hyields'
  rw [hbase, ← hstop] at hr' hstop'
  have hends' : (G.backtrack (m + 1) (.trail delimiter element) e.buffer.position).result
      ≠ .error .exhausted := hends
  rw [Ground.backtrack, Pass.bind_apply, Reading.result_andThen_of_true hr, Pass.bind_apply,
    Reading.result_andThen_of_true hr', hstop'] at hends'
  exact hends'

/-- What the engine comes to run under an open mark, plain backtracking comes to run from the
    same place, on less fuel. -/
theorem EndsOn.enters (h : Sound s g bodyOf e) (hg : ∀ name, (g name).Plain bodyOf)
    (hrule : rule.Plain bodyOf) (hopen : e.speculation.marks ≠ [])
    (henters : Enters g n rule e rule' e') (hfree : e'.depthHit = none)
    (hends : (groundFrom s g e.buffer.base).EndsOn m rule e.buffer.position) :
    ∃ k, k < m ∧ (groundFrom s g e.buffer.base).EndsOn k rule' e'.buffer.position := by
  cases m with
  | zero => exact absurd rfl hends
  | succ m =>
      refine ⟨m, Nat.lt_succ_self m, ?_⟩
      have hstack := hrule.stackFree
      have hone := hrule.oneBody
      cases henters with
      | first => exact Reading.ends_of_andThen hends
      | second hrun =>
          obtain ⟨hr, hstop⟩ := h.backtrack hg ⟨hstack.1, hone.1⟩ hopen hrun hfree
            (Reading.ends_of_andThen hends)
          rw [Ground.EndsOn, ← hstop]
          exact (Reading.result_andThen_of_true hr).symm ▸ hends
      | left => exact Reading.ends_of_andThen hends
      | right hrun =>
          obtain ⟨hr, hstop⟩ := h.backtrack hg ⟨hstack.1, hone.1⟩ hopen hrun hfree
            (Reading.ends_of_andThen hends)
          rw [Ground.EndsOn, ← hstop]
          exact (Reading.result_andThen_of_false hr).symm ▸ hends
      | negate => exact Reading.ends_of_andThen hends
      | attempt => exact Pass.ends_of_rewind hends
      | element hat htake =>
          exact Reading.ends_of_andThen (EndsOn.trail h hopen hat htake hfree hends)
      | @again _ element _ _ e₂ _ hat htake hrun =>
          have helement : element.Plain bodyOf := ⟨hstack, hone⟩
          have hfree₂ := (Latches.eval g n element).eq_none_of_ok hrun hfree
          have hends₂ := EndsOn.trail h hopen hat htake hfree₂ hends
          obtain ⟨h₂, -⟩ := h.enters hg ⟨hstack, hone⟩ (.element (n := n) hat htake)
          obtain ⟨hopen₂, hgrown⟩ := Enters.grown (.element (n := n) hat htake) hg hrule hopen
          rw [← hgrown.base] at hends₂ ⊢
          obtain ⟨hr, hstop⟩ := h₂.backtrack hg helement hopen₂ hrun hfree
            (Reading.ends_of_andThen hends₂)
          rw [Ground.EndsOn, ← hstop]
          exact (Reading.result_andThen_of_true hr).symm ▸ hends₂
      | plain _ => exact Pass.ends_of_rewind hends
      | new _ _ => exact Pass.ends_of_rewind hends
      | nested _ => exact hends
      | ref => exact hends

-- ============================================================================
-- Runs inside runs
-- ============================================================================

/-- The rule comes to run inside the runs of the bodies that are listed.  Wherever plain
    backtracking ends on one of these, it ends on the rule here, and on less fuel. -/
structure Inside (s : σ) (g : Grammar ν) (bodyOf : RuleId → Rule ν) (running : List Start)
    (rule : Rule ν) (e : Engine σ) : Prop where
  opened : running ≠ [] → e.speculation.marks ≠ []
  descends : ∀ x ∈ running, ∀ m,
    (groundFrom s g e.buffer.base).EndsOn m (.memo x.rule (bodyOf x.rule)) x.position →
    ∃ k, k < m ∧ (groundFrom s g e.buffer.base).EndsOn k rule e.buffer.position

variable {running : List Start}

theorem Inside.nil (rule : Rule ν) (e : Engine σ) : Inside s g bodyOf [] rule e where
  opened h := absurd rfl h
  descends _ hmem := nomatch hmem

theorem Inside.enters (h : Inside s g bodyOf running rule e) (hsound : Sound s g bodyOf e)
    (hg : ∀ name, (g name).Plain bodyOf) (hrule : rule.Plain bodyOf)
    (henters : Enters g n rule e rule' e') (hfree : e'.depthHit = none) :
    Inside s g bodyOf running rule' e' where
  opened hsome := (henters.grown hg hrule (h.opened hsome)).1
  descends := by
    intro x hmem m hends
    have hopen := h.opened (List.ne_nil_of_mem hmem)
    rw [(henters.grown hg hrule hopen).2.base] at hends ⊢
    obtain ⟨k, hk, hends⟩ := h.descends x hmem m hends
    obtain ⟨k', hk', hends⟩ := EndsOn.enters hsound hg hrule hopen henters hfree hends
    exact ⟨k', Nat.lt_trans hk' hk, hends⟩

/-- A body that is started runs inside itself. -/
theorem Inside.started {id : RuleId} (h : Inside s g bodyOf running (.memo id (bodyOf id)) e)
    (hsound : Sound s g bodyOf e) (hg : ∀ name, (g name).Plain bodyOf)
    (hbody : (bodyOf id).Plain bodyOf)
    (huses : (e.settings.memoize && e.isSpeculating) = true)
    (hnew : e.memo.get? id e.buffer.cursor = none) (hfree : e.depthHit = none) :
    Inside s g bodyOf (e.startOf id :: running) (bodyOf id) (e.fresh id).pushed where
  opened _ := List.cons_ne_nil _ _
  descends := by
    have hrule : (Rule.memo id (bodyOf id)).Plain bodyOf := ⟨hbody.stackFree, rfl, hbody.oneBody⟩
    have hrest := h.enters hsound hg hrule (.new (n := 0) huses hnew) hfree
    intro x hmem m hends
    rcases List.mem_cons.1 hmem with rfl | hmem
    · cases m with
      | zero => exact absurd rfl hends
      | succ m => exact ⟨m, Nat.lt_succ_self m, Pass.ends_of_rewind hends⟩
    · exact hrest.descends x hmem m hends

/-- A rule that plain backtracking ends on does not come to run inside its own run from the same
    place. -/
theorem Inside.not_mem {id : RuleId} (h : Inside s g bodyOf running (.memo id (bodyOf id)) e)
    (hends : (groundFrom s g e.buffer.base).EndsOn m (.memo id (bodyOf id)) e.buffer.position) :
    e.startOf id ∉ running := by
  intro hmem
  -- Each run of the rule that ends would have another one inside it that ends on less fuel.
  induction m using Nat.strongRecOn with
  | ind m ih =>
      obtain ⟨k, hk, hends⟩ := h.descends _ hmem m hends
      exact ih k hk hends

end Engine
end Packrat
