/-
  Packrat.Proofs.Twins

  What an engine keeps does not show where the depth limit plays no part.

  Two engines are twins (`Twin`) if they differ in nothing but what they keep and
  what they counted.  Most steps look at neither and act alike on twins
  (`Blind`).  A rule through its memo does look: the one engine may replay what
  the other one runs, which may take the latter more fuel.  So for runs of rules
  (`Echoes`) it is shown that the twin ends as well on enough fuel and does the
  same whenever it ends.

  The case of a memoized rule needs no comparison of what the two keep.  Under an
  open mark each engine tracks plain backtracking, whatever it keeps, and what
  backtracking yields is unique.
-/

import Packrat.Proofs.Refinement

namespace Packrat

/-- The step did not run out of fuel. -/
def Run.Ends {σ α : Type} : EStateM.Result Fault (Engine σ) α → Prop
  | .ok _ _ => True
  | .error fault _ => fault ≠ .exhausted

theorem Run.Ends.of_bind {σ α β : Type} {m : Run σ α} {k : α → Run σ β} {e : Engine σ}
    (h : Run.Ends ((m >>= k) e)) : Run.Ends (m e) := by
  cases hrun : m e with
  | ok a e' => trivial
  | error fault e' =>
      rw [Run.bind_of_error hrun] at h
      exact h

namespace Engine

variable {σ ν α β : Type} {e₁ e₂ : Engine σ}

/-- The engines differ only in what they keep and in what they counted. -/
structure Twin (e₁ e₂ : Engine σ) : Prop where
  buffer : e₁.buffer = e₂.buffer
  marks : e₁.speculation.marks = e₂.speculation.marks
  settings : e₁.settings = e₂.settings
  furthest : e₁.furthest = e₂.furthest
  depth : e₁.depth = e₂.depth
  depthHit : e₁.depthHit = e₂.depthHit

/-- The two steps answer the same or end in the same fault, and leave twins. -/
def Alike (x₁ x₂ : EStateM.Result Fault (Engine σ) α) : Prop :=
  match x₁ with
  | .ok a e₁ => ∃ e₂, x₂ = .ok a e₂ ∧ Twin e₁ e₂
  | .error fault e₁ => ∃ e₂, x₂ = .error fault e₂ ∧ Twin e₁ e₂

theorem Twin.refl (e : Engine σ) : Twin e e := ⟨rfl, rfl, rfl, rfl, rfl, rfl⟩

theorem Twin.withBuffer (h : Twin e₁ e₂) (b : Lookahead σ) :
    Twin { e₁ with buffer := b } { e₂ with buffer := b } :=
  ⟨rfl, h.marks, h.settings, h.furthest, h.depth, h.depthHit⟩

theorem Twin.withMarks (h : Twin e₁ e₂) {spec₁ spec₂ : Speculation}
    (hmarks : spec₁.marks = spec₂.marks) :
    Twin { e₁ with speculation := spec₁ } { e₂ with speculation := spec₂ } :=
  ⟨h.buffer, hmarks, h.settings, h.furthest, h.depth, h.depthHit⟩

theorem Twin.pushed (h : Twin e₁ e₂) : Twin e₁.pushed e₂.pushed := by
  apply h.withMarks
  show _ :: _ = _ :: _
  rw [h.buffer, h.marks]

theorem Twin.begun (h : Twin e₁ e₂) : Twin e₁.begun e₂.begun :=
  ⟨h.buffer, h.marks, h.settings, rfl, h.depth, rfl⟩

theorem Twin.counted (h : Twin e₁ e₂) (id : RuleId) : Twin (e₁.counted id) (e₂.counted id) :=
  ⟨h.buffer, h.marks, h.settings, h.furthest, h.depth, h.depthHit⟩

theorem Twin.fresh (h : Twin e₁ e₂) (id : RuleId) : Twin (e₁.fresh id) (e₂.fresh id) :=
  ⟨h.buffer, h.marks, h.settings, rfl, h.depth, h.depthHit⟩

/-- A level further down. -/
theorem Twin.deeper (h : Twin e₁ e₂) :
    Twin { e₁ with depth := e₁.depth + 1 } { e₂ with depth := e₂.depth + 1 } :=
  ⟨h.buffer, h.marks, h.settings, h.furthest, by rw [h.depth], h.depthHit⟩

theorem Twin.canCompact (h : Twin e₁ e₂) : e₁.canCompact = e₂.canCompact := by
  simp only [Engine.canCompact, Speculation.isEmpty, h.buffer, h.marks]

-- ============================================================================
-- Steps that do not look at what is kept
-- ============================================================================

/-- The step acts alike on twins. -/
def Blind (m : Run σ α) : Prop := ∀ e₁ e₂, Twin e₁ e₂ → Alike (m e₁) (m e₂)

namespace Blind

theorem pure (a : α) : Blind (Pure.pure a : Run σ α) := fun _ e₂ h => ⟨e₂, rfl, h⟩

theorem bind {m : Run σ α} {k : α → Run σ β} (hm : Blind m) (hk : ∀ a, Blind (k a)) :
    Blind (m >>= k) := by
  intro e₁ e₂ h
  have hfirst := hm e₁ e₂ h
  cases hrun : m e₁ with
  | ok a e₁' =>
      rw [hrun] at hfirst
      obtain ⟨e₂', hrun₂, htwin⟩ := hfirst
      rw [Run.bind_of_ok hrun, Run.bind_of_ok hrun₂]
      exact hk a e₁' e₂' htwin
  | error fault e₁' =>
      rw [hrun] at hfirst
      obtain ⟨e₂', hrun₂, htwin⟩ := hfirst
      rw [Run.bind_of_error hrun]
      exact ⟨e₂', Run.bind_of_error hrun₂, htwin⟩

theorem composes : Composes fun m : Run σ _ => Blind m where
  pure := pure
  throw _ _ e₂ h := ⟨e₂, rfl, h⟩
  bind := bind

theorem modify {f : Engine σ → Engine σ} (hf : ∀ e₁ e₂, Twin e₁ e₂ → Twin (f e₁) (f e₂)) :
    Blind (modify f : Run σ Unit) := fun e₁ e₂ h => ⟨f e₂, rfl, hf e₁ e₂ h⟩

theorem onBuffer (step : Lookahead.Step σ α) : Blind (Engine.onBuffer step) := by
  intro e₁ e₂ h
  simp only [Engine.onBuffer, h.buffer]
  cases step e₂.buffer with
  | ok a b => exact ⟨_, rfl, h.withBuffer b⟩
  | error fault b => exact ⟨_, rfl, h.withBuffer b⟩

theorem cursor : Blind (Engine.cursor : Run σ Nat) := by
  intro e₁ e₂ h
  refine ⟨e₂, ?_, h⟩
  rw [h.buffer]
  rfl

theorem abandon : Blind (Engine.abandon : Run σ Unit) := by
  intro e₁ e₂ h
  cases hmarks : e₁.speculation.marks with
  | nil =>
      rw [abandon_of_nil hmarks, abandon_of_nil (h.marks.symm.trans hmarks)]
      exact ⟨e₂, rfl, h⟩
  | cons mark marks =>
      rw [abandon_of_cons hmarks, abandon_of_cons (h.marks.symm.trans hmarks)]
      have htwin : Twin (e₁.unmarked marks) (e₂.unmarked marks) := h.withMarks rfl
      exact onBuffer _ _ _ htwin

theorem compact : Blind (Engine.compact : Run σ Unit) := by
  intro e₁ e₂ h
  simp only [Engine.compact, h.canCompact]
  split
  · refine ⟨_, rfl, ?_⟩
    exact ⟨by rw [h.buffer], h.marks, h.settings, h.furthest, h.depth, h.depthHit⟩
  · exact ⟨e₂, rfl, h⟩

theorem commit : Blind (Engine.commit : Run σ Unit) := by
  intro e₁ e₂ h
  cases hmarks : e₁.speculation.marks with
  | nil =>
      rw [commit_of_nil hmarks, commit_of_nil (h.marks.symm.trans hmarks)]
      exact ⟨e₂, rfl, h⟩
  | cons mark marks =>
      have htwin : Twin (e₁.committed marks) (e₂.committed marks) := h.withMarks rfl
      rw [commit_of_cons hmarks, commit_of_cons (h.marks.symm.trans hmarks), htwin.canCompact,
        h.buffer]
      split
      · exact compact _ _ htwin
      · exact ⟨_, rfl, htwin⟩

theorem close (matched : Bool) : Blind (Engine.close matched : Run σ Unit) := by
  cases matched with
  | true => exact commit
  | false => exact abandon

theorem stackStep (step : StackStep) : Blind (Engine.stackStep step : Run σ Unit) := by
  cases step with
  | openMark => exact modify fun _ _ h => h.pushed
  | abandon => exact abandon
  | commit => exact commit
  | compact => exact compact

theorem expect (kind : Kind) (found : Token) : Blind (Engine.expect kind found : Run σ Unit) := by
  refine modify fun e₁ e₂ h => ?_
  refine ⟨h.buffer, h.marks, h.settings, ?_, h.depth, h.depthHit⟩
  rw [h.buffer, h.furthest]

variable [TokenSource σ]

theorem atDelimiter (delimiter : Kind) : Blind (Engine.atDelimiter delimiter : Run σ Bool) :=
  composes.atDelimiter (onBuffer _) expect delimiter

theorem matchKind (kind : Kind) : Blind (Engine.matchKind kind : Run σ Bool) :=
  composes.speculate (stackStep .openMark) close
    (composes.takeKind (onBuffer _) (onBuffer _) expect kind)

theorem noteDepthHit : Blind (Engine.noteDepthHit : Run σ Unit) := by
  intro e₁ e₂ h
  have hget : ∀ e : Engine σ, (get : Run σ (Engine σ)) e = .ok e e := fun _ => rfl
  have hnote : Blind (do
      let token ← next
      modifyThe (Engine σ) fun e =>
        { e with depthHit := some ⟨e.buffer.position, token.span⟩ } : Run σ Unit) := by
    refine bind (onBuffer _) fun token => modify fun f₁ f₂ htwin => ?_
    exact ⟨htwin.buffer, htwin.marks, htwin.settings, htwin.furthest, htwin.depth,
      by rw [htwin.buffer]⟩
  simp only [Engine.noteDepthHit, Run.bind_of_ok (hget _), h.depthHit]
  split
  · exact hnote _ _ h
  · exact ⟨e₂, rfl, h⟩

theorem failure : Blind (Engine.failure : Run σ ParseError) := by
  intro e₁ e₂ h
  have hget : ∀ e : Engine σ, (get : Run σ (Engine σ)) e = .ok e e := fun _ => rfl
  simp only [Engine.failure, Run.bind_of_ok (hget _), h.depthHit, h.furthest, h.settings, h.buffer]
  cases e₂.depthHit with
  | some hit => exact ⟨e₂, rfl, h⟩
  | none =>
      cases e₂.furthest with
      | some m => exact ⟨e₂, rfl, h⟩
      | none => exact bind (onBuffer _) (fun token => pure _) _ _ h

end Blind

-- ============================================================================
-- Steps that may look at it
-- ============================================================================

variable [TokenSource σ] {s : σ} {g : Grammar ν} {bodyOf : RuleId → Rule ν} {n : Nat}
variable {e e' : Engine σ}

/-- What holds of the engine throughout a session over plain rules. -/
structure Sound (s : σ) (g : Grammar ν) (bodyOf : RuleId → Rule ν) (e : Engine σ) : Prop where
  coherent : ∃ low, Coherent s low e
  trusting : Trusting s g bodyOf e

/-- Whenever the step ends, the engine is as sound as before. -/
def Sustains (s : σ) (g : Grammar ν) (bodyOf : RuleId → Rule ν) (m : Run σ α) : Prop :=
  ∀ e a e', Sound s g bodyOf e → m e = .ok a e' → Sound s g bodyOf e'

theorem Sustains.of_tracks {p : Nat → Nat → Pass α} {m : Run σ α} (hup : Upholds s m)
    (htracks : Tracks s g bodyOf p n m) : Sustains s g bodyOf m := by
  intro e a e' h hrun
  obtain ⟨low, hc⟩ := h.coherent
  have htallies := htracks low e hc h.trusting
  rw [hrun] at htallies
  exact ⟨⟨low, hup low e a e' hc hrun⟩, htallies.1⟩

theorem Sustains.eval (hg : ∀ name, (g name).Plain bodyOf) (n : Nat) {rule : Rule ν}
    (hrule : rule.Plain bodyOf) : Sustains s g bodyOf (Engine.eval g n rule) :=
  .of_tracks (.eval (stackFree_of_plain hg) n hrule.stackFree) (.eval hg n hrule)

theorem Sound.pushed (h : Sound s g bodyOf e) : Sound s g bodyOf e.pushed := by
  obtain ⟨low, hc⟩ := h.coherent
  exact ⟨⟨low, hc.pushed⟩, h.trusting.same rfl (Nat.le_refl _) fun _ _ => rfl⟩

theorem Sound.begun (h : Sound s g bodyOf e) : Sound s g bodyOf e.begun := by
  obtain ⟨low, hc⟩ := h.coherent
  exact ⟨⟨low, hc.begun⟩, h.trusting.same rfl (Nat.le_refl _) fun _ _ => rfl⟩

theorem Sound.counted (h : Sound s g bodyOf e) (id : RuleId) :
    Sound s g bodyOf (e.counted id) := by
  obtain ⟨low, hc⟩ := h.coherent
  exact ⟨⟨low, hc.counted id⟩, h.trusting.same rfl (Nat.le_refl _) fun _ _ => rfl⟩

theorem Sound.deeper (h : Sound s g bodyOf e) :
    Sound s g bodyOf { e with depth := e.depth + 1 } := by
  obtain ⟨low, hc⟩ := h.coherent
  exact ⟨⟨low, hc.same rfl rfl (fun _ _ => rfl) rfl rfl⟩,
    h.trusting.same rfl (Nat.le_refl _) fun _ _ => rfl⟩

theorem Sound.fresh (h : Sound s g bodyOf e) (id : RuleId) : Sound s g bodyOf (e.fresh id) := by
  obtain ⟨low, hc⟩ := h.coherent
  exact ⟨⟨_, hc.fresh id⟩, h.trusting.same rfl (Nat.le_refl _)
    fun id' pos => Memo.get?_snd_lookup e.memo id id' _ pos⟩

/-- On every twin of `e₁` the step, which is given by its fuel, does what came of the one on
    `e₁`: on enough fuel it ends, and whenever it ends it acts alike.  Runs that hit the depth
    limit do not count. -/
def EchoedFrom (s : σ) (g : Grammar ν) (bodyOf : RuleId → Rule ν) (e₁ : Engine σ)
    (x₁ : EStateM.Result Fault (Engine σ) α) (m₂ : Nat → Run σ α) : Prop :=
  ∃ N, ∀ n e₂, Sound s g bodyOf e₂ → Twin e₁ e₂ → (Run.final (m₂ n e₂)).depthHit = none →
    (N ≤ n → Run.Ends (m₂ n e₂)) ∧ (Run.Ends (m₂ n e₂) → Alike x₁ (m₂ n e₂))

/-- The step goes on from a twin of where the other one goes on. -/
theorem EchoedFrom.of_step {x₁ : EStateM.Result Fault (Engine σ) α} {m₂ m₂' : Nat → Run σ α}
    (h : EchoedFrom s g bodyOf e x₁ m₂')
    (hstep : ∀ e₂, Sound s g bodyOf e₂ → Twin e₁ e₂ →
      ∃ e₂', Sound s g bodyOf e₂' ∧ Twin e e₂' ∧ ∀ n, m₂ n e₂ = m₂' n e₂') :
    EchoedFrom s g bodyOf e₁ x₁ m₂ := by
  obtain ⟨N, hN⟩ := h
  refine ⟨N, fun n e₂ h₂ htwin hfree₂ => ?_⟩
  obtain ⟨e₂', h₂', htwin', heq⟩ := hstep e₂ h₂ htwin
  rw [heq] at hfree₂ ⊢
  exact hN n e₂' h₂' htwin' hfree₂

/-- A fault ends both. -/
theorem EchoedFrom.bind_of_error {fault : Fault} {m₂ : Nat → Run σ α} {k₂ : Nat → α → Run σ β}
    (h : EchoedFrom s g bodyOf e (.error fault e' : EStateM.Result Fault (Engine σ) α) m₂)
    (hend : fault ≠ .exhausted) (hl : ∀ n a, Latches (k₂ n a)) :
    EchoedFrom s g bodyOf e (.error fault e' : EStateM.Result Fault (Engine σ) β)
      fun n => m₂ n >>= k₂ n := by
  obtain ⟨N, hN⟩ := h
  refine ⟨N, fun n e₂ h₂ htwin hfree₂ => ?_⟩
  obtain ⟨hends₂, halike⟩ := hN n e₂ h₂ htwin (Latches.final_eq_none_of_bind (hl n) hfree₂)
  have hfault : Run.Ends (m₂ n e₂) →
      ∃ e₂', (m₂ n >>= k₂ n) e₂ = .error fault e₂' ∧ Twin e' e₂' := by
    intro hends
    obtain ⟨e₂', hrun₂, htwin'⟩ := halike hends
    exact ⟨e₂', Run.bind_of_error hrun₂, htwin'⟩
  refine ⟨fun hle => ?_, fun hends => hfault (.of_bind hends)⟩
  obtain ⟨e₂', hrun₂, -⟩ := hfault (hends₂ hle)
  dsimp only
  rw [hrun₂]
  exact hend

/-- After an answer the rest goes on from twins. -/
theorem EchoedFrom.bind_of_ok {a : α} {x : EStateM.Result Fault (Engine σ) β}
    {m₂ : Nat → Run σ α} {k₂ : Nat → α → Run σ β} (h : EchoedFrom s g bodyOf e (.ok a e') m₂)
    (hs : ∀ n, Sustains s g bodyOf (m₂ n)) (hl : ∀ n a, Latches (k₂ n a))
    (hrest : EchoedFrom s g bodyOf e' x fun n => k₂ n a) :
    EchoedFrom s g bodyOf e x fun n => m₂ n >>= k₂ n := by
  obtain ⟨N, hN⟩ := h
  obtain ⟨N', hN'⟩ := hrest
  refine ⟨max N N', fun n e₂ h₂ htwin hfree₂ => ?_⟩
  dsimp only at hfree₂ ⊢
  obtain ⟨hends₂, halike⟩ := hN n e₂ h₂ htwin (Latches.final_eq_none_of_bind (hl n) hfree₂)
  have hafter : Run.Ends (m₂ n e₂) →
      (N' ≤ n → Run.Ends ((m₂ n >>= k₂ n) e₂)) ∧
      (Run.Ends ((m₂ n >>= k₂ n) e₂) → Alike x ((m₂ n >>= k₂ n) e₂)) := by
    intro hends
    obtain ⟨e₂', hrun₂, htwin'⟩ := halike hends
    rw [Run.bind_of_ok hrun₂] at hfree₂ ⊢
    exact hN' n e₂' (hs n _ _ _ h₂ hrun₂) htwin' hfree₂
  exact ⟨fun hle => (hafter (hends₂ (by omega))).1 (by omega),
    fun hends => (hafter (.of_bind hends)).2 hends⟩

/-- What the one step does without hitting the depth limit, the other one does on twins. -/
def Echoes (s : σ) (g : Grammar ν) (bodyOf : RuleId → Rule ν) (m₁ : Run σ α)
    (m₂ : Nat → Run σ α) : Prop :=
  ∀ e₁, Sound s g bodyOf e₁ → Run.Ends (m₁ e₁) → (Run.final (m₁ e₁)).depthHit = none →
    EchoedFrom s g bodyOf e₁ (m₁ e₁) m₂

omit [TokenSource σ] in
theorem Alike.ends {x₁ x₂ : EStateM.Result Fault (Engine σ) α} (h : Alike x₁ x₂)
    (hends : Run.Ends x₁) : Run.Ends x₂ := by
  cases x₁ with
  | ok a e₁ =>
      obtain ⟨e₂, rfl, -⟩ := h
      exact hends
  | error fault e₁ =>
      obtain ⟨e₂, rfl, -⟩ := h
      exact hends

namespace Echoes

theorem of_blind {m : Run σ α} (h : Blind m) : Echoes s g bodyOf m fun _ => m := by
  intro e₁ _ hends _
  refine ⟨0, fun n e₂ _ htwin _ => ?_⟩
  have halike := h e₁ e₂ htwin
  exact ⟨fun _ => halike.ends hends, fun _ => halike⟩

/-- One fuel more than the parts need.  Without any fuel a run does not end. -/
theorem succ {m₁ : Run σ α} {m₂ : Nat → Run σ α}
    (h : Echoes s g bodyOf m₁ fun n => m₂ (n + 1)) (hzero : m₂ 0 = throw .exhausted) :
    Echoes s g bodyOf m₁ m₂ := by
  intro e₁ h₁ hends hfree
  obtain ⟨N, hN⟩ := h e₁ h₁ hends hfree
  refine ⟨N + 1, fun n e₂ h₂ htwin hfree₂ => ?_⟩
  cases n with
  | zero =>
      refine ⟨fun hle => absurd hle (Nat.not_succ_le_zero N), fun hends₂ => ?_⟩
      rw [hzero] at hends₂
      exact absurd rfl hends₂
  | succ n =>
      obtain ⟨hends₂, halike⟩ := hN n e₂ h₂ htwin hfree₂
      exact ⟨fun hle => hends₂ (Nat.le_of_succ_le_succ hle), halike⟩

theorem bind {m₁ : Run σ α} {m₂ : Nat → Run σ α} {k₁ : α → Run σ β} {k₂ : Nat → α → Run σ β}
    (hm : Echoes s g bodyOf m₁ m₂) (hs₁ : Sustains s g bodyOf m₁)
    (hs₂ : ∀ n, Sustains s g bodyOf (m₂ n)) (hl₁ : ∀ a, Latches (k₁ a))
    (hl₂ : ∀ n a, Latches (k₂ n a)) (hk : ∀ a, Echoes s g bodyOf (k₁ a) fun n => k₂ n a) :
    Echoes s g bodyOf (m₁ >>= k₁) fun n => m₂ n >>= k₂ n := by
  intro e₁ h₁ hends hfree
  have hfirst := hm e₁ h₁ (.of_bind hends) (Latches.final_eq_none_of_bind hl₁ hfree)
  cases hrun : m₁ e₁ with
  | error fault e₁' =>
      rw [hrun] at hfirst
      rw [Run.bind_of_error hrun] at hends ⊢
      exact hfirst.bind_of_error hends hl₂
  | ok a e₁' =>
      rw [hrun] at hfirst
      rw [Run.bind_of_ok hrun] at hends hfree ⊢
      exact hfirst.bind_of_ok hs₂ hl₂ (hk a e₁' (hs₁ _ _ _ h₁ hrun) hends hfree)

theorem cond {m₁ m₁' : Run σ α} {m₂ m₂' : Nat → Run σ α} (h : Echoes s g bodyOf m₁ m₂)
    (h' : Echoes s g bodyOf m₁' m₂') (a : Bool) :
    Echoes s g bodyOf (if a then m₁ else m₁') fun n => if a then m₂ n else m₂' n := by
  cases a with
  | true => exact h
  | false => exact h'

/-- An answer made from what the step returns. -/
theorem answer {m₁ : Run σ α} {m₂ : Nat → Run σ α} (h : Echoes s g bodyOf m₁ m₂)
    (hs₁ : Sustains s g bodyOf m₁) (hs₂ : ∀ n, Sustains s g bodyOf (m₂ n)) (f : α → β) :
    Echoes s g bodyOf (do return f (← m₁)) fun n => do return f (← m₂ n) :=
  bind h hs₁ hs₂ (fun a => .pure (f a)) (fun _ a => .pure (f a)) fun a => of_blind (.pure (f a))

/-- The body runs under a mark of its own, and is closed. -/
theorem speculate {body₁ : Run σ Bool} {body₂ : Nat → Run σ Bool}
    (hbody : Echoes s g bodyOf body₁ body₂) (hs₁ : Sustains s g bodyOf body₁)
    (hs₂ : ∀ n, Sustains s g bodyOf (body₂ n)) :
    Echoes s g bodyOf (Engine.speculate body₁) fun n => Engine.speculate (body₂ n) := by
  have hclose : ∀ matched, Latches (do
      close matched
      return matched : Run σ Bool) := fun matched => .bind (.close matched) fun _ => .pure _
  have hclosed := bind hbody hs₁ hs₂ hclose (fun _ => hclose)
    fun matched => of_blind (.bind (.close matched) fun _ => .pure matched)
  intro e₁ h₁ hends hfree
  exact (hclosed e₁.pushed h₁.pushed hends hfree).of_step fun e₂ h₂ htwin =>
    ⟨e₂.pushed, h₂.pushed, htwin.pushed, fun _ => rfl⟩

/-- Twins are on the same level, and reach the limit together. -/
theorem nested {body₁ : Run σ Bool} {body₂ : Nat → Run σ Bool}
    (hbody : Echoes s g bodyOf body₁ body₂) (hs₁ : Sustains s g bodyOf body₁)
    (hs₂ : ∀ n, Sustains s g bodyOf (body₂ n)) :
    Echoes s g bodyOf (Engine.nested body₁) fun n => Engine.nested (body₂ n) := by
  intro e₁ h₁ hends hfree
  have hlevel : ∀ {e₂ : Engine σ}, Twin e₁ e₂ →
      (e₂.settings.maxDepth ≤ e₂.depth ↔ e₁.settings.maxDepth ≤ e₁.depth) := by
    intro e₂ htwin
    rw [htwin.settings, htwin.depth]
  by_cases hdeep : e₁.settings.maxDepth ≤ e₁.depth
  · have hblind : Blind (do
        Engine.noteDepthHit
        return false : Run σ Bool) := .bind .noteDepthHit fun _ => .pure false
    rw [nested_of_le hdeep] at hends hfree ⊢
    exact (of_blind hblind e₁ h₁ hends hfree).of_step fun e₂ h₂ htwin =>
      ⟨e₂, h₂, htwin, fun _ => nested_of_le ((hlevel htwin).2 hdeep)⟩
  · have hleave : Blind (modify fun e => { e with depth := e.depth - 1 } : Run σ Unit) :=
      .modify fun f₁ f₂ htwin => ⟨htwin.buffer, htwin.marks, htwin.settings, htwin.furthest,
        by rw [htwin.depth], htwin.depthHit⟩
    have hlatch : ∀ matched : Bool, Latches (do
        modify fun e => { e with depth := e.depth - 1 }
        return matched : Run σ Bool) := fun matched => .bind (.modify fun _ => rfl) fun _ => .pure _
    have hinner := bind hbody hs₁ hs₂ hlatch (fun _ => hlatch)
      fun matched => of_blind (.bind hleave fun _ => .pure matched)
    rw [nested_of_lt (Nat.lt_of_not_le hdeep)] at hends hfree ⊢
    exact (hinner _ h₁.deeper hends hfree).of_step fun e₂ h₂ htwin =>
      ⟨_, h₂.deeper, htwin.deeper, fun _ =>
        nested_of_lt (Nat.lt_of_not_le fun hle => hdeep ((hlevel htwin).1 hle))⟩

end Echoes

-- ============================================================================
-- Rules through their memo
-- ============================================================================

/-- Twins that were led by the same reading are twins again. -/
theorem Twin.of_led {e₁' e₂' : Engine σ} {r : Reading α} (h : Twin e₁ e₂)
    (h₁ : Sound s g bodyOf e₁') (h₂ : Sound s g bodyOf e₂') (hled₁ : Led s e₁ r e₁')
    (hled₂ : Led s e₂ r e₂') (htidy₁ : Tidy e₁ e₁') (htidy₂ : Tidy e₂ e₂')
    (hopen : e₁.speculation.marks ≠ []) (hfree₁ : e₁'.depthHit = none)
    (hfree₂ : e₂'.depthHit = none) : Twin e₁' e₂' where
  buffer := by
    obtain ⟨low₁, hc₁⟩ := h₁.coherent
    obtain ⟨low₂, hc₂⟩ := h₂.coherent
    refine hc₁.window.ext hc₂.window ?_ ?_ (hled₁.position.trans hled₂.position.symm)
    · rw [(htidy₁.grown hopen).base, (htidy₂.grown (h.marks ▸ hopen)).base, h.buffer]
    · rw [hled₁.pulled, hled₂.pulled, h.buffer]
  marks := by rw [htidy₁.balanced.marks, htidy₂.balanced.marks, h.marks]
  settings := by rw [hled₁.settings, hled₂.settings, h.settings]
  furthest := by rw [hled₁.furthest, hled₂.furthest, h.furthest]
  depth := by rw [htidy₁.balanced.depth, htidy₂.balanced.depth, h.depth]
  depthHit := hfree₁.trans hfree₂.symm

/-- Under an open mark an answer is what backtracking yields, and so the answer of every engine
    that tracks it. -/
theorem EchoedFrom.of_led {p : Nat → Nat → Pass α} {m₂ : Nat → Run σ α} {r : Reading α} {a : α}
    (hsteady : ∀ n, Steady (m₂ n)) (hs : ∀ n, Sustains s g bodyOf (m₂ n))
    (htracks : ∀ n, Tracks s g bodyOf p n (m₂ n)) (hopen : e.speculation.marks ≠ [])
    (hyields : Yields (p e.buffer.base) e.buffer.position r) (hr : r.result = .ok a)
    (hled : Led s e r e') (htidy : Tidy e e') (h' : Sound s g bodyOf e')
    (hfree : e'.depthHit = none) : EchoedFrom s g bodyOf e (.ok a e') m₂ := by
  obtain ⟨N, hN⟩ := hyields
  refine ⟨N, fun n e₂ h₂ htwin hfree₂ => ?_⟩
  obtain ⟨low, hc₂⟩ := h₂.coherent
  have htallies := htracks n low e₂ hc₂ h₂.trusting
  have hopen₂ : e₂.speculation.marks ≠ [] := htwin.marks ▸ hopen
  have hunique : ∀ {r₂}, Yields (p e₂.buffer.base) e₂.buffer.position r₂ → r₂ = r := by
    intro r₂ hyields₂
    rw [← htwin.buffer] at hyields₂
    exact hyields₂.unique ⟨N, hN⟩
  cases hrun : m₂ n e₂ with
  | ok a₂ e₂' =>
      rw [hrun] at htallies hfree₂
      obtain ⟨r₂, hyields₂, hr₂, hled₂⟩ := htallies.2 hopen₂ hfree₂
      obtain rfl := hunique hyields₂
      cases hr.symm.trans hr₂
      have htwin' := htwin.of_led h' (hs n _ _ _ h₂ hrun) hled hled₂ htidy (hsteady n _ _ _ hrun)
        hopen hfree hfree₂
      exact ⟨fun _ => trivial, fun _ => ⟨e₂', rfl, htwin'⟩⟩
  | error fault e₂' =>
      rw [hrun] at htallies hfree₂
      obtain ⟨⟨fault', hfault⟩, hfaults⟩ := htallies hopen₂ hfree₂
      rw [← htwin.buffer] at hfault
      refine ⟨fun hle => ?_, fun hends => ?_⟩
      · rw [hN n hle] at hfault
        cases hr.symm.trans hfault
      · obtain ⟨r₂, fault'', hyields₂, hr₂⟩ := hfaults hends
        obtain rfl := hunique hyields₂
        cases hr.symm.trans hr₂

/-- No outcome is kept of a rule that backtracking ends in a fault. -/
theorem Trusting.get?_eq_none (h : Trusting s g bodyOf e) {id : RuleId} {r : Reading Bool}
    {fault : Fault}
    (hyields : Yields (fun n => ((groundFrom s g e.buffer.base).backtrack n (bodyOf id)).rewind)
      e.buffer.position r)
    (hr : r.result = .error fault) : e.memo.get? id e.buffer.cursor = none := by
  cases hget : e.memo.get? id e.buffer.cursor with
  | none => rfl
  | some outcome =>
      obtain ⟨r', matched, hyields', hr', -⟩ := h id _ _ hget
      obtain rfl := hyields'.pred.unique hyields
      cases hr.symm.trans hr'

omit [TokenSource σ] in
theorem Twin.usesMemo (h : Twin e₁ e₂) :
    (e₁.settings.memoize && e₁.isSpeculating) = (e₂.settings.memoize && e₂.isSpeculating) := by
  simp only [isSpeculating, Speculation.isEmpty, h.settings, h.marks]

omit [TokenSource σ] in
/-- Keeping an outcome does not show. -/
theorem Blind.keepOutcome (id : RuleId) (start : Nat) (outer : Option Mismatch) (matched : Bool) :
    Blind (Engine.keepOutcome id start outer matched : Run σ Unit) := by
  intro e₁ e₂ h
  rw [keepOutcome_eq, keepOutcome_eq]
  exact ⟨_, rfl, h.buffer, h.marks, h.settings, by rw [h.furthest], h.depth, h.depthHit⟩

namespace Echoes

/-- Where neither engine has kept an outcome, both run the body. -/
theorem memoized_of_new {body₁ : Run σ Bool} {body₂ : Nat → Run σ Bool}
    (hbody : Echoes s g bodyOf (Engine.speculate body₁) fun n => Engine.speculate (body₂ n))
    (hs₁ : Sustains s g bodyOf (Engine.speculate body₁))
    (hs₂ : ∀ n, Sustains s g bodyOf (Engine.speculate (body₂ n))) {id : RuleId}
    (h₁ : Sound s g bodyOf e₁) (huses : (e₁.settings.memoize && e₁.isSpeculating) = true)
    (hnew : ∀ e, Sound s g bodyOf e → Twin e₁ e → e.memo.get? id e.buffer.cursor = none)
    (hends : Run.Ends (Engine.memoized id body₁ e₁))
    (hfree : (Run.final (Engine.memoized id body₁ e₁)).depthHit = none) :
    EchoedFrom s g bodyOf e₁ (Engine.memoized id body₁ e₁)
      fun n => Engine.memoized id (body₂ n) := by
  have hlatch : ∀ matched, Latches (do
      Engine.keepOutcome id e₁.buffer.cursor e₁.furthest matched
      return matched : Run σ Bool) := fun matched => .bind (.modify fun _ => rfl) fun _ => .pure _
  have hkept := bind hbody hs₁ hs₂ hlatch (fun _ => hlatch)
    fun matched => of_blind (.bind (.keepOutcome _ _ _ matched) fun _ => .pure matched)
  rw [Engine.memoized_of_new huses (hnew e₁ h₁ (.refl e₁))] at hends hfree ⊢
  refine (hkept (e₁.fresh id) (h₁.fresh id) hends hfree).of_step fun e₂ h₂ htwin =>
    ⟨e₂.fresh id, h₂.fresh id, htwin.fresh id, fun n => ?_⟩
  rw [Engine.memoized_of_new (htwin.usesMemo.symm.trans huses) (hnew e₂ h₂ htwin), htwin.buffer,
    htwin.furthest]

/-- The one engine may replay what the other one runs. -/
theorem memoized (hg : ∀ name, (g name).Plain bodyOf) {id : RuleId}
    (hbody : (bodyOf id).Plain bodyOf)
    (ih : Echoes s g bodyOf (Engine.eval g n (bodyOf id)) fun n => Engine.eval g n (bodyOf id)) :
    Echoes s g bodyOf (Engine.memoized id (Engine.eval g n (bodyOf id)))
      fun n => Engine.memoized id (Engine.eval g n (bodyOf id)) := by
  have hsteady : ∀ n, Steady (Engine.eval g n (bodyOf id) : Run σ Bool) :=
    fun n => .eval (stackFree_of_plain hg) n hbody.stackFree
  have hup : ∀ n, Upholds s (Engine.eval g n (bodyOf id) : Run σ Bool) :=
    fun n => .eval (stackFree_of_plain hg) n hbody.stackFree
  have hspeculation : ∀ n, Sustains s g bodyOf (Engine.speculate (Engine.eval g n (bodyOf id))) :=
    fun n => .of_tracks (.speculate (hup n)) (.speculate (.eval hg n hbody) (hsteady n) (hup n))
  have htracks : ∀ n, Tracks s g bodyOf
      (fun base n => ((groundFrom s g base).backtrack n (bodyOf id)).rewind) n
      (Engine.memoized id (Engine.eval g n (bodyOf id))) :=
    fun n => .memoized (.eval hg n hbody) (hsteady n) (hup n)
  have hs := fun n => Sustains.of_tracks (.memoized (hsteady n) (hup n)) (htracks n)
  have hspeculate := speculate ih (.eval hg n hbody) fun n => .eval hg n hbody
  intro e₁ h₁ hends hfree
  cases huses : e₁.settings.memoize && e₁.isSpeculating with
  | false =>
      rw [memoized_of_plain huses] at hends hfree ⊢
      exact (hspeculate (e₁.counted id) (h₁.counted id) hends hfree).of_step fun e₂ h₂ htwin =>
        ⟨e₂.counted id, h₂.counted id, htwin.counted id, fun _ =>
          memoized_of_plain (htwin.usesMemo.symm.trans huses)⟩
  | true =>
      have hopen : e₁.speculation.marks ≠ [] := by
        intro hnil
        simp [isSpeculating, Speculation.isEmpty, hnil] at huses
      obtain ⟨low, hc⟩ := h₁.coherent
      have htallies := htracks n low e₁ hc h₁.trusting
      cases hrun : Engine.memoized id (Engine.eval g n (bodyOf id)) e₁ with
      | ok matched e₁' =>
          rw [hrun] at htallies hfree
          obtain ⟨r, hyields, hr, hled⟩ := htallies.2 hopen hfree
          exact .of_led (fun n => .memoized (hsteady n)) hs htracks hopen hyields hr hled
            ((hsteady n).memoized _ _ _ hrun) (hs n _ _ _ h₁ hrun) hfree
      | error fault e₁' =>
          -- A fault comes of a run of the body, so neither engine has kept an outcome of it.
          rw [hrun] at htallies
          obtain ⟨r, fault', hyields, hr⟩ := (htallies hopen (by rwa [hrun] at hfree)).2
            (by rwa [hrun] at hends)
          have hnew : ∀ e, Sound s g bodyOf e → Twin e₁ e →
              e.memo.get? id e.buffer.cursor = none := by
            intro e h htwin
            rw [htwin.buffer] at hyields
            exact h.trusting.get?_eq_none hyields hr
          rw [← hrun]
          exact memoized_of_new hspeculate (hspeculation n) hspeculation h₁ huses hnew hends hfree

-- ============================================================================
-- Rules and recognitions
-- ============================================================================

/-- Every plain rule echoes itself, on whatever fuel. -/
theorem eval (hg : ∀ name, (g name).Plain bodyOf) (n : Nat) {rule : Rule ν}
    (hrule : rule.Plain bodyOf) :
    Echoes s g bodyOf (Engine.eval g n rule) fun n => Engine.eval g n rule := by
  have hs : ∀ {rule : Rule ν}, rule.Plain bodyOf → ∀ n,
      Sustains s g bodyOf (Engine.eval g n rule) := fun hrule n => .eval hg n hrule
  induction n generalizing rule with
  | zero => exact fun _ _ hends => absurd rfl hends
  | succ n ih =>
      obtain ⟨hstack, hbody⟩ := hrule
      cases rule with
      | token kind => exact succ (of_blind (.matchKind kind)) rfl
      | const answer => exact succ (of_blind (.pure answer)) rfl
      | both first second =>
          have hfirst : first.Plain bodyOf := ⟨hstack.1, hbody.1⟩
          have hlatch : ∀ n (a : Bool), Latches
              (if a then Engine.eval g n second else Pure.pure false : Run σ Bool) :=
            fun n => of_cond (.eval g n second) (.pure false)
          have h := bind (ih hfirst) (hs hfirst n) (hs hfirst) (hlatch n) hlatch
            fun a => cond (ih ⟨hstack.2, hbody.2⟩) (of_blind (.pure false)) a
          exact succ h rfl
      | either first second =>
          have hfirst : first.Plain bodyOf := ⟨hstack.1, hbody.1⟩
          have hlatch : ∀ n (a : Bool), Latches
              (if a then Pure.pure true else Engine.eval g n second : Run σ Bool) :=
            fun n => of_cond (.pure true) (.eval g n second)
          have h := bind (ih hfirst) (hs hfirst n) (hs hfirst) (hlatch n) hlatch
            fun a => cond (of_blind (.pure true)) (ih ⟨hstack.2, hbody.2⟩) a
          exact succ h rfl
      | negate rule =>
          have hrule : rule.Plain bodyOf := ⟨hstack, hbody⟩
          exact succ (answer (ih hrule) (hs hrule n) (hs hrule) not) rfl
      | attempt rule =>
          have hrule : rule.Plain bodyOf := ⟨hstack, hbody⟩
          exact succ (speculate (ih hrule) (hs hrule n) (hs hrule)) rfl
      | trail delimiter element =>
          have helement : element.Plain bodyOf := ⟨hstack, hbody⟩
          have hloop : (Rule.trail delimiter element).Plain bodyOf := ⟨hstack, hbody⟩
          have hlatch : ∀ n (a : Bool), Latches
              (if a then Engine.eval g n (.trail delimiter element) else Pure.pure false
                : Run σ Bool) :=
            fun n => of_cond (.eval g n (.trail delimiter element)) (.pure false)
          have hagain := bind (ih helement) (hs helement n) (hs helement) (hlatch n) hlatch
            fun a => cond (ih hloop) (of_blind (.pure false)) a
          have hlatch' := fun n => of_cond
            (Latches.bind (.eval g n element) (hlatch n)) (.pure false)
          have hmatch : Sustains s g bodyOf (Engine.matchKind delimiter) :=
            .of_tracks (.matchKind delimiter) (.matchKind (n := 0) delimiter)
          have hnext := bind (of_blind (.matchKind delimiter)) hmatch (fun _ => hmatch)
            (hlatch' n) hlatch' fun a => cond hagain (of_blind (.pure false)) a
          have hlatch'' := fun n => of_cond
            (Latches.bind (.matchKind delimiter) (hlatch' n)) (.pure true)
          have hat : Sustains s g bodyOf (Engine.atDelimiter delimiter) :=
            .of_tracks (.atDelimiter delimiter) (.atDelimiter (n := 0) delimiter)
          have h := bind (of_blind (.atDelimiter delimiter)) hat (fun _ => hat)
            (hlatch'' n) hlatch'' fun a => cond hnext (of_blind (.pure true)) a
          exact succ h rfl
      | memo id body =>
          obtain ⟨rfl, hbody'⟩ := hbody
          exact succ (memoized hg ⟨hstack, hbody'⟩ (ih ⟨hstack, hbody'⟩)) rfl
      | nested body =>
          have hrule : body.Plain bodyOf := ⟨hstack, hbody⟩
          exact succ (nested (ih hrule) (hs hrule n) (hs hrule)) rfl
      | ref name => exact succ (ih (hg name)) rfl
      | ahead k kind =>
          have hlook : Blind (do return (← Engine.peek k).kind = kind : Run σ Bool) :=
            .bind (.onBuffer _) fun token => .pure _
          exact succ (of_blind hlook) rfl
      | stack step => exact hstack.elim

/-- Both recognitions start afresh, from the same place. -/
theorem recognizing {body₁ : Run σ Bool} {body₂ : Nat → Run σ Bool}
    (hbody : Echoes s g bodyOf body₁ body₂) (hs₁ : Sustains s g bodyOf body₁)
    (hs₂ : ∀ n, Sustains s g bodyOf (body₂ n)) :
    Echoes s g bodyOf (Engine.recognizing body₁) fun n => Engine.recognizing (body₂ n) := by
  intro e₁ h₁ hends hfree
  have hblind : ∀ matched : Bool, Blind (if matched then do
        let stop ← cursor
        let tokens ← onBuffer (Lookahead.slice e₁.buffer.cursor stop)
        commit
        return .ok ⟨e₁.buffer.position, tokens⟩
      else do
        abandon
        return .error (← failure) : Run σ (Except ParseError Match)) :=
    of_cond (.bind .cursor fun stop => .bind (.onBuffer _) fun tokens => .bind .commit fun _ =>
      .pure _) (.bind .abandon fun _ => .bind .failure fun _ => .pure _)
  have hlatch := latches_conclusion (σ := σ) e₁.buffer.cursor e₁.buffer.position
  have hecho := bind hbody hs₁ hs₂ hlatch (fun _ => hlatch) fun matched => of_blind (hblind matched)
  rw [recognizing_eq] at hends hfree ⊢
  refine (hecho e₁.begun.pushed h₁.begun.pushed hends hfree).of_step fun e₂ h₂ htwin =>
    ⟨e₂.begun.pushed, h₂.begun.pushed, htwin.begun.pushed, fun n => ?_⟩
  rw [recognizing_eq, ← htwin.buffer]

end Echoes
end Engine
end Packrat
