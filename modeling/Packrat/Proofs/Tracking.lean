/-
  Packrat.Proofs.Tracking

  The engine tracks plain backtracking, with kept outcomes and without: while
  something is open a rule answers what backtracking answers, leads where it
  leads and notes what it notes, unless the depth limit is hit (`Tallies`).

  The invariant is that every kept outcome is what backtracking makes of its
  rule (`Trusting`).  Both are shown together, for every combinator from its
  parts and then for every rule by induction on the fuel.  The engine may end on
  fuel that backtracking does not end on, since kept outcomes save the runs of
  their rules; so an answer or a fault of the engine is compared with what
  backtracking yields on any fuel, and an engine that runs out of fuel with what
  backtracking comes to on the same.
-/

import Packrat.Proofs.Backtracking
import Packrat.Proofs.Coherence
import Packrat.Proofs.Discipline
import Packrat.Proofs.Latch

namespace Packrat

/-- A token that was looked at is taken without another pull. -/
theorem Lookahead.consume_reach {σ : Type} [TokenSource σ] (b : Lookahead σ) :
    (b.reach 1).consume = { b.reach 1 with cursor := b.cursor + 1 } := by
  have hsize := le_size_reach b 1
  have hcursor : (b.reach 1).cursor = b.cursor := cursor_pullMany _ _
  have hreach : (b.reach 1).reach 1 = b.reach 1 := by
    rw [Lookahead.reach, show (b.reach 1).cursor + 1 - (b.reach 1).size = 0 by omega]
    rfl
  rw [consume, hreach, hcursor]

namespace Engine

variable {σ ν α β : Type} [TokenSource σ] {s : σ} {g : Grammar ν} {bodyOf : RuleId → Rule ν}
variable {low n : Nat} {e e' e'' : Engine σ}

/-- The ground for a buffer that starts at token `base`.  Its depth limit is not asked for. -/
def groundFrom (s : σ) (g : Grammar ν) (base : Nat) : Ground ν :=
  ⟨TokenSource.stream s, g, 0, base + Machine.bufferLimit⟩

/-- Every kept outcome is what plain backtracking makes of the rule, from tokens that were
    pulled. -/
def Trusting (s : σ) (g : Grammar ν) (bodyOf : RuleId → Rule ν) (e : Engine σ) : Prop :=
  ∀ id pos outcome, e.memo.get? id pos = some outcome → ∃ r matched,
    Yields (fun n => (groundFrom s g e.buffer.base).backtrack n (.memo id (bodyOf id)))
      (e.buffer.base + pos) r ∧
    r.result = .ok matched ∧ r.seen ≤ e.buffer.pulled ∧
    outcome = r.outcome (TokenSource.stream s) e.buffer.base matched

theorem trusting_ofSource (settings : Settings) :
    Trusting s g bodyOf (ofSource settings s) := by
  intro id pos outcome hget
  exact absurd hget (by simp [ofSource])

/-- Steps that drop nothing and keep nothing new. -/
theorem Trusting.same (h : Trusting s g bodyOf e) (hbase : e'.buffer.base = e.buffer.base)
    (hpulled : e.buffer.pulled ≤ e'.buffer.pulled)
    (hmemo : ∀ id pos, e'.memo.get? id pos = e.memo.get? id pos) : Trusting s g bodyOf e' := by
  intro id pos outcome hget
  rw [hmemo] at hget
  obtain ⟨r, matched, hyields, hr, hseen, houtcome⟩ := h id pos outcome hget
  rw [hbase]
  exact ⟨r, matched, hyields, hr, Nat.le_trans hseen hpulled, houtcome⟩

/-- A step that pulls at most. -/
theorem Trusting.reach (h : Trusting s g bodyOf e) (k : Nat)
    (hbuffer : e'.buffer = e.buffer.reach k)
    (hmemo : ∀ id pos, e'.memo.get? id pos = e.memo.get? id pos) : Trusting s g bodyOf e' := by
  refine h.same ?_ ?_ hmemo
  · rw [hbuffer]
    exact Lookahead.base_pullMany _ _
  · rw [hbuffer]
    exact Nat.le_trans (Nat.le_add_right _ _) (Nat.le_of_eq (Lookahead.pulled_pullMany _ _).symm)

theorem Trusting.compacted : Trusting s g bodyOf e.compacted := by
  intro id pos outcome hget
  have hnone : e.compacted.memo.get? id pos = none := Memo.get?_clear _ _ _
  rw [hnone] at hget
  cases hget

/-- A commit drops nothing or everything. -/
theorem Trusting.of_commit (h : Trusting s g bodyOf e) (hrun : commit e = .ok () e') :
    Trusting s g bodyOf e' := by
  obtain ⟨mark, marks, -, rfl | ⟨-, -, rfl⟩⟩ := commit_eq_ok hrun
  · exact h.same rfl (Nat.le_refl _) fun _ _ => rfl
  · exact .compacted

theorem Trusting.of_abandon (h : Trusting s g bodyOf e) (hrun : abandon e = .ok () e') :
    Trusting s g bodyOf e' := by
  obtain ⟨mark, marks, -, -, rfl⟩ := abandon_eq_ok hrun
  exact h.same rfl (Nat.le_refl _) fun _ _ => rfl

theorem Trusting.of_close (h : Trusting s g bodyOf e) {matched : Bool}
    (hrun : close matched e = .ok () e') : Trusting s g bodyOf e' := by
  cases matched with
  | true => exact h.of_commit hrun
  | false => exact h.of_abandon hrun

/-- The step led where the reading stopped, pulled what the reading looked at, and noted what the
    reading noted. -/
structure Led (s : σ) (e : Engine σ) (r : Reading α) (e' : Engine σ) : Prop where
  settings : e'.settings = e.settings
  position : e'.buffer.position = r.stop
  pulled : e'.buffer.pulled = max e.buffer.pulled r.seen
  furthest : e'.furthest
    = Mismatch.join e.furthest (Mismatch.noted (TokenSource.stream s) r.misses)

/-- A look ahead and what it noted of the next token. -/
theorem Led.look {r : Reading α} {k : Nat} (hwindow : e.buffer.IsWindow s)
    (hbuffer : e'.buffer = e.buffer.reach k) (hsettings : e'.settings = e.settings)
    (hstop : r.stop = e.buffer.position) (hseen : r.seen = e.buffer.position + k)
    (hfurthest : e'.furthest
      = Mismatch.join e.furthest (Mismatch.noted (TokenSource.stream s) r.misses)) :
    Led s e r e' where
  settings := hsettings
  position := by
    rw [hbuffer, hstop]
    simp [Lookahead.reach, Lookahead.position]
  pulled := by rw [hbuffer, hseen, hwindow.pulled_reach]
  furthest := hfurthest

theorem Led.append {r : Reading α} {r' : Reading β} (h : Led s e r e') (h' : Led s e' r' e'') :
    Led s e (r.append r') e'' where
  settings := h'.settings.trans h.settings
  position := h'.position
  pulled := by
    rw [h'.pulled, h.pulled, Nat.max_assoc]
    rfl
  furthest := by
    rw [h'.furthest, h.furthest, Mismatch.join_assoc, ← Mismatch.noted_append]
    rfl

/-- What comes of a step tallies with a pass, given by where the buffer starts and by the fuel.
    Only steps under an open mark and without a hit of the depth limit are compared. -/
def Tallies (s : σ) (g : Grammar ν) (bodyOf : RuleId → Rule ν) (p : Nat → Nat → Pass α) (n : Nat)
    (e : Engine σ) : EStateM.Result Fault (Engine σ) α → Prop
  | .ok a e' => Trusting s g bodyOf e' ∧ (e.speculation.marks ≠ [] → e'.depthHit = none →
      ∃ r, Yields (p e.buffer.base) e.buffer.position r ∧ r.result = .ok a ∧ Led s e r e')
  | .error fault e' => e.speculation.marks ≠ [] → e'.depthHit = none →
      (∃ fault, (p e.buffer.base n e.buffer.position).result = .error fault) ∧
      (fault ≠ .exhausted → ∃ r fault,
        Yields (p e.buffer.base) e.buffer.position r ∧ r.result = .error fault)

/-- What counts of the state before a step is its buffer, its marks, its settings and its
    mismatches. -/
theorem Tallies.of_same {p : Nat → Nat → Pass α} {x : EStateM.Result Fault (Engine σ) α}
    (h : Tallies s g bodyOf p n e' x) (hbuffer : e'.buffer = e.buffer)
    (hspeculation : e'.speculation = e.speculation) (hsettings : e'.settings = e.settings)
    (hfurthest : e'.furthest = e.furthest) : Tallies s g bodyOf p n e x := by
  cases x with
  | error fault e'' => simpa only [Tallies, hbuffer, hspeculation] using h
  | ok a e'' =>
      refine ⟨h.1, fun hopen hhit => ?_⟩
      obtain ⟨r, hyields, hr, hled⟩ := h.2 (by rwa [hspeculation]) hhit
      rw [hbuffer] at hyields
      exact ⟨r, hyields, hr, hled.settings.trans hsettings, hled.position,
        by rw [hled.pulled, hbuffer], by rw [hled.furthest, hfurthest]⟩

/-- From every coherent state with outcomes to be trusted the step tallies with the pass. -/
def Tracks (s : σ) (g : Grammar ν) (bodyOf : RuleId → Rule ν) (p : Nat → Nat → Pass α) (n : Nat)
    (m : Run σ α) : Prop :=
  ∀ low e, Coherent s low e → Trusting s g bodyOf e → Tallies s g bodyOf p n e (m e)

namespace Tracks

-- ============================================================================
-- Steps in a row
-- ============================================================================

theorem pure (a : α) : Tracks s g bodyOf (fun _ _ => Pure.pure a) n (Pure.pure a : Run σ α) :=
  fun _ e _ ht => ⟨ht, fun _ _ =>
    ⟨⟨.ok a, e.buffer.position, 0, [], []⟩, .const rfl, rfl, rfl, rfl,
      (Nat.max_zero _).symm, rfl⟩⟩

theorem exhausted {p : Nat → Nat → Pass α} (h : ∀ base, p base n = Pass.fail .exhausted) :
    Tracks s g bodyOf p n (throw .exhausted : Run σ α) := by
  intro low e _ _ _ _
  exact ⟨⟨.exhausted, by rw [h]; rfl⟩, fun hend => absurd rfl hend⟩

/-- One fuel more than the parts need. -/
theorem succ {p : Nat → Nat → Pass α} {m : Run σ α}
    (h : Tracks s g bodyOf (fun base n => p base (n + 1)) n m) :
    Tracks s g bodyOf p (n + 1) m := by
  intro low e hc ht
  have hm := h low e hc ht
  cases hrun : m e with
  | ok a e' =>
      rw [hrun] at hm
      refine ⟨hm.1, fun hopen hhit => ?_⟩
      obtain ⟨r, hyields, hr, hled⟩ := hm.2 hopen hhit
      exact ⟨r, hyields.succ, hr, hled⟩
  | error fault e' =>
      rw [hrun] at hm
      intro hopen hhit
      obtain ⟨hfault, hfaults⟩ := hm hopen hhit
      refine ⟨hfault, fun hend => ?_⟩
      obtain ⟨r, fault', hyields, hr⟩ := hfaults hend
      exact ⟨r, fault', hyields.succ, hr⟩

theorem bind {p : Nat → Nat → Pass α} {q : α → Nat → Nat → Pass β} {m : Run σ α}
    {k : α → Run σ β} (hm : Tracks s g bodyOf p n m) (hsteady : Steady m) (hup : Upholds s m)
    (hfirm : ∀ base, Firm (p base)) (hlatch : ∀ a, Latches (k a))
    (hk : ∀ a, Tracks s g bodyOf (q a) n (k a)) :
    Tracks s g bodyOf (fun base n => p base n >>= fun a => q a base n) n (m >>= k) := by
  intro low e hc ht
  have hfirst := hm low e hc ht
  cases hrun : m e with
  | error fault e₁ =>
      rw [hrun] at hfirst
      rw [Run.bind_of_error hrun]
      intro hopen hhit
      obtain ⟨⟨fault', hfault⟩, hfaults⟩ := hfirst hopen hhit
      refine ⟨⟨fault', ?_⟩, fun hend => ?_⟩
      · show ((p e.buffer.base n e.buffer.position).andThen _).result = _
        rw [Reading.andThen_of_error hfault]
      · obtain ⟨r, fault'', hyields, hr⟩ := hfaults hend
        exact ⟨_, fault'', hyields.bind_of_error hr, rfl⟩
  | ok a e₁ =>
      rw [hrun] at hfirst
      rw [Run.bind_of_ok hrun]
      obtain ⟨ht₁, hread⟩ := hfirst
      have htidy := hsteady _ _ _ hrun
      have hrest := hk a low e₁ (hup _ _ _ _ hc hrun) ht₁
      -- The limit was not hit in the first step if it was not hit in both.
      have hback : (Run.final (k a e₁)).depthHit = none → e₁.depthHit = none :=
        fun hnone => Classical.not_not.1 fun hhit => hlatch a e₁ hhit hnone
      cases hrun₁ : k a e₁ with
      | ok b e₂ =>
          rw [hrun₁] at hrest hback
          refine ⟨hrest.1, fun hopen hhit => ?_⟩
          obtain ⟨r, hyields, hr, hled⟩ := hread hopen (hback hhit)
          obtain ⟨r', hyields', hr', hled'⟩ :=
            hrest.2 (by rwa [htidy.balanced.marks]) hhit
          rw [(htidy.grown hopen).base, hled.position] at hyields'
          exact ⟨r.append r', hyields.bind hr hyields', hr', hled.append hled'⟩
      | error fault e₂ =>
          rw [hrun₁] at hrest hback
          intro hopen hhit
          obtain ⟨r, hyields, hr, hled⟩ := hread hopen (hback hhit)
          have hfault := hrest (by rwa [htidy.balanced.marks]) hhit
          rw [(htidy.grown hopen).base, hled.position] at hfault
          obtain ⟨⟨fault', hfault⟩, hfaults⟩ := hfault
          constructor
          · show ∃ fault, ((p e.buffer.base n e.buffer.position).andThen _).result = .error fault
            by_cases hend : (p e.buffer.base n e.buffer.position).result = .error .exhausted
            · exact ⟨.exhausted, by rw [Reading.andThen_of_error hend]⟩
            · rw [(hfirm _).of_yields hend hyields, Reading.andThen_of_ok hr]
              exact ⟨fault', hfault⟩
          · intro hend
            obtain ⟨r', fault'', hyields', hr'⟩ := hfaults hend
            exact ⟨r.append r', fault'', hyields.bind hr hyields', hr'⟩

theorem cond {p q : Nat → Nat → Pass α} {m m' : Run σ α} (h : Tracks s g bodyOf p n m)
    (h' : Tracks s g bodyOf q n m') (a : Bool) :
    Tracks s g bodyOf (fun base n => if a then p base n else q base n) n
      (if a then m else m') := by
  cases a with
  | true => exact h
  | false => exact h'

-- ============================================================================
-- Primitive steps
-- ============================================================================

theorem takeKind (kind : Kind) :
    Tracks s g bodyOf (fun base _ => (groundFrom s g base).takeKind kind) n
      (Engine.takeKind kind : Run σ Bool) := by
  intro low e hc ht
  by_cases hkind : (TokenSource.stream s e.buffer.position).kind = kind
  · rw [takeKind_of_eq hc.window hkind, Lookahead.consume_reach]
    have hlook : Trusting s g bodyOf { e with buffer := e.buffer.reach 1 } :=
      ht.reach 1 rfl fun _ _ => rfl
    refine ⟨hlook.same rfl (Nat.le_refl _) fun _ _ => rfl, fun _ _ =>
      ⟨_, .const (Ground.takeKind_of_eq _ hkind), rfl, rfl, ?_, ?_, rfl⟩⟩
    · simp [Lookahead.reach, Lookahead.position, Nat.add_assoc]
    · exact hc.window.pulled_reach 1
  · rw [takeKind_of_ne hc.window hkind]
    refine ⟨ht.reach 1 rfl fun _ _ => rfl, fun _ _ =>
      ⟨_, .const (Ground.takeKind_of_ne _ hkind), rfl, .look hc.window rfl rfl rfl rfl ?_⟩⟩
    simp [expecting, Lookahead.reach, Lookahead.position, Mismatch.noted, Mismatch.single,
      Mismatch.join]

theorem atDelimiter (kind : Kind) :
    Tracks s g bodyOf (fun base _ => (groundFrom s g base).atDelimiter kind) n
      (Engine.atDelimiter kind : Run σ Bool) := by
  intro low e hc ht
  by_cases hkind : (TokenSource.stream s e.buffer.position).kind = kind
  · rw [atDelimiter_of_eq hc.window hkind]
    exact ⟨ht.reach 1 rfl fun _ _ => rfl, fun _ _ =>
      ⟨_, .const (Ground.atDelimiter_of_eq _ hkind), rfl, .look hc.window rfl rfl rfl rfl rfl⟩⟩
  · rw [atDelimiter_of_ne hc.window hkind]
    refine ⟨ht.reach 1 rfl fun _ _ => rfl, fun _ _ =>
      ⟨_, .const (Ground.atDelimiter_of_ne _ hkind), rfl, .look hc.window rfl rfl rfl rfl ?_⟩⟩
    simp [expecting, Lookahead.reach, Lookahead.position, Mismatch.noted, Mismatch.single,
      Mismatch.join]

theorem lookAhead (k : Nat) (kind : Kind) :
    Tracks s g bodyOf (fun base _ => (groundFrom s g base).lookAhead k kind) n
      (do return (← Engine.peek k).kind = kind : Run σ Bool) := by
  intro low e hc ht
  have hposition : e.buffer.position = e.buffer.base + e.buffer.cursor := rfl
  have hhorizon : (groundFrom s g e.buffer.base).horizon = e.buffer.base + Machine.bufferLimit :=
    rfl
  by_cases hzero : k = 0
  · subst hzero
    rw [Run.bind_of_error (peek_zero e)]
    exact fun _ _ => ⟨⟨.zeroDistance, rfl⟩, fun _ => ⟨_, _, .const rfl, rfl⟩⟩
  · by_cases hfar : Machine.bufferLimit < e.buffer.cursor + k
    · rw [Run.bind_of_error (peek_of_far hzero hfar)]
      have hfar' : (groundFrom s g e.buffer.base).horizon < e.buffer.position + k := by omega
      have hread := Ground.lookAhead_of_far _ hzero hfar' kind
      refine fun _ _ => ⟨⟨.overflow, ?_⟩, fun _ => ⟨_, _, .const hread, rfl⟩⟩
      show ((groundFrom s g e.buffer.base).lookAhead k kind e.buffer.position).result = _
      rw [hread]
    · have hnear : e.buffer.cursor + k ≤ Machine.bufferLimit := Nat.le_of_not_lt hfar
      have hnear' : e.buffer.position + k ≤ (groundFrom s g e.buffer.base).horizon := by omega
      rw [Run.bind_of_ok (peek_eq hc.window (Nat.pos_of_ne_zero hzero) hnear)]
      refine ⟨ht.reach k rfl fun _ _ => rfl, fun _ _ =>
        ⟨_, .const (Ground.lookAhead_of_near _ hzero hnear' kind), rfl,
          .look hc.window rfl rfl rfl ?_ rfl⟩⟩
      show e.buffer.position + (k - 1) + 1 = e.buffer.position + k
      omega

-- ============================================================================
-- Steps with a body
-- ============================================================================

theorem speculate {p : Nat → Nat → Pass Bool} {body : Run σ Bool}
    (hbody : Tracks s g bodyOf p n body) (hsteady : Steady body) (hup : Upholds s body) :
    Tracks s g bodyOf (fun base n => (p base n).rewind) n (Engine.speculate body) := by
  intro low e hc ht
  have hinner := hbody low e.pushed hc.pushed (ht.same rfl (Nat.le_refl _) fun _ _ => rfl)
  have hopened : e.pushed.speculation.marks ≠ [] := List.cons_ne_nil _ _
  rw [speculate_eq]
  cases hrun : body e.pushed with
  | error fault e₁ =>
      rw [hrun] at hinner
      rw [Run.bind_of_error hrun]
      intro _ hhit
      obtain ⟨⟨fault', hfault⟩, hfaults⟩ := hinner hopened hhit
      refine ⟨⟨fault', ?_⟩, fun hend => ?_⟩
      · have hfault' : (p e.buffer.base n e.buffer.position).result = .error fault' := hfault
        simp only [Pass.rewind, hfault']
      · obtain ⟨r, fault'', hyields, hr⟩ := hfaults hend
        exact ⟨r, fault'', hyields.rewind_of_error hr, hr⟩
  | ok matched e₁ =>
      rw [hrun] at hinner
      obtain ⟨ht₁, hread⟩ := hinner
      have htidy := hsteady _ _ _ hrun
      have hc₁ := hup _ _ _ _ hc.pushed hrun
      have hmarks : e₁.speculation.marks = e.buffer.cursor :: e.speculation.marks :=
        htidy.balanced.marks
      obtain ⟨e₂, hclose⟩ := hc₁.close_eq hmarks matched
      rw [Run.bind_of_ok hrun, Run.bind_of_ok hclose]
      refine ⟨ht₁.of_close hclose, fun hopen hhit => ?_⟩
      cases matched with
      | true =>
          have hcommit : close true e₁ = .ok () (e₁.committed e.speculation.marks) :=
            commit_of_open hmarks hopen
          rw [hcommit] at hclose
          cases hclose
          obtain ⟨r, hyields, hr, hled⟩ := hread hopened hhit
          exact ⟨r, hyields.rewind_of_true hr, hr, hled.settings, hled.position, hled.pulled,
            hled.furthest⟩
      | false =>
          have hmark : e.buffer.cursor ≤ e₁.buffer.cursor := hc₁.mark_le (by simp [hmarks])
          have habandon : close false e₁ = .ok () (e₁.abandoned _ _) :=
            abandon_of_le hmarks (Nat.le_trans hmark hc₁.window.cursor_le)
          rw [habandon] at hclose
          cases hclose
          obtain ⟨r, hyields, hr, hled⟩ := hread hopened hhit
          have hbase : e₁.buffer.base = e.buffer.base := (htidy.grown hopened).base
          refine ⟨{ r with stop := e.buffer.position }, hyields.rewind_of_false hr, hr,
            hled.settings, ?_, hled.pulled, hled.furthest⟩
          show e₁.buffer.base + e.buffer.cursor = _
          rw [hbase]
          rfl

theorem matchKind (kind : Kind) :
    Tracks s g bodyOf (fun base _ => (groundFrom s g base).takeKind kind) n
      (Engine.matchKind kind : Run σ Bool) := by
  have htake : Tracks s g bodyOf (fun base _ => (groundFrom s g base).takeKind kind) n
      (Engine.takeKind kind : Run σ Bool) := takeKind kind
  have h := speculate htake (.takeKind kind) (.takeKind kind)
  simp only [Ground.rewind_takeKind] at h
  exact h

theorem nested {p : Nat → Nat → Pass Bool} {body : Run σ Bool}
    (hbody : Tracks s g bodyOf p n body) : Tracks s g bodyOf p n (Engine.nested body) := by
  intro low e hc ht
  by_cases hdeep : e.settings.maxDepth ≤ e.depth
  · rw [nested_of_le hdeep]
    -- The limit is hit, so nothing is to be compared.
    cases hhit : e.depthHit with
    | some hit =>
        rw [Run.bind_of_ok (noteDepthHit_of_some hhit)]
        exact ⟨ht, fun _ hnone => nomatch hhit.symm.trans hnone⟩
    | none =>
        rw [Run.bind_of_ok (noteDepthHit_of_none hc.window hhit)]
        exact ⟨ht.reach 1 rfl fun _ _ => rfl, fun _ hnone => nomatch hnone⟩
  · rw [nested_of_lt (Nat.lt_of_not_le hdeep)]
    have hinner := hbody low { e with depth := e.depth + 1 }
      (hc.same rfl rfl (fun _ _ => rfl) rfl rfl) (ht.same rfl (Nat.le_refl _) fun _ _ => rfl)
    cases hrun : body { e with depth := e.depth + 1 } with
    | error fault e₁ =>
        rw [hrun] at hinner
        rw [Run.bind_of_error hrun]
        exact hinner
    | ok matched e₁ =>
        rw [hrun] at hinner
        rw [Run.bind_of_ok hrun]
        refine ⟨hinner.1.same rfl (Nat.le_refl _) fun _ _ => rfl, fun hopen hhit => ?_⟩
        obtain ⟨r, hyields, hr, hled⟩ := hinner.2 hopen hhit
        exact ⟨r, hyields, hr, hled.settings, hled.position, hled.pulled, hled.furthest⟩

end Tracks

-- ============================================================================
-- Rules through their memo
-- ============================================================================

/-- One more outcome is kept, and it is what backtracking makes of its rule. -/
theorem Trusting.of_record (h : Trusting s g bodyOf e) {id : RuleId} {pos : Nat}
    {r : Reading Bool} {matched : Bool} (hbase : e'.buffer.base = e.buffer.base)
    (hpulled : e.buffer.pulled ≤ e'.buffer.pulled)
    (hmemo : e'.memo
      = e.memo.record id pos (r.outcome (TokenSource.stream s) e.buffer.base matched))
    (hyields : Yields (fun n => (groundFrom s g e.buffer.base).backtrack n (.memo id (bodyOf id)))
      (e.buffer.base + pos) r)
    (hr : r.result = .ok matched) (hseen : r.seen ≤ e'.buffer.pulled) :
    Trusting s g bodyOf e' := by
  intro id' pos' outcome hget
  rw [hmemo, Memo.get?_record] at hget
  rw [hbase]
  split at hget
  · next heq =>
      obtain ⟨rfl, rfl⟩ := heq
      cases hget
      exact ⟨r, matched, hyields, hr, hseen, rfl⟩
  · obtain ⟨r', matched', hyields', hr', hseen', houtcome⟩ := h id' pos' outcome hget
    exact ⟨r', matched', hyields', hr', Nat.le_trans hseen' hpulled, houtcome⟩

/-- Replaying the outcome of a reading leads where the reading stopped. -/
theorem led_of_replayOutcome {id : RuleId} {r : Reading Bool} {matched : Bool} (memo : Memo)
    (h : Coherent s low e)
    (hget : e.memo.get? id e.buffer.cursor
      = some (r.outcome (TokenSource.stream s) e.buffer.base matched))
    (hle : e.buffer.position ≤ r.stop) (hseen : r.seen ≤ e.buffer.pulled)
    (hstay : matched = false → r.stop = e.buffer.position) :
    ∃ e', replayOutcome (r.outcome (TokenSource.stream s) e.buffer.base matched)
        { e with memo } = .ok matched e' ∧
      Led s e r e' ∧ e'.buffer.base = e.buffer.base ∧ e.buffer.pulled ≤ e'.buffer.pulled ∧
      e'.memo = memo := by
  have hpulled : e.buffer.pulled = max e.buffer.pulled r.seen := (Nat.max_eq_left hseen).symm
  have hbuffered : ∀ m, Mismatch.noted (TokenSource.stream s) r.misses = some m →
      e.buffer.base ≤ m.position ∧ m.position < e.buffer.pulled := by
    intro m hm
    refine h.points id e.buffer.cursor _ m.point hget ?_
    cases matched <;> simp [Reading.outcome, Outcome.furthest, hm]
  have hreplay := replay_eq (e := { e with memo }) h.window
    (Mismatch.onStream_noted (TokenSource.stream s) r.misses) hbuffered
  cases matched with
  | false =>
      exact ⟨_, Run.bind_of_ok hreplay, ⟨rfl, (hstay rfl).symm, hpulled, rfl⟩, rfl,
        Nat.le_refl _, rfl⟩
  | true =>
      obtain ⟨-, hstop⟩ := h.stops id e.buffer.cursor _ _ hget
      have hseek := seek_eq (e := { e with
        memo
        furthest := Mismatch.join e.furthest
          (Mismatch.noted (TokenSource.stream s) r.misses) }) hstop
      refine ⟨_, (Run.bind_of_ok hreplay).trans (Run.bind_of_ok hseek), ⟨rfl, ?_, hpulled, rfl⟩,
        rfl, Nat.le_refl _, rfl⟩
      have hposition : e.buffer.position = e.buffer.base + e.buffer.cursor := rfl
      show e.buffer.base + (r.stop - e.buffer.base) = r.stop
      omega

namespace Tracks

/-- A kept outcome is what backtracking makes of the rule, and replaying it does the same. -/
theorem of_kept {id : RuleId} {outcome : Outcome} (hc : Coherent s low e)
    (ht : Trusting s g bodyOf e) (hget : e.memo.get? id e.buffer.cursor = some outcome) :
    Tallies s g bodyOf
      (fun base n => ((groundFrom s g base).backtrack n (bodyOf id)).rewind) n e
      (replayOutcome outcome { e with memo := (e.memo.lookup id e.buffer.cursor).2 }) := by
  obtain ⟨r, matched, hyields, hr, hseen, rfl⟩ := ht id _ _ hget
  obtain ⟨fuel, hfuel⟩ := hyields.pred
  have hread := hfuel fuel (Nat.le_refl fuel)
  have hwithin : r.Within e.buffer.position :=
    hread ▸ Ground.within_backtrack _ (fuel + 1) (.memo id (bodyOf id)) e.buffer.position
  have hstay : matched = false → r.stop = e.buffer.position := by
    rintro rfl
    rw [← hread] at hr ⊢
    exact Pass.stop_rewind_of_false hr
  obtain ⟨e', hreplay, hled, hbase, hpulled, hmemo⟩ :=
    led_of_replayOutcome (e.memo.lookup id e.buffer.cursor).2 hc hget hwithin.le_stop hseen hstay
  rw [hreplay]
  refine ⟨ht.same hbase hpulled fun id' pos => ?_, fun _ _ => ⟨r, ⟨fuel, hfuel⟩, hr, hled⟩⟩
  rw [hmemo]
  exact Memo.get?_snd_lookup e.memo id id' _ pos

/-- The outcome of a run is what backtracking makes of the rule, and is kept as such. -/
theorem of_new {id : RuleId} {body : Run σ Bool}
    (hbody : Tracks s g bodyOf (fun base n => (groundFrom s g base).backtrack n (bodyOf id)) n body)
    (hsteady : Steady body) (hup : Upholds s body) (hc : Coherent s low e)
    (ht : Trusting s g bodyOf e) (hopen : e.speculation.marks ≠ []) :
    Tallies s g bodyOf
      (fun base n => ((groundFrom s g base).backtrack n (bodyOf id)).rewind) n e
      ((do
        let matched ← Engine.speculate body
        keepOutcome id e.buffer.cursor e.furthest matched
        return matched : Run σ Bool) (e.fresh id)) := by
  have hinner := (speculate hbody hsteady hup) e.buffer.base (e.fresh id) (hc.fresh id)
    (ht.same rfl (Nat.le_refl _) fun id' pos => Memo.get?_snd_lookup e.memo id id' _ pos)
  cases hrun : Engine.speculate body (e.fresh id) with
  | error fault e₁ =>
      rw [hrun] at hinner
      rw [Run.bind_of_error hrun]
      exact hinner
  | ok matched e₁ =>
      rw [hrun] at hinner
      rw [Run.bind_of_ok hrun, Run.bind_of_ok (keepOutcome_eq ..)]
      obtain ⟨ht₁, hread⟩ := hinner
      have hbase : e₁.buffer.base = e.buffer.base :=
        ((hsteady.close_speculate hrun).1.grown hopen).base
      have hposition : e₁.buffer.position = e₁.buffer.base + e₁.buffer.cursor := rfl
      by_cases hhit : e₁.depthHit = none
      · obtain ⟨r, hyields, hr, hled⟩ := hread hopen hhit
        have hfurthest : e₁.furthest = Mismatch.noted (TokenSource.stream s) r.misses :=
          hled.furthest.trans (Mismatch.none_join _)
        have hcursor : e₁.buffer.cursor = r.stop - e₁.buffer.base := by
          have := hled.position
          omega
        have hsame : Yields (fun n => (groundFrom s g e₁.buffer.base).backtrack n
            (.memo id (bodyOf id))) (e₁.buffer.base + e.buffer.cursor) r := by
          rw [hbase]
          exact hyields.succ
        have hseen : r.seen ≤ e₁.buffer.pulled := by
          rw [hled.pulled]
          exact Nat.le_max_right _ _
        refine ⟨ht₁.of_record rfl (Nat.le_refl _) ?_ hsame hr hseen,
          fun _ _ => ⟨r, hyields, hr, hled.settings, hled.position, hled.pulled, ?_⟩⟩
        · simp only [hhit, Option.isNone_none, if_true]
          rw [hfurthest, hcursor]
          rfl
        · show Mismatch.join e₁.furthest e.furthest = _
          rw [hfurthest]
          exact Mismatch.join_comm (Mismatch.onStream_noted _ _) hc.onStream
      · refine ⟨ht₁.same rfl (Nat.le_refl _) fun _ _ => ?_, fun _ hnone => absurd hnone hhit⟩
        simp only [Option.isNone_iff_eq_none, hhit, if_false]

theorem memoized {id : RuleId} {body : Run σ Bool}
    (hbody : Tracks s g bodyOf (fun base n => (groundFrom s g base).backtrack n (bodyOf id)) n body)
    (hsteady : Steady body) (hup : Upholds s body) :
    Tracks s g bodyOf (fun base n => ((groundFrom s g base).backtrack n (bodyOf id)).rewind) n
      (Engine.memoized id body) := by
  intro low e hc ht
  rcases memoized_cases id body e with heq | ⟨outcome, hget, heq⟩ | ⟨hopen, -, heq⟩
  · rw [heq]
    have hcounted := speculate hbody hsteady hup low (e.counted id) (hc.counted id)
      (ht.same rfl (Nat.le_refl _) fun _ _ => rfl)
    exact hcounted.of_same rfl rfl rfl rfl
  · rw [heq]
    exact of_kept hc ht hget
  · rw [heq]
    exact of_new hbody hsteady hup hc ht hopen

-- ============================================================================
-- Rules
-- ============================================================================

/-- Every plain rule tracks backtracking. -/
theorem eval (hg : ∀ name, (g name).Plain bodyOf) (n : Nat) {rule : Rule ν}
    (hrule : rule.Plain bodyOf) :
    Tracks s g bodyOf (fun base n => (groundFrom s g base).backtrack n rule) n
      (Engine.eval g n rule : Run σ Bool) := by
  have hsteady : ∀ n {rule : Rule ν}, rule.StackFree → Steady (Engine.eval g n rule : Run σ Bool) :=
    fun n _ => .eval (stackFree_of_plain hg) n
  have hup : ∀ n {rule : Rule ν}, rule.StackFree →
      Upholds s (Engine.eval g n rule : Run σ Bool) := fun n _ => .eval (stackFree_of_plain hg) n
  have hfirm : ∀ rule base, Firm fun n => (groundFrom s g base).backtrack n rule :=
    fun rule base => (groundFrom s g base).firm_backtrack rule
  induction n generalizing rule with
  | zero => exact exhausted fun _ => rfl
  | succ n ih =>
      obtain ⟨hstack, hbody⟩ := hrule
      cases rule with
      | token kind => exact succ (matchKind kind)
      | const answer => exact succ (pure answer)
      | both first second =>
          have h := bind (ih ⟨hstack.1, hbody.1⟩) (hsteady n hstack.1) (hup n hstack.1)
            (hfirm first) (of_cond (.eval g n second) (.pure false))
            fun a => cond (ih ⟨hstack.2, hbody.2⟩) (pure false) a
          exact succ h
      | either first second =>
          have h := bind (ih ⟨hstack.1, hbody.1⟩) (hsteady n hstack.1) (hup n hstack.1)
            (hfirm first) (of_cond (.pure true) (.eval g n second))
            fun a => cond (pure true) (ih ⟨hstack.2, hbody.2⟩) a
          exact succ h
      | negate rule =>
          have hstack' : rule.StackFree := hstack
          have h := bind (ih ⟨hstack', hbody⟩) (hsteady n hstack') (hup n hstack')
            (hfirm rule) (fun a => .pure (!a)) fun a => pure (!a)
          exact succ h
      | attempt rule =>
          have hstack' : rule.StackFree := hstack
          exact succ (speculate (ih ⟨hstack', hbody⟩) (hsteady n hstack') (hup n hstack'))
      | trail delimiter element =>
          have hstack' : element.StackFree := hstack
          have hloop : (Rule.trail delimiter element).StackFree := hstack
          have hagain := bind (ih ⟨hstack', hbody⟩) (hsteady n hstack') (hup n hstack')
            (hfirm element) (of_cond (.eval g n (.trail delimiter element)) (.pure false))
            fun a => cond (ih ⟨hloop, hbody⟩) (pure false) a
          have hlatch : Latches (do
              if ← Engine.eval g n element then Engine.eval g n (.trail delimiter element)
              else return false : Run σ Bool) :=
            .bind (.eval g n element) (of_cond (.eval g n (.trail delimiter element)) (.pure false))
          have hnext := bind (matchKind delimiter) (.matchKind delimiter) (.matchKind delimiter)
            (fun _ => .const _) (of_cond hlatch (.pure false))
            fun a => cond hagain (pure false) a
          have hlatch' := Latches.bind (.matchKind delimiter) (of_cond hlatch (.pure false))
          have h := bind (atDelimiter delimiter) (.atDelimiter delimiter) (.atDelimiter delimiter)
            (fun _ => .const _) (of_cond hlatch' (.pure true))
            fun a => cond hnext (pure true) a
          exact succ h
      | memo id body =>
          have hstack' : body.StackFree := hstack
          obtain ⟨rfl, hbody'⟩ := hbody
          exact succ (memoized (ih ⟨hstack', hbody'⟩) (hsteady n hstack') (hup n hstack'))
      | nested body =>
          have hstack' : body.StackFree := hstack
          exact succ (nested (ih ⟨hstack', hbody⟩))
      | ref name => exact succ (ih (hg name))
      | ahead k kind => exact succ (lookAhead k kind)
      | stack step => exact hstack.elim

end Tracks
end Engine
end Packrat
