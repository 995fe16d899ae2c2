/-
  Packrat.Proofs.Backtracking

  Plain backtracking: what a rule means with no memo, no marks and no depth
  limit.  `Ground.backtrack` runs a rule from a place of the stream and tells
  the answer, where it stopped and every mismatch that it met, those of
  alternatives that were given up included.

  It is the reading of the rule where the limit is out of reach (`read_eq`), so
  the laws of readings hold for it.  Fuel plays no part once it suffices: what a
  rule yields is what it reads as on all fuel from some amount on (`Yields`).
-/

import Packrat.Proofs.Reading

namespace Packrat

variable {ν : Type}

namespace Ground

variable (G : Ground ν)

/-- Runs a rule.  Rules through their memo are speculations, nested ones run as they are, and
    operations on the rollback marks count as rules that match. -/
def backtrack : Nat → Rule ν → Pass Bool
  | 0, _ => Pass.fail .exhausted
  | fuel + 1, rule =>
    match rule with
    | .token kind => G.takeKind kind
    | .const answer => pure answer
    | .both first second => do
      if ← backtrack fuel first then backtrack fuel second else return false
    | .either first second => do
      if ← backtrack fuel first then return true else backtrack fuel second
    | .negate rule => return !(← backtrack fuel rule)
    | .attempt rule => Pass.rewind (backtrack fuel rule)
    | .trail delimiter element => do
      if ← G.atDelimiter delimiter then
        if ← G.takeKind delimiter then
          if ← backtrack fuel element then backtrack fuel (.trail delimiter element)
          else return false
        else return false
      else return true
    | .memo _ body => Pass.rewind (backtrack fuel body)
    | .nested body => backtrack fuel body
    | .ref name => backtrack fuel (G.grammar name)
    | .ahead k kind => G.lookAhead k kind
    | .stack _ => pure true

/-- Where the depth limit is out of reach, a reading is plain backtracking. -/
theorem read_eq {limit d n : Nat} (h : d + n ≤ limit) (rule : Rule ν) :
    ({ G with maxDepth := limit } : Ground ν).read n d rule = G.backtrack n rule := by
  induction n generalizing d rule with
  | zero => rfl
  | succ n ih =>
      have hsame : ∀ rule, _ = G.backtrack n rule := ih (d := d) (by omega)
      have hdeeper : ∀ rule, _ = G.backtrack n rule := ih (d := d + 1) (by omega)
      cases rule with
      | token kind => rfl
      | const answer => rfl
      | both first second => simp only [read, backtrack, hsame]
      | either first second => simp only [read, backtrack, hsame]
      | negate rule => simp only [read, backtrack, hsame]
      | attempt rule => simp only [read, backtrack, hsame]
      | trail delimiter element =>
          simp only [read, backtrack, hsame]
          rfl
      | memo id body => simp only [read, backtrack, hsame]
      | nested body =>
          have hfree : ¬limit ≤ d := by omega
          simp only [read, backtrack, hdeeper, if_neg hfree]
      | ref name => simp only [read, backtrack, hsame]
      | ahead k kind => rfl
      | stack step => rfl

theorem within_backtrack (n : Nat) (rule : Rule ν) (i : Nat) :
    (G.backtrack n rule i).Within i := by
  rw [← G.read_eq (Nat.le_of_eq (Nat.zero_add n)) rule]
  exact within_read _ n 0 rule i

theorem lookAhead_of_far {k i : Nat} (hk : k ≠ 0) (h : G.horizon < i + k) (kind : Kind) :
    G.lookAhead k kind i = ⟨.error .overflow, i, 0, [], []⟩ := by
  simp only [lookAhead, if_neg hk, if_pos h]
  rfl

theorem lookAhead_of_near {k i : Nat} (hk : k ≠ 0) (h : i + k ≤ G.horizon) (kind : Kind) :
    G.lookAhead k kind i
      = ⟨.ok (decide ((G.tokens (i + (k - 1))).kind = kind)), i, i + (k - 1) + 1, [], []⟩ := by
  simp only [lookAhead, if_neg hk, if_neg (Nat.not_lt.2 h)]
  rfl

end Ground

-- ============================================================================
-- Passes on fuel
-- ============================================================================

/-- More fuel does not change what a pass came to. -/
def Firm {α : Type} (p : Nat → Pass α) : Prop :=
  ∀ n m i, (p n i).result ≠ .error .exhausted → n ≤ m → p m i = p n i

/-- From some fuel on the pass reads so at that place. -/
def Yields {α : Type} (p : Nat → Pass α) (i : Nat) (r : Reading α) : Prop :=
  ∃ n, ∀ m, n ≤ m → p m i = r

theorem Firm.const {α : Type} (p : Pass α) : Firm fun _ => p := fun _ _ _ _ _ => rfl

theorem Ground.firm_backtrack (G : Ground ν) (rule : Rule ν) :
    Firm fun n => G.backtrack n rule := by
  intro n m i hend hle
  have hsmall := G.read_eq (show 0 + n ≤ m by omega) rule
  have hlarge := G.read_eq (show 0 + m ≤ m by omega) rule
  simp only [← hsmall, ← hlarge] at hend ⊢
  exact Ground.read_carriesTo _ hle (Nat.le_refl 0) rule i hend (.inl rfl)

namespace Yields

variable {α β : Type} {i : Nat} {r r' : Reading α} {p : Nat → Pass α}

theorem const {p : Pass α} (h : p i = r) : Yields (fun _ => p) i r := ⟨0, fun _ _ => h⟩

theorem unique (h : Yields p i r) (h' : Yields p i r') : r = r' := by
  obtain ⟨n, hn⟩ := h
  obtain ⟨n', hn'⟩ := h'
  rw [← hn (max n n') (Nat.le_max_left _ _), hn' (max n n') (Nat.le_max_right _ _)]

/-- What a pass comes to on some fuel, it yields. -/
theorem of_ends (hfirm : Firm p) {n : Nat} (hend : (p n i).result ≠ .error .exhausted) :
    Yields p i (p n i) :=
  ⟨n, fun m hle => hfirm n m i hend hle⟩

/-- One fuel more than a pass needs for its parts. -/
theorem succ (h : Yields (fun n => p (n + 1)) i r) : Yields p i r := by
  obtain ⟨n, hn⟩ := h
  refine ⟨n + 1, fun m hle => ?_⟩
  obtain ⟨m, rfl⟩ : ∃ k, m = k + 1 := ⟨m - 1, by omega⟩
  exact hn m (by omega)

/-- The converse: on all but the first fuel a pass reads as its parts do. -/
theorem pred (h : Yields p i r) : Yields (fun n => p (n + 1)) i r := by
  obtain ⟨n, hn⟩ := h
  exact ⟨n, fun m hle => hn (m + 1) (by omega)⟩

theorem bind {q : α → Nat → Pass β} {r' : Reading β} {a : α} (h : Yields p i r)
    (hr : r.result = .ok a) (h' : Yields (q a) r.stop r') :
    Yields (fun n => p n >>= fun a => q a n) i (r.append r') := by
  obtain ⟨n, hn⟩ := h
  obtain ⟨n', hn'⟩ := h'
  refine ⟨max n n', fun m hle => ?_⟩
  show (p m i).andThen (fun a => q a m) = _
  rw [hn m (by omega), Reading.andThen_of_ok hr, hn' m (by omega)]

/-- A pass that faults is not followed by another. -/
theorem bind_of_error {q : α → Nat → Pass β} {fault : Fault} (h : Yields p i r)
    (hr : r.result = .error fault) :
    Yields (fun n => p n >>= fun a => q a n) i { r with result := .error fault } := by
  obtain ⟨n, hn⟩ := h
  refine ⟨n, fun m hle => ?_⟩
  show (p m i).andThen (fun a => q a m) = _
  rw [hn m hle, Reading.andThen_of_error hr]

theorem rewind_of_true {p : Nat → Pass Bool} {r : Reading Bool} (h : Yields p i r)
    (hr : r.result = .ok true) : Yields (fun n => (p n).rewind) i r := by
  obtain ⟨n, hn⟩ := h
  refine ⟨n, fun m hle => ?_⟩
  simp only [Pass.rewind, hn m hle, hr]

theorem rewind_of_false {p : Nat → Pass Bool} {r : Reading Bool} (h : Yields p i r)
    (hr : r.result = .ok false) : Yields (fun n => (p n).rewind) i { r with stop := i } := by
  obtain ⟨n, hn⟩ := h
  refine ⟨n, fun m hle => ?_⟩
  simp only [Pass.rewind, hn m hle, hr]

theorem rewind_of_error {p : Nat → Pass Bool} {r : Reading Bool} {fault : Fault}
    (h : Yields p i r) (hr : r.result = .error fault) : Yields (fun n => (p n).rewind) i r := by
  obtain ⟨n, hn⟩ := h
  refine ⟨n, fun m hle => ?_⟩
  simp only [Pass.rewind, hn m hle, hr]

end Yields

/-- What passes on some fuel is firm if its parts are. -/
theorem Firm.of_yields {α : Type} {p : Nat → Pass α} (h : Firm p) {n i : Nat} {r : Reading α}
    (hend : (p n i).result ≠ .error .exhausted) (hyields : Yields p i r) : p n i = r :=
  (Yields.of_ends h hend).unique hyields

end Packrat
