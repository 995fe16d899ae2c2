/-
  Packrat.Proofs.Reading

  A plain reading of rules: no buffer, no marks, no memo.  A reading runs a
  rule from a place of an endless stream of tokens and tells the answer, the
  place where it stopped, how far it looked, every mismatch that it met and
  every place where the depth limit cut it short.

  `Ground.read` is structural in its fuel like the engine's `eval`, and has one
  line for each constructor of `Rule`.  Its main law is `read_eq_read`: two
  readings of one rule from one place agree, whatever their fuel and depth, as
  long as the depth limit plays no part in the one from the deeper level.
-/

import Packrat.Proofs.Stream
import Packrat.Rule

namespace Packrat

/-- What came of running a rule from some place of a stream. -/
structure Reading (α : Type) where
  /-- The answer, or the fault that ended the run. -/
  result : Except Fault α
  /-- The number of the token that comes next. -/
  stop : Nat
  /-- One more than the number of the last token that was looked at. -/
  seen : Nat
  /-- The mismatches met on the way: the number of the token, and the kind that it was not. -/
  misses : List (Nat × Kind)
  /-- The places where the depth limit was hit. -/
  hits : List Nat

/-- A reading for each place of a stream. -/
def Pass (α : Type) : Type := Nat → Reading α

namespace Reading

variable {α β : Type}

/-- One reading and then another. -/
def append (r : Reading α) (r' : Reading β) : Reading β :=
  ⟨r'.result, r'.stop, max r.seen r'.seen, r.misses ++ r'.misses, r.hits ++ r'.hits⟩

/-- A reading and then the pass that its answer calls for, unless it ended in a fault. -/
def andThen (r : Reading α) (f : α → Pass β) : Reading β :=
  match r.result with
  | .ok a => r.append (f a r.stop)
  | .error fault => ⟨.error fault, r.stop, r.seen, r.misses, r.hits⟩

theorem andThen_of_ok {r : Reading α} {a : α} (h : r.result = .ok a) (f : α → Pass β) :
    r.andThen f = r.append (f a r.stop) := by
  simp only [andThen, h]

theorem andThen_of_error {r : Reading α} {fault : Fault} (h : r.result = .error fault)
    (f : α → Pass β) :
    r.andThen f = ⟨.error fault, r.stop, r.seen, r.misses, r.hits⟩ := by
  simp only [andThen, h]

end Reading

namespace Pass

variable {α β : Type}

instance : Monad Pass where
  pure a := fun i => ⟨.ok a, i, 0, [], []⟩
  bind p f := fun i => (p i).andThen f

theorem pure_apply (a : α) (i : Nat) : (pure a : Pass α) i = ⟨.ok a, i, 0, [], []⟩ := rfl

theorem bind_apply (p : Pass α) (f : α → Pass β) (i : Nat) : (p >>= f) i = (p i).andThen f := rfl

/-- Ends in a fault. -/
def fail (fault : Fault) : Pass α := fun i => ⟨.error fault, i, 0, [], []⟩

/-- Goes past the next token. -/
def advance : Pass Unit := fun i => ⟨.ok (), i + 1, 0, [], []⟩

/-- Notes that the next token is not of the kind. -/
def miss (kind : Kind) : Pass Unit := fun i => ⟨.ok (), i, 0, [(i, kind)], []⟩

/-- Notes that the depth limit was hit. -/
def hit : Pass Unit := fun i => ⟨.ok (), i, 0, [], [i]⟩

/-- Goes back to where it started if the answer is no. -/
def rewind (p : Pass Bool) : Pass Bool := fun i =>
  match (p i).result with
  | .ok false => { p i with stop := i }
  | _ => p i

/-- What is rewound stays where it started if it does not match. -/
theorem stop_rewind_of_false {p : Pass Bool} {i : Nat} (h : (p.rewind i).result = .ok false) :
    (p.rewind i).stop = i := by
  simp only [rewind] at h ⊢
  split
  · rfl
  · split at h
    · contradiction
    · contradiction

end Pass

/-- What a reading depends on besides the rule and the place. -/
structure Ground (ν : Type) where
  /-- The stream of tokens. -/
  tokens : Nat → Token
  /-- The rule of every name. -/
  grammar : Grammar ν
  /-- How many nested bodies may run inside one another. -/
  maxDepth : Nat
  /-- Token numbers from here on are too far ahead to be asked for. -/
  horizon : Nat

namespace Ground

variable {ν : Type} (G : Ground ν)

/-- The token `k` places behind the next one. -/
def look (k : Nat) : Pass Token := fun i => ⟨.ok (G.tokens (i + k)), i, i + k + 1, [], []⟩

/-- Takes the next token if it has the kind. -/
def takeKind (kind : Kind) : Pass Bool := do
  let token ← G.look 0
  if token.kind = kind then
    Pass.advance
    return true
  else
    Pass.miss kind
    return false

/-- Whether another delimiter follows. -/
def atDelimiter (delimiter : Kind) : Pass Bool := do
  let token ← G.look 0
  if token.kind = delimiter then return true
  else
    Pass.miss delimiter
    return false

/-- Whether the token `k` places ahead has the kind. -/
def lookAhead (k : Nat) (kind : Kind) : Pass Bool := fun i =>
  if k = 0 then Pass.fail .zeroDistance i
  else if G.horizon < i + k then Pass.fail .overflow i
  else ((G.look (k - 1)) i).andThen fun token => pure (decide (token.kind = kind))

/-- Reads a rule at some depth.  Operations on the rollback marks are none of a reading's
    business and count as rules that match. -/
def read : Nat → Nat → Rule ν → Pass Bool
  | 0, _, _ => Pass.fail .exhausted
  | fuel + 1, depth, rule =>
    match rule with
    | .token kind => G.takeKind kind
    | .const answer => pure answer
    | .both first second => do
      if ← read fuel depth first then read fuel depth second else return false
    | .either first second => do
      if ← read fuel depth first then return true else read fuel depth second
    | .negate rule => return !(← read fuel depth rule)
    | .attempt rule => Pass.rewind (read fuel depth rule)
    | .trail delimiter element => do
      if ← G.atDelimiter delimiter then
        if ← G.takeKind delimiter then
          if ← read fuel depth element then read fuel depth (.trail delimiter element)
          else return false
        else return false
      else return true
    | .memo _ body => Pass.rewind (read fuel depth body)
    | .nested body =>
      if G.maxDepth ≤ depth then do
        Pass.hit
        return false
      else read fuel (depth + 1) body
    | .ref name => read fuel depth (G.grammar name)
    | .ahead k kind => G.lookAhead k kind
    | .stack _ => pure true

-- ============================================================================
-- Single steps
-- ============================================================================

theorem takeKind_of_eq {kind : Kind} {i : Nat} (h : (G.tokens i).kind = kind) :
    G.takeKind kind i = ⟨.ok true, i + 1, i + 1, [], []⟩ := by
  simp [takeKind, look, Pass.bind_apply, Reading.andThen, h, Pass.advance, Reading.append,
    Pass.pure_apply]

theorem takeKind_of_ne {kind : Kind} {i : Nat} (h : (G.tokens i).kind ≠ kind) :
    G.takeKind kind i = ⟨.ok false, i, i + 1, [(i, kind)], []⟩ := by
  simp [takeKind, look, Pass.bind_apply, Reading.andThen, h, Pass.miss, Reading.append,
    Pass.pure_apply]

/-- A token that is not taken leaves nothing to rewind. -/
theorem rewind_takeKind (kind : Kind) : (G.takeKind kind).rewind = G.takeKind kind := by
  funext i
  by_cases h : (G.tokens i).kind = kind
  · simp [Pass.rewind, takeKind_of_eq G h]
  · simp [Pass.rewind, takeKind_of_ne G h]

theorem atDelimiter_of_eq {kind : Kind} {i : Nat} (h : (G.tokens i).kind = kind) :
    G.atDelimiter kind i = ⟨.ok true, i, i + 1, [], []⟩ := by
  simp [atDelimiter, look, Pass.bind_apply, Reading.andThen, h, Reading.append, Pass.pure_apply]

theorem atDelimiter_of_ne {kind : Kind} {i : Nat} (h : (G.tokens i).kind ≠ kind) :
    G.atDelimiter kind i = ⟨.ok false, i, i + 1, [(i, kind)], []⟩ := by
  simp [atDelimiter, look, Pass.bind_apply, Reading.andThen, h, Pass.miss, Reading.append,
    Pass.pure_apply]

-- ============================================================================
-- What a reading touches
-- ============================================================================

end Ground

/-- The reading started at `i` and went no further back; all that it noted lies where it
    looked. -/
structure Reading.Within {α : Type} (r : Reading α) (i : Nat) : Prop where
  le_stop : i ≤ r.stop
  stop_le : r.stop ≤ max i r.seen
  misses : ∀ miss ∈ r.misses, i ≤ miss.1 ∧ miss.1 < r.seen
  hits : ∀ hit ∈ r.hits, i ≤ hit

namespace Reading.Within

variable {α β : Type} {i : Nat}

theorem append {r : Reading α} {r' : Reading β} (h : r.Within i) (h' : r'.Within r.stop) :
    (r.append r').Within i := by
  have hle := h.le_stop
  have hstop := h.stop_le
  have hle' := h'.le_stop
  have hstop' := h'.stop_le
  constructor
  · show i ≤ r'.stop
    omega
  · show r'.stop ≤ max i (max r.seen r'.seen)
    omega
  · intro miss hmem
    show i ≤ miss.1 ∧ miss.1 < max r.seen r'.seen
    rcases List.mem_append.1 hmem with hmem | hmem
    · have := h.misses miss hmem
      omega
    · have := h'.misses miss hmem
      omega
  · intro hit hmem
    rcases List.mem_append.1 hmem with hmem | hmem
    · exact h.hits hit hmem
    · exact Nat.le_trans hle (h'.hits hit hmem)

theorem andThen {r : Reading α} {f : α → Pass β} (h : r.Within i)
    (hf : ∀ a, r.result = .ok a → (f a r.stop).Within r.stop) : (r.andThen f).Within i := by
  cases hr : r.result with
  | ok a =>
      rw [andThen_of_ok hr]
      exact h.append (hf a hr)
  | error fault =>
      rw [andThen_of_error hr]
      exact ⟨h.le_stop, h.stop_le, h.misses, h.hits⟩

/-- A reading that goes nowhere and notes nothing. -/
theorem still {r : Reading α} (hstop : r.stop = i) (hmisses : r.misses = [])
    (hhits : ∀ hit ∈ r.hits, i ≤ hit) : r.Within i where
  le_stop := Nat.le_of_eq hstop.symm
  stop_le := by omega
  misses := by simp [hmisses]
  hits := hhits

theorem rewind {p : Pass Bool} (h : (p i).Within i) : (p.rewind i).Within i := by
  simp only [Pass.rewind]
  split
  · exact ⟨Nat.le_refl i, Nat.le_max_left i _, h.misses, h.hits⟩
  · exact h

end Reading.Within

namespace Ground

variable {ν : Type} (G : Ground ν)

theorem within_takeKind (kind : Kind) (i : Nat) : (G.takeKind kind i).Within i := by
  by_cases h : (G.tokens i).kind = kind
  · rw [takeKind_of_eq G h]
    exact ⟨Nat.le_succ i, Nat.le_max_right i _, by simp, by simp⟩
  · rw [takeKind_of_ne G h]
    exact ⟨Nat.le_refl i, Nat.le_max_left i _, by simp, by simp⟩

theorem within_atDelimiter (kind : Kind) (i : Nat) : (G.atDelimiter kind i).Within i := by
  by_cases h : (G.tokens i).kind = kind
  · rw [atDelimiter_of_eq G h]
    exact ⟨Nat.le_refl i, Nat.le_max_left i _, by simp, by simp⟩
  · rw [atDelimiter_of_ne G h]
    exact ⟨Nat.le_refl i, Nat.le_max_left i _, by simp, by simp⟩

theorem within_pure {α : Type} (a : α) (i : Nat) : ((pure a : Pass α) i).Within i :=
  .still rfl rfl (by simp [Pass.pure_apply])

theorem within_lookAhead (k : Nat) (kind : Kind) (i : Nat) : (G.lookAhead k kind i).Within i := by
  simp only [lookAhead]
  split
  · exact .still rfl rfl (by simp [Pass.fail])
  · split
    · exact .still rfl rfl (by simp [Pass.fail])
    · exact .andThen (.still rfl rfl (by simp [look])) fun _ _ => within_pure _ _

/-- No rule goes back behind the place where it started. -/
theorem within_read (n d : Nat) (rule : Rule ν) (i : Nat) : (G.read n d rule i).Within i := by
  induction n generalizing d rule i with
  | zero => exact .still rfl rfl (by simp [read, Pass.fail])
  | succ n ih =>
      cases rule with
      | token kind => exact within_takeKind G kind i
      | const answer => exact within_pure answer i
      | both first second =>
          refine .andThen (ih d first i) fun a _ => ?_
          cases a with
          | true => exact ih d second _
          | false => exact within_pure false _
      | either first second =>
          refine .andThen (ih d first i) fun a _ => ?_
          cases a with
          | true => exact within_pure true _
          | false => exact ih d second _
      | negate rule => exact .andThen (ih d rule i) fun _ _ => within_pure _ _
      | attempt rule => exact .rewind (ih d rule i)
      | trail delimiter element =>
          refine .andThen (within_atDelimiter G delimiter i) fun a _ => ?_
          cases a with
          | false => exact within_pure true _
          | true =>
              refine .andThen (within_takeKind G delimiter _) fun a _ => ?_
              cases a with
              | false => exact within_pure false _
              | true =>
                  refine .andThen (ih d element _) fun a _ => ?_
                  cases a with
                  | false => exact within_pure false _
                  | true => exact ih d (.trail delimiter element) _
      | memo id body => exact .rewind (ih d body i)
      | nested body =>
          simp only [read]
          split
          · exact .andThen (.still rfl rfl (by simp [Pass.hit])) fun _ _ => within_pure false _
          · exact ih (d + 1) body i
      | ref name => exact ih d (G.grammar name) i
      | ahead k kind => exact within_lookAhead G k kind i
      | stack step => exact within_pure true i

end Ground

-- ============================================================================
-- Fuel and depth
-- ============================================================================

/-- A reading that ends, and that the depth limit does not touch unless `free` says that this
    is no matter, is also what `r'` is. -/
def Reading.CarriesTo {α : Type} (free : Prop) (r r' : Reading α) : Prop :=
  r.result ≠ .error .exhausted → free ∨ r.hits = [] → r' = r

namespace Reading.CarriesTo

variable {α β : Type} {free : Prop}

theorem refl (r : Reading α) : r.CarriesTo free r := fun _ _ => rfl

theorem andThen {r r' : Reading α} {f f' : α → Pass β} (h : r.CarriesTo free r')
    (hf : ∀ a j, (f a j).CarriesTo free (f' a j)) :
    (r.andThen f).CarriesTo free (r'.andThen f') := by
  intro hend hhits
  cases hr : r.result with
  | ok a =>
      rw [andThen_of_ok hr] at hend hhits ⊢
      have hfirst : free ∨ r.hits = [] := hhits.imp_right fun h => (List.append_eq_nil_iff.1 h).1
      have hrest : free ∨ (f a r.stop).hits = [] :=
        hhits.imp_right fun h => (List.append_eq_nil_iff.1 h).2
      obtain rfl : r' = r := h (by simp [hr]) hfirst
      rw [andThen_of_ok hr, hf a _ hend hrest]
  | error fault =>
      rw [andThen_of_error hr] at hend hhits ⊢
      obtain rfl : r' = r := h (by simpa [hr] using hend) hhits
      rw [andThen_of_error hr]

theorem rewind {p p' : Pass Bool} {i : Nat} (h : (p i).CarriesTo free (p' i)) :
    (p.rewind i).CarriesTo free (p'.rewind i) := by
  intro hend hhits
  have hresult : (p.rewind i).result = (p i).result ∧ (p.rewind i).hits = (p i).hits := by
    simp only [Pass.rewind]
    split <;> simp [*]
  rw [hresult.1] at hend
  rw [hresult.2] at hhits
  simp only [Pass.rewind, h hend hhits]

end Reading.CarriesTo

namespace Ground

variable {ν : Type} (G : Ground ν)

/-- More fuel and a shallower start change nothing that the limits did not. -/
theorem read_carriesTo {n n' d d' : Nat} (hn : n ≤ n') (hd : d' ≤ d) (rule : Rule ν) (i : Nat) :
    (G.read n d rule i).CarriesTo (d' = d) (G.read n' d' rule i) := by
  induction n generalizing n' d d' rule i with
  | zero => exact fun hend => absurd rfl hend
  | succ n ih =>
      obtain ⟨n', rfl⟩ : ∃ m, n' = m + 1 := ⟨n' - 1, by omega⟩
      have hn : n ≤ n' := by omega
      cases rule with
      | token kind => exact .refl _
      | const answer => exact .refl _
      | both first second =>
          refine .andThen (ih hn hd first i) fun a j => ?_
          cases a with
          | true => exact ih hn hd second j
          | false => exact .refl _
      | either first second =>
          refine .andThen (ih hn hd first i) fun a j => ?_
          cases a with
          | true => exact .refl _
          | false => exact ih hn hd second j
      | negate rule => exact .andThen (ih hn hd rule i) fun _ _ => .refl _
      | attempt rule => exact .rewind (ih hn hd rule i)
      | trail delimiter element =>
          refine .andThen (.refl _) fun a j => ?_
          cases a with
          | false => exact .refl _
          | true =>
              refine .andThen (.refl _) fun a j => ?_
              cases a with
              | false => exact .refl _
              | true =>
                  refine .andThen (ih hn hd element j) fun a j => ?_
                  cases a with
                  | false => exact .refl _
                  | true => exact ih hn hd (.trail delimiter element) j
      | memo id body => exact .rewind (ih hn hd body i)
      | nested body =>
          simp only [read]
          by_cases hdeep : G.maxDepth ≤ d
          · -- The limit cuts the deeper reading short, so both must start at one depth.
            rw [if_pos hdeep]
            rintro - (heq | hnil)
            · rw [if_pos (heq ▸ hdeep)]
            · exact absurd hnil (List.cons_ne_nil _ _)
          · rw [if_neg hdeep, if_neg (by omega)]
            intro hend hhits
            exact ih hn (Nat.succ_le_succ hd) body i hend (hhits.imp_left (congrArg (· + 1)))
      | ref name => exact ih hn hd (G.grammar name) i
      | ahead k kind => exact .refl _
      | stack step => exact .refl _

/-- Fuel does not matter to readings that end. -/
theorem read_eq_of_ends {n₁ n₂ d : Nat} {rule : Rule ν} {i : Nat}
    (hend₁ : (G.read n₁ d rule i).result ≠ .error .exhausted)
    (hend₂ : (G.read n₂ d rule i).result ≠ .error .exhausted) :
    G.read n₂ d rule i = G.read n₁ d rule i := by
  have h₁ := G.read_carriesTo (Nat.le_max_left n₁ n₂) (Nat.le_refl d) rule i hend₁ (.inl rfl)
  have h₂ := G.read_carriesTo (Nat.le_max_right n₁ n₂) (Nat.le_refl d) rule i hend₂ (.inl rfl)
  rw [← h₁, ← h₂]

/-- Two readings of one rule from one place that both end are the same, if the depth limit
    plays no part in the one and the other starts no deeper or is not touched by it either. -/
theorem read_eq_read {n₁ n₂ d₁ d₂ : Nat} {rule : Rule ν} {i : Nat}
    (hend₁ : (G.read n₁ d₁ rule i).result ≠ .error .exhausted)
    (hend₂ : (G.read n₂ d₂ rule i).result ≠ .error .exhausted)
    (hfree : (G.read n₁ d₁ rule i).hits = [])
    (hdepth : d₂ ≤ d₁ ∨ (G.read n₂ d₂ rule i).hits = []) :
    G.read n₂ d₂ rule i = G.read n₁ d₁ rule i := by
  have hn₁ : n₁ ≤ max n₁ n₂ := Nat.le_max_left n₁ n₂
  have hn₂ : n₂ ≤ max n₁ n₂ := Nat.le_max_right n₁ n₂
  by_cases hd : d₂ ≤ d₁
  · have h₁ := G.read_carriesTo hn₁ hd rule i hend₁ (.inr hfree)
    have h₂ := G.read_carriesTo hn₂ (Nat.le_refl d₂) rule i hend₂ (.inl rfl)
    rw [← h₁, ← h₂]
  · have hfree₂ := hdepth.resolve_left hd
    have h₁ := G.read_carriesTo hn₁ (Nat.le_refl d₁) rule i hend₁ (.inl rfl)
    have h₂ := G.read_carriesTo hn₂ (Nat.le_of_not_le hd) rule i hend₂ (.inr hfree₂)
    rw [← h₁, ← h₂]

end Ground
end Packrat
