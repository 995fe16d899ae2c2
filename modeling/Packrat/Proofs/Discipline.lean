/-
  Packrat.Proofs.Discipline

  When an outcome that was kept may stand in for a run of its rule.

  A `Discipline` tells which rules may come to run at which depth and place,
  one step of the run at a time (`Invokes`), and from which depth on an outcome
  at a place is good.  It asks for two things: a name has one body, and a rule
  that comes to run where an outcome is kept starts no deeper than the run that
  left the outcome.  Where the depth limit plays no part the second one is
  waived (`limitless`).
-/

import Packrat.Proofs.PlainRun

namespace Packrat

variable {ν : Type}

/-- A run of the rule from `i` at depth `d` may answer so and leave the engine at `j` and
    depth `d'`. -/
def Leads (t : Nat → Token) (g : Grammar ν) (maxDepth : Nat) (limitless : Prop) (rule : Rule ν)
    (d i : Nat) (answer : Bool) (d' j : Nat) : Prop :=
  limitless ∨ d' = d ∧ ∃ horizon n : Nat,
    ((Ground.mk t g maxDepth horizon).read n d rule i).result = .ok answer ∧
    ((Ground.mk t g maxDepth horizon).read n d rule i).stop = j

/-- Running the one rule may come to run the other next, each at its depth and place. -/
inductive Invokes (t : Nat → Token) (g : Grammar ν) (maxDepth : Nat) (limitless : Prop) :
    Rule ν → Nat → Nat → Rule ν → Nat → Nat → Prop where
  | first {a b : Rule ν} {d i : Nat} : Invokes t g maxDepth limitless (.both a b) d i a d i
  | second {a b : Rule ν} {d i d' j : Nat} (h : Leads t g maxDepth limitless a d i true d' j) :
      Invokes t g maxDepth limitless (.both a b) d i b d' j
  | left {a b : Rule ν} {d i : Nat} : Invokes t g maxDepth limitless (.either a b) d i a d i
  | right {a b : Rule ν} {d i d' j : Nat} (h : Leads t g maxDepth limitless a d i false d' j) :
      Invokes t g maxDepth limitless (.either a b) d i b d' j
  | negate {rule : Rule ν} {d i : Nat} :
      Invokes t g maxDepth limitless (.negate rule) d i rule d i
  | attempt {rule : Rule ν} {d i : Nat} :
      Invokes t g maxDepth limitless (.attempt rule) d i rule d i
  | element {delimiter : Kind} {element : Rule ν} {d i d' j : Nat}
      (h : Leads t g maxDepth limitless (.token delimiter) d i true d' j) :
      Invokes t g maxDepth limitless (.trail delimiter element) d i element d' j
  | again {delimiter : Kind} {element : Rule ν} {d i d' j d'' k : Nat}
      (h : Leads t g maxDepth limitless (.token delimiter) d i true d' j)
      (h' : Leads t g maxDepth limitless element d' j true d'' k) :
      Invokes t g maxDepth limitless (.trail delimiter element) d i
        (.trail delimiter element) d'' k
  | memo {id : RuleId} {body : Rule ν} {d i : Nat} :
      Invokes t g maxDepth limitless (.memo id body) d i body d i
  | nested {body : Rule ν} {d i : Nat} (h : d < maxDepth) :
      Invokes t g maxDepth limitless (.nested body) d i body (d + 1) i
  | ref {name : ν} {d i : Nat} : Invokes t g maxDepth limitless (.ref name) d i (g name) d i

/-- What a rule comes to run is as plain as the rule. -/
theorem Rule.Plain.invokes {t : Nat → Token} {g : Grammar ν} {maxDepth : Nat} {limitless : Prop}
    {bodyOf : RuleId → Rule ν} {rule rule' : Rule ν} {d i d' j : Nat}
    (hg : ∀ name, (g name).Plain bodyOf) (h : rule.Plain bodyOf)
    (hinvokes : Invokes t g maxDepth limitless rule d i rule' d' j) : rule'.Plain bodyOf := by
  obtain ⟨hstack, hbody⟩ := h
  cases hinvokes with
  | first => exact ⟨hstack.1, hbody.1⟩
  | second => exact ⟨hstack.2, hbody.2⟩
  | left => exact ⟨hstack.1, hbody.1⟩
  | right => exact ⟨hstack.2, hbody.2⟩
  | negate => exact ⟨hstack, hbody⟩
  | attempt => exact ⟨hstack, hbody⟩
  | element => exact ⟨hstack, hbody⟩
  | again => exact ⟨hstack, hbody⟩
  | memo => exact ⟨hstack, hbody.2⟩
  | nested => exact ⟨hstack, hbody⟩
  | ref => exact hg _

theorem stackFree_of_plain {g : Grammar ν} {bodyOf : RuleId → Rule ν}
    (hg : ∀ name, (g name).Plain bodyOf) (name : ν) : (g name).StackFree :=
  (hg name).stackFree

/-- What makes outcomes that were kept on a stream stand for runs of their rules. -/
structure Discipline (t : Nat → Token) (g : Grammar ν) (maxDepth : Nat) where
  /-- Whether only runs count that the depth limit plays no part in. -/
  limitless : Prop
  /-- The body of each memoized rule. -/
  bodyOf : RuleId → Rule ν
  /-- The rule may come to run at that depth and place. -/
  Calls : Rule ν → Nat → Nat → Prop
  /-- An outcome from that depth is good at that place from now on. -/
  Keeps : Nat → Nat → Prop
  stackFree_grammar : ∀ name, (g name).StackFree
  stackFree : ∀ {rule d i}, Calls rule d i → rule.StackFree
  body_eq : ∀ {id body d i}, Calls (.memo id body) d i → body = bodyOf id
  keeps : ∀ {id body d i}, Calls (.memo id body) d i → Keeps d i
  fits : ∀ {id body d i level}, Calls (.memo id body) d i → Keeps level i →
    limitless ∨ d ≤ level
  closed : ∀ {rule d i rule' d' j}, Calls rule d i →
    Invokes t g maxDepth limitless rule d i rule' d' j → Calls rule' d' j

/-- The outcome that stands for a reading, in a buffer that starts at token `base`. -/
def Reading.outcome (r : Reading Bool) (t : Nat → Token) (base : Nat) (matched : Bool) : Outcome :=
  let point := (Mismatch.noted t r.misses).map Mismatch.point
  if matched then .parsed (r.stop - base) point else .failed point

namespace Discipline

variable {t : Nat → Token} {g : Grammar ν} {maxDepth : Nat}

/-- The ground that an engine reads on whose buffer starts at token `base`. -/
def ground (_ : Discipline t g maxDepth) (base : Nat) : Ground ν :=
  ⟨t, g, maxDepth, base + Machine.bufferLimit⟩

/-- The outcome is that of a reading of the rule which the depth limit did not touch, which
    looked at buffered tokens only, and whose depth is good at that place. -/
def Trusted (S : Discipline t g maxDepth) (base pulled : Nat) (id : RuleId) (pos : Nat)
    (outcome : Outcome) : Prop :=
  ∃ (n level : Nat) (matched : Bool),
    let r := (S.ground base).read n level (.memo id (S.bodyOf id)) (base + pos)
    r.result = .ok matched ∧ r.hits = [] ∧ r.seen ≤ pulled ∧ S.Keeps level (base + pos) ∧
      outcome = r.outcome t base matched

/-- Outcomes stay good when more tokens are buffered. -/
theorem Trusted.mono {S : Discipline t g maxDepth} {base pulled pulled' pos : Nat} {id : RuleId}
    {outcome : Outcome} (h : S.Trusted base pulled id pos outcome) (hle : pulled ≤ pulled') :
    S.Trusted base pulled' id pos outcome := by
  obtain ⟨n, level, matched, hresult, hhits, hseen, hkeeps, houtcome⟩ := h
  exact ⟨n, level, matched, hresult, hhits, Nat.le_trans hseen hle, hkeeps, houtcome⟩

end Discipline
end Packrat
