/-
  Packrat.Proofs.Brackets

  Rules that nest where they open brackets.

  `Bracketed` is a type system for rules: a rule that runs a level deeper opens
  a bracket there, and every bracket that a rule opens it closes.  While such a
  rule is read, the depth is the number of brackets opened since the reading
  started and not closed yet, and that number never falls below zero
  (`Stands`).  So the depth of a memoized rule is settled by its place and by
  the place where the recognition started, and a recognition that starts
  further on is no deeper there.  This makes a discipline for kept outcomes in
  which the depth limit may be hit (`Discipline.ofBrackets`).
-/

import Packrat.Proofs.Discipline

namespace Packrat

/-- How many more brackets are opened than closed before token `i`. -/
def balance (t : Nat → Token) : Nat → Int
  | 0 => 0
  | i + 1 => match (t i).kind with
    | .lbracket => balance t i + 1
    | .rbracket => balance t i - 1
    | _ => balance t i

theorem balance_succ_of_lbracket {t : Nat → Token} {i : Nat} (h : (t i).kind = .lbracket) :
    balance t (i + 1) = balance t i + 1 := by
  simp only [balance, h]

theorem balance_succ_of_rbracket {t : Nat → Token} {i : Nat} (h : (t i).kind = .rbracket) :
    balance t (i + 1) = balance t i - 1 := by
  simp only [balance, h]

theorem balance_succ_of_ne {t : Nat → Token} {i : Nat} (h : (t i).kind ≠ .lbracket)
    (h' : (t i).kind ≠ .rbracket) : balance t (i + 1) = balance t i := by
  simp only [balance]

/-- Where a rule stands between the level it runs at and the bracket of that level. -/
inductive Site where
  /-- At the level at which it was called. -/
  | level
  /-- A level deeper, in front of the bracket or behind it. -/
  | around
  /-- A level deeper and inside the bracket. -/
  | inside
deriving DecidableEq, Repr

namespace Site

/-- How far the depth is ahead of the brackets that are open. -/
def lag : Site → Int
  | level => 0
  | around => 1
  | inside => 0

/-- How deep it is at least. -/
def least : Site → Nat
  | level => 0
  | around => 1
  | inside => 1

theorem lag_le_least (site : Site) : site.lag ≤ site.least := by
  cases site <;> decide

theorem lag_of_ne {site : Site} (h : site ≠ .around) : site.lag = 0 := by
  cases site with
  | level => rfl
  | around => exact absurd rfl h
  | inside => rfl

end Site

variable {ν : Type}

/-- The rule leads from the one site to the other if it matches, and every rule that it runs a
    level deeper goes around a bracket. -/
inductive Bracketed : Rule ν → Site → Site → Prop where
  | token {kind : Kind} {site : Site} (h : kind ≠ .lbracket) (h' : kind ≠ .rbracket) :
      Bracketed (.token kind) site site
  | opening : Bracketed (.token .lbracket) .around .inside
  | closing : Bracketed (.token .rbracket) .inside .around
  | const {answer : Bool} {site : Site} : Bracketed (.const answer) site site
  | both {first second : Rule ν} {site mid site' : Site} (h : Bracketed first site mid)
      (h' : Bracketed second mid site') : Bracketed (.both first second) site site'
  | either {first second : Rule ν} {site site' : Site} (h : Bracketed first site site')
      (h' : Bracketed second site site') :
      Bracketed (.either (.attempt first) second) site site'
  | attempt {rule : Rule ν} {site site' : Site} (h : Bracketed rule site site') :
      Bracketed (.attempt rule) site site'
  | trail {delimiter : Kind} {element : Rule ν} {site : Site} (h : delimiter ≠ .lbracket)
      (h' : delimiter ≠ .rbracket) (h'' : Bracketed element site site) :
      Bracketed (.trail delimiter element) site site
  | memo {id : RuleId} {body : Rule ν} {site : Site} (hsite : site ≠ .around)
      (h : Bracketed body .level .level) : Bracketed (.memo id body) site site
  | nested {body : Rule ν} {site : Site} (hsite : site ≠ .around)
      (h : Bracketed body .around .around) : Bracketed (.nested body) site site
  | ref {name : ν} {site : Site} (hsite : site ≠ .around) : Bracketed (.ref name) site site

/-- The depth at token `i` is that of the brackets opened since `start`, as the site tells, and
    none was closed that had been opened before. -/
structure Stands (t : Nat → Token) (start : Nat) (site : Site) (d i : Nat) : Prop where
  le : start ≤ i
  above : ∀ x, start ≤ x → x ≤ i → balance t start ≤ balance t x
  depth : (d : Int) = balance t i - balance t start + site.lag
  least : site.least ≤ d

namespace Stands

variable {t : Nat → Token} {start d i : Nat} {site site' : Site}

/-- A reading that starts at depth zero stands at its own level. -/
theorem start_level (t : Nat → Token) (start : Nat) : Stands t start .level 0 start where
  le := Nat.le_refl start
  above := by
    intro x hx hx'
    obtain rfl := Nat.le_antisymm hx hx'
    exact Int.le_refl _
  depth := by simp [Site.lag]
  least := Nat.le_refl 0

/-- One token on, at a site that makes up for its bracket. -/
theorem advance (h : Stands t start site d i)
    (hstep : balance t (i + 1) - balance t i = site.lag - site'.lag)
    (hleast : site'.least ≤ d) : Stands t start site' d (i + 1) := by
  have hdepth := h.depth
  have hlag := site'.lag_le_least
  refine ⟨Nat.le_succ_of_le h.le, ?_, by omega, hleast⟩
  intro x hx hx'
  rcases Nat.lt_or_eq_of_le hx' with hlt | rfl
  · exact h.above x hx (Nat.le_of_lt_succ hlt)
  · omega

theorem token (h : Stands t start site d i) (hl : (t i).kind ≠ .lbracket)
    (hr : (t i).kind ≠ .rbracket) : Stands t start site d (i + 1) := by
  refine h.advance ?_ h.least
  rw [balance_succ_of_ne hl hr]
  omega

theorem opening (h : Stands t start .around d i) (hkind : (t i).kind = .lbracket) :
    Stands t start .inside d (i + 1) := by
  refine h.advance ?_ h.least
  rw [balance_succ_of_lbracket hkind]
  simp only [Site.lag]
  omega

theorem closing (h : Stands t start .inside d i) (hkind : (t i).kind = .rbracket) :
    Stands t start .around d (i + 1) := by
  refine h.advance ?_ h.least
  rw [balance_succ_of_rbracket hkind]
  simp only [Site.lag]
  omega

/-- A rule that is called stands at its own level. -/
theorem called (h : Stands t start site d i) (hsite : site ≠ .around) :
    Stands t start .level d i where
  le := h.le
  above := h.above
  depth := by
    rw [h.depth, Site.lag_of_ne hsite]
    rfl
  least := Nat.zero_le d

/-- A rule that was called is back at the site of the call. -/
theorem returned (h : Stands t start .level d i) (hsite : site ≠ .around)
    (hleast : site.least ≤ d) : Stands t start site d i where
  le := h.le
  above := h.above
  depth := by
    rw [h.depth, Site.lag_of_ne hsite]
    rfl
  least := hleast

theorem deeper (h : Stands t start site d i) (hsite : site ≠ .around) :
    Stands t start .around (d + 1) i where
  le := h.le
  above := h.above
  depth := by
    have hdepth := h.depth
    rw [Site.lag_of_ne hsite] at hdepth
    simp only [Site.lag]
    omega
  least := Nat.succ_le_succ (Nat.zero_le d)

theorem shallower (h : Stands t start .around (d + 1) i) : Stands t start .level d i where
  le := h.le
  above := h.above
  depth := by
    have hdepth := h.depth
    simp only [Site.lag] at hdepth ⊢
    omega
  least := Nat.zero_le d

end Stands

-- ============================================================================
-- Readings of bracketed rules
-- ============================================================================

/-- If the reading answers yes, the place where it stopped is as told. -/
def Reading.Ensures (P : Nat → Prop) (r : Reading Bool) : Prop := r.result = .ok true → P r.stop

namespace Reading.Ensures

variable {α : Type} {P : Nat → Prop} {i : Nat}

theorem andThen {r : Reading α} {f : α → Pass Bool}
    (hf : ∀ a, r.result = .ok a → (f a r.stop).Ensures P) : (r.andThen f).Ensures P := by
  intro hyes
  cases hresult : r.result with
  | ok a =>
      rw [andThen_of_ok hresult] at hyes ⊢
      exact hf a hresult hyes
  | error fault =>
      rw [andThen_of_error hresult] at hyes
      cases hyes

theorem no : ((pure false : Pass Bool) i).Ensures P := fun hyes => nomatch hyes

theorem rewind {p : Pass Bool} (h : (p i).Ensures P) : (p.rewind i).Ensures P := by
  intro hyes
  cases hresult : (p i).result with
  | error fault => simp [Pass.rewind, hresult] at hyes
  | ok matched =>
      cases matched with
      | false => simp [Pass.rewind, hresult] at hyes
      | true =>
          have hstay : p.rewind i = p i := by simp [Pass.rewind, hresult]
          rw [hstay]
          exact h hresult

end Reading.Ensures

namespace Ground

variable {G : Ground ν} {start n d i : Nat} {rule : Rule ν} {site site' : Site}

theorem ensures_takeKind {P : Nat → Prop} {kind : Kind}
    (h : (G.tokens i).kind = kind → P (i + 1)) : (G.takeKind kind i).Ensures P := by
  by_cases hkind : (G.tokens i).kind = kind
  · rw [G.takeKind_of_eq hkind]
    exact fun _ => h hkind
  · rw [G.takeKind_of_ne hkind]
    exact fun hyes => nomatch hyes

theorem stop_atDelimiter (delimiter : Kind) (i : Nat) : (G.atDelimiter delimiter i).stop = i := by
  by_cases h : (G.tokens i).kind = delimiter
  · rw [G.atDelimiter_of_eq h]
  · rw [G.atDelimiter_of_ne h]

/-- An attempt that failed stopped where it started. -/
theorem stop_read_attempt (h : (G.read n d (.attempt rule) i).result = .ok false) :
    (G.read n d (.attempt rule) i).stop = i := by
  cases n with
  | zero => cases h
  | succ n =>
      simp only [read, Pass.rewind] at h ⊢
      split at h
      · next hresult => rw [hresult]
      · next hresult => exact absurd h hresult

/-- A bracketed rule that matches leads from where it stands to where it says. -/
theorem stands_of_read (hG : ∀ name, Bracketed (G.grammar name) .level .level)
    (hrule : Bracketed rule site site') (h : Stands G.tokens start site d i) :
    (G.read n d rule i).Ensures (Stands G.tokens start site' d) := by
  induction n generalizing rule d i site site' with
  | zero => exact fun hyes => nomatch hyes
  | succ n ih =>
      cases hrule with
      | token hl hr => exact ensures_takeKind fun hkind => h.token (hkind ▸ hl) (hkind ▸ hr)
      | opening => exact ensures_takeKind h.opening
      | closing => exact ensures_takeKind h.closing
      | const => exact fun _ => h
      | both hfirst hsecond =>
          refine .andThen fun a hresult => ?_
          cases a with
          | true => exact ih hsecond (ih hfirst h hresult)
          | false => exact .no
      | either hfirst hsecond =>
          refine .andThen fun a hresult => ?_
          cases a with
          | true => exact fun _ => ih (.attempt hfirst) h hresult
          | false =>
              rw [stop_read_attempt hresult]
              exact ih hsecond h
      | attempt hrule => exact .rewind (ih hrule h)
      | @trail delimiter element _ hl hr helement =>
          refine .andThen fun a hresult => ?_
          rw [stop_atDelimiter]
          cases a with
          | false => exact fun _ => stop_atDelimiter (G := G) delimiter i ▸ h
          | true =>
              have hdelimiter : (G.takeKind delimiter i).Ensures (Stands G.tokens start site d) :=
                ensures_takeKind fun hkind => h.token (hkind ▸ hl) (hkind ▸ hr)
              refine .andThen fun a hresult => ?_
              cases a with
              | false => exact .no
              | true =>
                  have hnext := hdelimiter hresult
                  refine .andThen fun a hresult => ?_
                  cases a with
                  | false => exact .no
                  | true => exact ih (.trail hl hr helement) (ih helement hnext hresult)
      | memo hsite hbody =>
          exact .rewind fun hyes => (ih hbody (h.called hsite) hyes).returned hsite h.least
      | nested hsite hbody =>
          simp only [read]
          split
          · exact .andThen fun _ _ => .no
          · exact fun hyes => (ih hbody (h.deeper hsite) hyes).shallower.returned hsite h.least
      | ref hsite => exact fun hyes => (ih (hG _) (h.called hsite) hyes).returned hsite h.least

end Ground

-- ============================================================================
-- Depths of calls
-- ============================================================================

variable {t : Nat → Token} {g : Grammar ν} {maxDepth start d i d' j : Nat}

/-- The rule is called where a bracketed rule stands, or it is a single token. -/
def CalledAt (t : Nat → Token) (start : Nat) (rule : Rule ν) (d i : Nat) : Prop :=
  (∃ kind, rule = .token kind) ∨
    ∃ site site', Bracketed rule site site' ∧ Stands t start site d i

/-- What a run of a bracketed rule leads to when it matches. -/
theorem Stands.of_leads {rule : Rule ν} {site site' : Site}
    (hg : ∀ name, Bracketed (g name) .level .level) (hrule : Bracketed rule site site')
    (h : Stands t start site d i) (hleads : Leads t g maxDepth False rule d i true d' j) :
    Stands t start site' d' j := by
  obtain hfalse | ⟨rfl, horizon, n, hresult, rfl⟩ := hleads
  · exact hfalse.elim
  · have hG : ∀ name, Bracketed ((Ground.mk t g maxDepth horizon).grammar name) .level .level := hg
    exact Ground.stands_of_read hG hrule h hresult

theorem CalledAt.invokes {rule rule' : Rule ν} (hg : ∀ name, Bracketed (g name) .level .level)
    (h : CalledAt t start rule d i) (hinvokes : Invokes t g maxDepth False rule d i rule' d' j) :
    CalledAt t start rule' d' j := by
  obtain ⟨kind, rfl⟩ | ⟨site, site', hrule, hstands⟩ := h
  · cases hinvokes
  · refine .inr ?_
    cases hinvokes with
    | first => cases hrule with
      | both hfirst => exact ⟨_, _, hfirst, hstands⟩
    | second hleads => cases hrule with
      | both hfirst hsecond => exact ⟨_, _, hsecond, hstands.of_leads hg hfirst hleads⟩
    | left => cases hrule with
      | either hfirst => exact ⟨_, _, .attempt hfirst, hstands⟩
    | right hleads => cases hrule with
      | either hfirst hsecond =>
          -- The alternative that failed was an attempt, so the other starts where it started.
          obtain hfalse | ⟨rfl, horizon, n, hresult, rfl⟩ := hleads
          · exact hfalse.elim
          · rw [Ground.stop_read_attempt hresult]
            exact ⟨_, _, hsecond, hstands⟩
    | negate => cases hrule
    | attempt => cases hrule with
      | attempt hrule => exact ⟨_, _, hrule, hstands⟩
    | element hleads => cases hrule with
      | trail hl hr helement =>
          exact ⟨_, _, helement, hstands.of_leads hg (.token hl hr) hleads⟩
    | again hleads hleads' => cases hrule with
      | trail hl hr helement =>
          have hnext := hstands.of_leads hg (.token hl hr) hleads
          exact ⟨_, _, .trail hl hr helement, hnext.of_leads hg helement hleads'⟩
    | memo => cases hrule with
      | memo hsite hbody => exact ⟨_, _, hbody, hstands.called hsite⟩
    | nested => cases hrule with
      | nested hsite hbody => exact ⟨_, _, hbody, hstands.deeper hsite⟩
    | ref => cases hrule with
      | ref hsite => exact ⟨_, _, hg _, hstands.called hsite⟩

/-- A memoized rule runs as deep as brackets were opened since the start. -/
theorem CalledAt.depth_eq {id : RuleId} {body : Rule ν} (h : CalledAt t start (.memo id body) d i) :
    (d : Int) = balance t i - balance t start ∧ start ≤ i ∧
      ∀ x, start ≤ x → x ≤ i → balance t start ≤ balance t x := by
  obtain ⟨kind, heq⟩ | ⟨site, site', hrule, hstands⟩ := h
  · cases heq
  · cases hrule with
    | memo hsite hbody =>
        have hdepth := (hstands.called hsite).depth
        simp only [Site.lag, Int.add_zero] at hdepth
        exact ⟨hdepth, hstands.le, hstands.above⟩

/-- Counted from any place since `start`, at most `level` brackets are open at token `i`. -/
def KeptFrom (t : Nat → Token) (start level i : Nat) : Prop :=
  ∀ x, start ≤ x → x ≤ i → balance t i ≤ balance t x + level

/-- What was kept stays good when recognitions start further on. -/
theorem KeptFrom.mono {start' level : Nat} (h : KeptFrom t start level i) (hle : start ≤ start') :
    KeptFrom t start' level i :=
  fun x hx hx' => h x (Nat.le_trans hle hx) hx'

/-- In a grammar of bracketed rules an outcome never meets a deeper call than it came from,
    in this recognition or in those that start further on. -/
def Discipline.ofBrackets (bodyOf : RuleId → Rule ν) (hplain : ∀ name, (g name).Plain bodyOf)
    (hg : ∀ name, Bracketed (g name) .level .level) (start : Nat) :
    Discipline t g maxDepth where
  limitless := False
  bodyOf := bodyOf
  Calls rule d i := rule.Plain bodyOf ∧ CalledAt t start rule d i
  Keeps := KeptFrom t start
  stackFree_grammar := stackFree_of_plain hplain
  stackFree h := h.1.stackFree
  body_eq h := h.1.oneBody.1
  keeps := by
    rintro id body d i ⟨-, hcalled⟩ x hx hx'
    obtain ⟨hdepth, -, habove⟩ := hcalled.depth_eq
    have := habove x hx hx'
    omega
  fits := by
    rintro id body d i level ⟨-, hcalled⟩ hkept
    obtain ⟨hdepth, hle, -⟩ := hcalled.depth_eq
    have := hkept start (Nat.le_refl start) hle
    exact .inr (by omega)
  closed h hinvokes := ⟨h.1.invokes hplain hinvokes, h.2.invokes hg hinvokes⟩

theorem ListGrammar.bracketed_thenEnd (name : Nonterminal) :
    Bracketed (ListGrammar.thenEnd id name) .level .level :=
  .both (.ref (by decide)) (.token (by decide) (by decide))

/-- The rules of the list language open brackets where they nest. -/
theorem ListGrammar.bracketed (name : Nonterminal) :
    Bracketed (ListGrammar.grammar name) .level .level := by
  have hlevel : Site.level ≠ .around := by decide
  have hinside : Site.inside ≠ .around := by decide
  have href : ∀ {name : Nonterminal}, Bracketed (.ref name) .level .level := .ref hlevel
  have htoken : ∀ {kind : Kind}, kind ≠ .lbracket → kind ≠ .rbracket →
      Bracketed (ν := Nonterminal) (.token kind) .level .level := .token
  cases name with
  | stat =>
      exact .memo hlevel
        (.either (bracketed_thenEnd .list) (.either (bracketed_thenEnd .assign) .const))
  | assign =>
      exact .memo hlevel
        (.attempt (.both href (.both (htoken (by decide) (by decide)) (.both href .const))))
  | list =>
      exact .memo hlevel (.nested hlevel (.both .opening (.both (.ref hinside) .closing)))
  | elements =>
      exact .memo hlevel (.attempt (.both href (.trail (by decide) (by decide) href)))
  | element =>
      have hname : Bracketed ListGrammar.nameElement .level .level :=
        .both (htoken (by decide) (by decide))
          (.either (.both (htoken (by decide) (by decide)) (htoken (by decide) (by decide))) .const)
      exact .either hname (.either href .const)

theorem Entry.bracketed_rule (entry : Entry) : Bracketed entry.rule .level .level := by
  cases entry with
  | stat => exact .ref (by decide)
  | list => exact ListGrammar.bracketed_thenEnd .list
  | assign => exact ListGrammar.bracketed_thenEnd .assign

end Packrat
