/-
  Packrat.Proofs.ListRow

  Lists one after the other, whatever follows them.

  A word that derives from `list` is read over to its closing bracket, and the
  reading looks at nothing behind that (`passes_list`).  So a recognition of a
  list that starts with an empty buffer takes all that it pulls: it empties the
  buffer and the memo, and the next list starts like the first one
  (`Cleared.recognize_list`).  Sources may go on in any way and need not end.

  The readings are shown by induction on the derivation; the kind of the token
  behind an element or behind the elements settles that nothing was left out.
-/

import Packrat.Proofs.Demand

namespace Packrat

-- ============================================================================
-- Words in a stream
-- ============================================================================

/-- The tokens from number `i` on start with the word. -/
def Spells (t : Nat → Token) : Nat → List Kind → Prop
  | _, [] => True
  | i, kind :: w => (t i).kind = kind ∧ Spells t (i + 1) w

theorem spells_append {t : Nat → Token} {i : Nat} {u v : List Kind} :
    Spells t i (u ++ v) ↔ Spells t i u ∧ Spells t (i + u.length) v := by
  induction u generalizing i with
  | nil => simp [Spells]
  | cons kind u ih =>
      have hindex : i + 1 + u.length = i + (kind :: u).length := by
        simp only [List.length_cons]
        omega
      simp only [List.cons_append, Spells, ih, and_assoc, hindex]

theorem spells_of_stretch {t : Nat → Token} {i : Nat} {tokens : List Token}
    (h : stretch t i (i + tokens.length) = tokens) : Spells t i (tokens.map Token.kind) := by
  induction tokens generalizing i with
  | nil => trivial
  | cons token tokens ih =>
      have hindex : i + (token :: tokens).length = i + 1 + tokens.length := by
        simp only [List.length_cons]
        omega
      rw [hindex, stretch_cons t (by omega), List.cons.injEq] at h
      exact ⟨congrArg Token.kind h.1, ih h.2⟩

/-- With `depth` brackets open, no prefix of the word opens more than `limit` in all. -/
def NestsFrom (limit depth : Nat) (w : List Kind) : Prop :=
  ∀ u v, w = u ++ v → depth + u.count .lbracket ≤ u.count .rbracket + limit

theorem nestsFrom_zero {limit : Nat} {w : List Kind} (h : NestsWithin limit w) :
    NestsFrom limit 0 w := by
  intro u v hsplit
  rw [Nat.zero_add]
  exact h u v hsplit

namespace NestsFrom

variable {limit depth : Nat} {u v w : List Kind}

theorem left (h : NestsFrom limit depth (u ++ v)) : NestsFrom limit depth u := by
  intro x y hsplit
  exact h x (y ++ v) (by rw [hsplit, List.append_assoc])

/-- What follows a word that closes all brackets that it opens nests as deep. -/
theorem right (h : NestsFrom limit depth (u ++ v))
    (hlevel : u.count .lbracket = u.count .rbracket) : NestsFrom limit depth v := by
  intro x y hsplit
  have hnests := h (u ++ x) y (by rw [hsplit, List.append_assoc])
  simp only [List.count_append] at hnests
  omega

theorem bracket (h : NestsFrom limit depth (.lbracket :: w)) :
    depth < limit ∧ NestsFrom limit (depth + 1) w := by
  refine ⟨?_, fun x y hsplit => ?_⟩
  · have hopen := h [.lbracket] w rfl
    simp at hopen
    omega
  · have hnests := h (.lbracket :: x) y (by rw [hsplit]; rfl)
    simp only [List.count_cons_self, ne_eq, reduceCtorEq, not_false_eq_true,
      List.count_cons_of_ne] at hnests
    omega

end NestsFrom

/-- An element closes all brackets that it opens. -/
theorem Derives.count_element {w : List Kind} (h : Derives .element w) :
    w.count .lbracket = w.count .rbracket := by
  obtain ⟨spot, -, hrun⟩ := Outlook.takes_of_derives h 0 .list
  have hlevel := Outlook.level_run hrun
  simp only [Outlook.level_inside] at hlevel
  omega

-- ============================================================================
-- Readings that pass
-- ============================================================================

/-- The reading matched and stopped at `stop`; the depth limit did not touch it, and it looked at
    no token from number `far` on. -/
structure Reading.Passes (r : Reading Bool) (stop far : Nat) : Prop where
  result : r.result = .ok true
  stop_eq : r.stop = stop
  seen_le : r.seen ≤ far
  hits : r.hits = []

namespace Reading.Passes

variable {r : Reading Bool} {i stop stop' far far' : Nat}

/-- A pass that goes on after a yes. -/
theorem andThen {p q : Pass Bool} {bound : Nat} (h : r.Passes stop far)
    (hp : (p stop).Passes stop' far') (hfar : far ≤ bound) (hfar' : far' ≤ bound) :
    (r.andThen fun a => if a then p else q).Passes stop' bound := by
  have hstop := h.stop_eq
  rw [Reading.andThen_of_ok h.result, if_pos rfl, hstop]
  refine ⟨hp.result, hp.stop_eq, ?_, by simp [append, h.hits, hp.hits]⟩
  exact Nat.max_le.2 ⟨Nat.le_trans h.seen_le hfar, Nat.le_trans hp.seen_le hfar'⟩

theorem rewind {p : Pass Bool} (h : (p i).Passes stop far) : (p.rewind i).Passes stop far := by
  have hsame : p.rewind i = p i := by simp [Pass.rewind, h.result]
  rw [hsame]
  exact h

theorem pure (i : Nat) : ((Pure.pure true : Pass Bool) i).Passes i 0 :=
  ⟨rfl, rfl, Nat.le_refl 0, rfl⟩

end Reading.Passes

namespace Ground

variable {G : Ground Nonterminal} {n d i : Nat} {w : List Kind}

theorem passes_takeKind {kind : Kind} (h : (G.tokens i).kind = kind) :
    (G.takeKind kind i).Passes (i + 1) (i + 1) := by
  rw [G.takeKind_of_eq h]
  exact ⟨rfl, rfl, Nat.le_refl _, rfl⟩

/-- A list is read over if its elements are. -/
theorem passes_list_of_elements (hG : G.grammar = ListGrammar.grammar) {stop : Nat}
    (hdepth : d < G.maxDepth) (hopen : (G.tokens i).kind = .lbracket)
    (hclose : (G.tokens stop).kind = .rbracket)
    (helements : (G.read (n + 1) (d + 1) (.ref .elements) (i + 1)).Passes stop (stop + 1))
    (hle : i ≤ stop) :
    (G.read (n + 6) d (.ref .list) i).Passes (stop + 1) (stop + 1) := by
  rw [read_list hG, if_neg (Nat.not_le.2 hdepth)]
  refine Reading.Passes.rewind ?_
  rw [bracketed, Pass.bind_apply]
  refine (passes_takeKind hopen).andThen ?_ (Nat.succ_le_succ hle) (Nat.le_refl _)
  rw [Pass.bind_apply]
  exact helements.andThen (passes_takeKind hclose) (Nat.le_refl _) (Nat.le_refl _)

/-- An element that starts with a name is read over as its name is. -/
theorem passes_element_of_attempt (hG : G.grammar = ListGrammar.grammar) {stop far : Nat}
    (h : (G.read (n + 6) d (.attempt ListGrammar.nameElement) i).Passes stop far) :
    (G.read (n + 8) d (.ref .element) i).Passes stop far := by
  rw [read_element hG, Pass.bind_apply]
  exact h.andThen (.pure stop) (Nat.le_refl far) (Nat.zero_le far)

/-- A name is read over where no value follows, with a look at what follows. -/
theorem passes_element_of_name (hG : G.grammar = ListGrammar.grammar)
    (hname : (G.tokens i).kind = .name) (hnext : (G.tokens (i + 1)).kind ≠ .equals) :
    (G.read (n + 8) d (.ref .element) i).Passes (i + 1) (i + 2) := by
  apply passes_element_of_attempt hG
  have hsame : G.read (n + 6) d (.attempt ListGrammar.nameElement) i
      = ⟨.ok true, i + 1, i + 2, [(i + 1, .equals)], []⟩ := by
    simp [read, ListGrammar.nameElement, Rule.optional, Pass.rewind, Pass.bind_apply,
      Reading.andThen, Reading.append, Pass.pure_apply, takeKind_of_eq G hname,
      takeKind_of_ne G hnext]
  rw [hsame]
  exact ⟨rfl, rfl, Nat.le_refl _, rfl⟩

theorem passes_element_of_value (hG : G.grammar = ListGrammar.grammar)
    (hname : (G.tokens i).kind = .name) (hequals : (G.tokens (i + 1)).kind = .equals)
    (hvalue : (G.tokens (i + 2)).kind = .name) :
    (G.read (n + 8) d (.ref .element) i).Passes (i + 3) (i + 4) := by
  apply passes_element_of_attempt hG
  have hsame : G.read (n + 6) d (.attempt ListGrammar.nameElement) i
      = ⟨.ok true, i + 3, i + 3, [], []⟩ := by
    simp [read, ListGrammar.nameElement, Rule.optional, Pass.rewind, Pass.bind_apply,
      Reading.andThen, Reading.append, Pass.pure_apply, takeKind_of_eq G hname,
      takeKind_of_eq G hequals, takeKind_of_eq G hvalue]
  rw [hsame]
  exact ⟨rfl, rfl, Nat.le_succ _, rfl⟩

/-- An element that is a list is tried as a name first. -/
theorem passes_element_of_list (hG : G.grammar = ListGrammar.grammar) {stop : Nat}
    (hopen : (G.tokens i).kind = .lbracket) (hle : i < stop)
    (hlist : (G.read (n + 4) d (.ref .list) i).Passes stop stop) :
    (G.read (n + 8) d (.ref .element) i).Passes stop (stop + 1) := by
  have hsame : G.read (n + 6) d (.attempt ListGrammar.nameElement) i
      = ⟨.ok false, i, i + 1, [(i, .name)], []⟩ := by
    simp [read, ListGrammar.nameElement, Rule.optional, Pass.rewind, Pass.bind_apply,
      Reading.andThen, Reading.append, Pass.pure_apply,
      takeKind_of_ne G (hopen ▸ by decide : (G.tokens i).kind ≠ .name)]
  rw [read_element hG, Pass.bind_apply, hsame, Reading.andThen_of_ok rfl,
    if_neg Bool.false_ne_true, Pass.answer_eq]
  have hpasses := hlist.rewind
  refine ⟨hpasses.result, hpasses.stop_eq, ?_, hpasses.hits⟩
  have hlook : i + 1 ≤ stop + 1 := by omega
  exact Nat.max_le.2 ⟨hlook, Nat.le_succ_of_le hpasses.seen_le⟩

-- ============================================================================
-- Words that are read over
-- ============================================================================

/-- The reading at each place and depth where a word that derives from the nonterminal stands
    passes right behind the word.  Behind an element and behind elements something stands that
    does not go on with them, and is looked at. -/
def ReadsOver (G : Ground Nonterminal) (w : List Kind) : Nonterminal → Prop
  | .list => ∀ n d i, Spells G.tokens i w → NestsFrom G.maxDepth d w → 16 * w.length ≤ n →
      (G.read n d (.ref .list) i).Passes (i + w.length) (i + w.length)
  | .element => ∀ n d i, Spells G.tokens i w → NestsFrom G.maxDepth d w → 16 * w.length + 10 ≤ n →
      (G.tokens (i + w.length)).kind ≠ .equals →
      (G.read n d (.ref .element) i).Passes (i + w.length) (i + w.length + 1)
  | .elements => ∀ n d i, Spells G.tokens i w → NestsFrom G.maxDepth d w → 16 * w.length + 10 ≤ n →
      (G.tokens (i + w.length)).kind = .rbracket →
      (G.elementsOn n d i).Passes (i + w.length) (i + w.length + 1)
  | .stat | .assign => True

/-- Elements go on with a comma and more elements, or end where none follows. -/
theorem passes_elementsOn {stop stop' far : Nat}
    (helement : (G.read (n + 1) d (.ref .element) i).Passes stop (stop + 1))
    (hrest : (G.trailOn n d stop).Passes stop' far) (hle : stop < far) :
    (G.elementsOn (n + 1) d i).Passes stop' far := by
  rw [elementsOn_succ, Pass.bind_apply]
  exact helement.andThen hrest hle (Nat.le_refl far)

theorem readsOver_of_derives (hG : G.grammar = ListGrammar.grammar) {name : Nonterminal}
    (h : Derives name w) : ReadsOver G w name := by
  induction h with
  | listEnd | assignEnd | assign => trivial
  | @list w helements ih =>
      rintro n d i ⟨hopen, hspells⟩ hnests hfuel
      simp only [List.length_cons, List.length_append, List.length_nil] at hfuel ⊢
      obtain ⟨hinner, hclose, -⟩ := spells_append.1 hspells
      obtain ⟨hdepth, hnests⟩ := hnests.bracket
      obtain ⟨n, rfl⟩ : ∃ k, n = k + 10 := ⟨n - 10, by omega⟩
      have hindex : i + (w.length + (0 + 1) + 1) = i + 1 + w.length + 1 := by omega
      have hread := ih (n + 1) (d + 1) (i + 1) hinner hnests.left (by omega) hclose
      rw [hindex]
      refine passes_list_of_elements (n := n + 4) hG hdepth hopen hclose ?_ (by omega)
      rw [read_elements hG]
      exact hread.rewind.rewind
  | @single w _ ih =>
      intro n d i hspells hnests hfuel hclose
      obtain ⟨n, rfl⟩ : ∃ k, n = k + 1 := ⟨n - 1, by omega⟩
      have hnext : (G.tokens (i + w.length)).kind ≠ .comma := by
        rw [hclose]
        decide
      refine passes_elementsOn (ih (n + 1) d i hspells hnests hfuel (by rw [hclose]; decide)) ?_
        (Nat.lt_succ_self _)
      rw [trailOn_of_ne hnext]
      exact ⟨rfl, rfl, Nat.le_refl _, rfl⟩
  | @more u v hu _ ihu ihv =>
      intro n d i hspells hnests hfuel hclose
      obtain ⟨hleft, hcomma, hright⟩ := spells_append.1 hspells
      obtain ⟨n, rfl⟩ : ∃ k, n = k + 1 := ⟨n - 1, by omega⟩
      simp only [List.length_append, List.length_cons] at hfuel hclose ⊢
      have hindex : i + (u.length + (v.length + 1)) = i + u.length + 1 + v.length := by omega
      rw [hindex] at hclose ⊢
      have hrest : NestsFrom G.maxDepth d v := by
        refine NestsFrom.right (u := u ++ [.comma]) (by simpa using hnests) ?_
        simpa using hu.count_element
      have helements := ihv n d (i + u.length + 1) hright hrest (by omega) hclose
      have helement := ihu (n + 1) d i hleft hnests.left (by omega) (by rw [hcomma]; decide)
      refine passes_elementsOn helement ?_ (by omega)
      have hlook : i + u.length + 1 ≤ i + u.length + 1 + v.length + 1 := by omega
      rw [trailOn_of_eq hcomma]
      exact ⟨helements.result, helements.stop_eq, Nat.max_le.2 ⟨hlook, helements.seen_le⟩,
        helements.hits⟩
  | name =>
      rintro n d i ⟨hname, -⟩ _ hfuel hnext
      obtain ⟨n, rfl⟩ : ∃ k, n = k + 8 := ⟨n - 8, by omega⟩
      exact passes_element_of_name hG hname hnext
  | named =>
      rintro n d i ⟨hname, hequals, hvalue, -⟩ _ hfuel _
      obtain ⟨n, rfl⟩ : ∃ k, n = k + 8 := ⟨n - 8, by omega⟩
      exact passes_element_of_value hG hname hequals hvalue
  | @nested w hlist ih =>
      intro n d i hspells hnests hfuel _
      obtain ⟨n, rfl⟩ : ∃ k, n = k + 8 := ⟨n - 8, by omega⟩
      obtain ⟨hopen, hpos⟩ : (G.tokens i).kind = .lbracket ∧ 0 < w.length := by
        cases hlist with
        | list => exact ⟨hspells.1, by simp⟩
      exact passes_element_of_list hG hopen (by omega)
        (ih (n + 4) d i hspells hnests (by omega))

/-- A list is read over to its closing bracket, whatever follows it, and nothing behind it is
    looked at. -/
theorem passes_list (hG : G.grammar = ListGrammar.grammar) (hlist : Derives .list w)
    (hspells : Spells G.tokens i w) (hnests : NestsWithin G.maxDepth w)
    (hfuel : 16 * w.length ≤ n) :
    (G.read n 0 (.ref .list) i).Passes (i + w.length) (i + w.length) :=
  readsOver_of_derives hG hlist n 0 i hspells (nestsFrom_zero hnests) hfuel

end Ground

-- ============================================================================
-- Recognitions in a row
-- ============================================================================

namespace Engine

variable {σ : Type} [TokenSource σ] {s : σ} {settings : Settings} {n i count : Nat} {e : Engine σ}

/-- The engine is between two recognitions, in front of token number `i`, with nothing buffered
    and nothing kept, after that many compactions. -/
structure Cleared (s : σ) (settings : Settings) (i count : Nat) (e : Engine σ) : Prop where
  coherent : Coherent s 0 e
  settings : e.settings = settings
  marks : e.speculation.marks = []
  depth : e.depth = 0
  position : e.buffer.position = i
  size : e.buffer.size = 0
  memo : e.memo.outcomes = ∅
  compactions : e.compactions = count

theorem cleared_ofSource (settings : Settings) (s : σ) :
    Cleared s settings 0 0 (ofSource settings s) where
  coherent := coherent_ofSource settings s
  settings := rfl
  marks := rfl
  depth := rfl
  position := rfl
  size := rfl
  memo := rfl
  compactions := rfl

namespace Cleared

theorem idle (h : Cleared s settings i count e) : Idle s e := ⟨h.marks, h.depth, h.coherent.window⟩

theorem pulled (h : Cleared s settings i count e) : e.buffer.pulled = i := by
  have hposition := h.position
  have hpulled := h.coherent.window.pulled_eq
  have hcursor := h.coherent.window.cursor_le
  have hsize := h.size
  rw [Lookahead.position] at hposition
  omega

theorem isEmpty_memo (h : Cleared s settings i count e) : e.memo.isEmpty = true := by
  simp [Memo.isEmpty, h.memo]

theorem isEmpty_table (h : Cleared s settings i count e) {id : RuleId} {table : MemoTable}
    (htable : e.memo.table? id = some table) : table.isEmpty = true := by
  simp only [Memo.table?, h.memo, Option.ite_none_right_eq_some] at htable
  obtain ⟨-, htable⟩ := htable
  obtain rfl := Option.some.inj htable
  rfl

/-- Beside the engine stands one that keeps no outcomes. -/
theorem abreast (h : Cleared s settings i count e) (hkeeps : settings.memoize = true) :
    Abreast s settings.maxDepth e { e with settings := ⟨false, settings.maxDepth⟩ } where
  idle := ⟨h.marks, h.depth, h.coherent.window⟩
  sim := {
    buffer := rfl
    marks := rfl
    depth := rfl
    depthHit := rfl
    keeping := by rw [h.settings, ← hkeeps]
    plain := rfl
    window := h.coherent.window
    furthest := (Mismatch.none_join _).symm
    onStream_outer := nofun
    onStream := h.coherent.onStream
    trusted := fun _ _ _ hget => by simp [Memo.get?, h.memo] at hget }

/-- What is recognized without kept outcomes is recognized with them, on as many tokens. -/
theorem recognize_of_plain (h : Cleared s settings i count e) {rule : Rule Nonterminal}
    (hplain : rule.Plain (ListGrammar.bodyOf id)) (hrule : Bracketed rule .level .level)
    {result : Except ParseError Match} {e₂ : Engine σ}
    (hrun : recognize ListGrammar.grammar n rule { e with settings := ⟨false, settings.maxDepth⟩ }
      = .ok result e₂) (hsettings : e₂.settings = ⟨false, settings.maxDepth⟩) :
    ∃ e', recognize ListGrammar.grammar n rule e = .ok result e' ∧ e'.buffer = e₂.buffer ∧
      e'.settings = settings := by
  obtain ⟨memoize, maxDepth⟩ := settings
  cases memoize with
  | false =>
      have hsame : { e with settings := ⟨false, maxDepth⟩ } = e := by rw [← h.settings]
      rw [hsame] at hrun
      exact ⟨e₂, hrun, rfl, hsettings⟩
  | true =>
      have hlockstep := (h.abreast rfl).recognize (n := n) (calls_list hplain hrule)
      rw [hrun] at hlockstep
      obtain ⟨e', hrun', hsim⟩ := hlockstep fun hlimitless => hlimitless.elim
      exact ⟨e', hrun', hsim.buffer, hsim.keeping⟩

/-- The list that comes next is recognized, whatever follows it, and the engine is cleared
    again behind it. -/
theorem recognize_list (h : Cleared s settings i count e) {part : List Token}
    (hpart : stretch (TokenSource.stream s) i (i + part.length) = part)
    (hlist : Derives .list (part.map Token.kind))
    (hnests : NestsWithin settings.maxDepth (part.map Token.kind))
    (hfuel : 16 * part.length ≤ n) :
    ∃ e', recognize ListGrammar.grammar n (.ref .list) e = .ok (.ok ⟨i, part⟩) e' ∧
      Cleared s settings (i + part.length) (count + 1) e' := by
  let plain : Engine σ := { e with settings := ⟨false, settings.maxDepth⟩ }
  have hidle : Idle s plain := ⟨h.marks, h.depth, h.coherent.window⟩
  have hpasses : ((groundAt s ListGrammar.grammar plain).read n 0 (.ref .list)
      plain.buffer.position).Passes (i + part.length) (i + part.length) := by
    rw [show plain.buffer.position = i from h.position]
    have hread := Ground.passes_list (G := groundAt s ListGrammar.grammar plain) (n := n) rfl hlist
      (spells_of_stretch hpart) hnests
    rw [List.length_map] at hread
    exact hread hfuel
  have hplain : Rule.Plain (ListGrammar.bodyOf id) (.ref Nonterminal.list) := ⟨trivial, trivial⟩
  obtain ⟨e₂, hrun₂, -, hsettings₂, hstop⟩ :=
    recognize_of_match hidle rfl stackFree_list n hplain.stackFree hpasses.result
  have hpulled := pulled_of_recognize hidle rfl stackFree_list hplain.stackFree rfl
    hpasses.result (by simp) hrun₂
  rw [hpasses.stop_eq] at hrun₂ hstop
  rw [show plain.buffer.position = i from h.position, hpart] at hrun₂
  rw [Reading.extent_of_nil hpasses.hits, show plain.buffer.pulled = i from h.pulled] at hpulled
  obtain ⟨e', hrun, hbuffer, hsettings⟩ :=
    h.recognize_of_plain hplain (.ref (by decide)) hrun₂ hsettings₂
  have hcoherent : Coherent s 0 e' :=
    Upholds.recognize stackFree_list n hplain.stackFree _ _ _ _ h.coherent hrun
  -- All that was pulled was taken: the reading looked at nothing behind the list.
  have hend : e'.buffer.position = e'.buffer.pulled := by
    have hle := hcoherent.window.position_le
    have hseen := hpasses.seen_le
    rw [hbuffer, hstop] at hle ⊢
    omega
  have hpos : 0 < part.length := by
    cases part with
    | nil => cases hlist
    | cons => exact Nat.succ_pos _
  have hbase : e.buffer.base < e'.buffer.pulled := by
    have hbefore := h.coherent.window.pulled_eq
    rw [h.pulled] at hbefore
    rw [← hend, hbuffer, hstop]
    omega
  obtain ⟨e₁, hcompactions, hdepth, hmarks, rfl⟩ := exists_compacted_of_match stackFree_list
    hplain.stackFree h.coherent h.marks hrun hbase hend
  refine ⟨_, hrun, hcoherent, hsettings, hmarks, hdepth.trans h.depth, ?_, rfl, rfl, ?_⟩
  · rw [hbuffer, hstop]
  · show e₁.compactions + 1 = count + 1
    rw [hcompactions, h.compactions]

end Cleared

/-- The steps of a session that recognizes that many lists, one after the other. -/
def listSteps (count : Nat) : List (Step Nonterminal) :=
  List.replicate count (.recognize (.ref .list))

/-- Lists in a row are recognized one by one. -/
theorem Cleared.session (h : Cleared s settings i count e) {parts : List (List Token)}
    (hstart : stretch (TokenSource.stream s) i (i + parts.flatten.length) = parts.flatten)
    (hparts : ∀ part ∈ parts, Derives .list (part.map Token.kind) ∧
      NestsWithin settings.maxDepth (part.map Token.kind))
    (hfuel : 16 * parts.flatten.length ≤ n) :
    (Engine.session ListGrammar.grammar n (listSteps parts.length) e).length = parts.length ∧
    ∀ k part, parts[k]? = some part → ∃ e',
      (Engine.session ListGrammar.grammar n (listSteps parts.length) e)[k]?
        = some (.ok (.result (.ok ⟨i + (parts.take k).flatten.length, part⟩)), e') ∧
      Cleared s settings (i + (parts.take (k + 1)).flatten.length) (count + (k + 1)) e' := by
  induction parts generalizing i count e with
  | nil => exact ⟨rfl, fun k part hpart => by simp at hpart⟩
  | cons first parts ih =>
      simp only [List.flatten_cons, List.length_append] at hstart hfuel
      rw [← Nat.add_assoc, ← stretch_append _ (Nat.le_add_right i first.length)
        (Nat.le_add_right _ _)] at hstart
      obtain ⟨hfirst, hrest⟩ := List.append_inj hstart (by simp)
      obtain ⟨hlist, hnests⟩ := hparts first List.mem_cons_self
      obtain ⟨e₁, hrun, hcleared⟩ := h.recognize_list (n := n) hfirst hlist hnests (by omega)
      have hperform : perform ListGrammar.grammar n (.recognize (.ref .list)) e
          = .ok (.result (.ok ⟨i, first⟩)) e₁ := by
        simp only [perform]
        rw [Run.bind_of_ok hrun]
        rfl
      obtain ⟨hlength, hanswers⟩ := ih hcleared hrest
        (fun part hmem => hparts part (List.mem_cons_of_mem _ hmem)) (by omega)
      have hsession : Engine.session ListGrammar.grammar n (listSteps (first :: parts).length) e
          = (.ok (.result (.ok ⟨i, first⟩)), e₁)
            :: Engine.session ListGrammar.grammar n (listSteps parts.length) e₁ := by
        simp only [listSteps, List.length_cons, List.replicate_succ, Engine.session, hperform]
      rw [hsession]
      refine ⟨by rw [List.length_cons, hlength, List.length_cons], fun k part hpart => ?_⟩
      cases k with
      | zero =>
          obtain rfl : first = part := by simpa using hpart
          exact ⟨e₁, by simp, by simpa using hcleared⟩
      | succ k =>
          obtain ⟨e', hanswer, hcleared'⟩ := hanswers k part (by simpa using hpart)
          refine ⟨e', ?_, ?_⟩
          · simpa [Nat.add_assoc] using hanswer
          · have hcount : count + 1 + (k + 1) = count + (k + 1 + 1) := by omega
            simpa [Nat.add_assoc, hcount] using hcleared'

/-- Over a source that starts with lists in a row, each nesting within the limit, as many
    recognitions of a list all succeed, whatever follows the lists.  Each returns the next list,
    in the place where the one before ended, and leaves nothing buffered and nothing kept; it is
    the only one to compact since the one before. -/
theorem lists_split (settings : Settings) (s : σ) (parts : List (List Token))
    (hstart : stretch (TokenSource.stream s) 0 parts.flatten.length = parts.flatten)
    (hparts : ∀ part ∈ parts, Derives .list (part.map Token.kind) ∧
      NestsWithin settings.maxDepth (part.map Token.kind))
    (hfuel : parseFuel parts.flatten.length ≤ n) :
    let answers := session ListGrammar.grammar n (listSteps parts.length) (ofSource settings s)
    answers.length = parts.length ∧
    ∀ k part, parts[k]? = some part → ∃ e,
      answers[k]? = some (.ok (.result (.ok ⟨(parts.take k).flatten.length, part⟩)), e) ∧
      e.buffer.position = (parts.take (k + 1)).flatten.length ∧
      e.buffer.isEmpty = true ∧ e.memo.isEmpty = true ∧
      (∀ id table, e.memo.table? id = some table → table.isEmpty = true) ∧
      e.compactions = k + 1 := by
  have hzero : ∀ k : Nat, 0 + k = k := Nat.zero_add
  simp only [parseFuel] at hfuel
  have hstart' : stretch (TokenSource.stream s) 0 (0 + parts.flatten.length) = parts.flatten := by
    rw [hzero]
    exact hstart
  obtain ⟨hlength, hanswers⟩ := (cleared_ofSource settings s).session (n := n) hstart' hparts
    (by omega)
  refine ⟨hlength, fun k part hpart => ?_⟩
  obtain ⟨e, hanswer, hcleared⟩ := hanswers k part hpart
  rw [hzero] at hanswer
  refine ⟨e, hanswer, ?_, ?_, hcleared.isEmpty_memo, fun id table => hcleared.isEmpty_table, ?_⟩
  · rw [hcleared.position, hzero]
  · have hsize : e.buffer.tokens.size = 0 := hcleared.size
    simpa [Lookahead.isEmpty] using hsize
  · rw [hcleared.compactions, hzero]

/-- The tokens of `[a]`. -/
def shallowList : List Token :=
  [.unplaced .lbracket "[", .unplaced .name "a", .unplaced .rbracket "]"]

/-- The tokens of `[[b]]`. -/
def nestedList : List Token :=
  [.unplaced .lbracket "[", .unplaced .lbracket "[", .unplaced .name "b",
   .unplaced .rbracket "]", .unplaced .rbracket "]"]

/-- In `[a][[b]],c` two lists stand in front of tokens that go on with neither. -/
theorem lists_split_of_two :
    let rest : List Token := [.unplaced .comma ",", .unplaced .name "c"]
    let answers := session ListGrammar.grammar 200 (listSteps 2)
      (ofSource ⟨true, 2⟩ (TokenList.ofTokens (shallowList ++ nestedList ++ rest)))
    answers.length = 2 ∧ ∃ e, answers[1]? = some (.ok (.result (.ok ⟨3, nestedList⟩)), e) ∧
      e.buffer.isEmpty = true ∧ e.memo.isEmpty = true ∧ e.compactions = 2 := by
  intro rest answers
  have hnests : ∀ {w : List Kind}, (Outlook.opening .list).runWithin 2 w = some (.closed .list) →
      NestsWithin 2 w := by
    intro w hrun u v hsplit
    have hlevel := ((Outlook.runWithin_eq_some_iff (Nat.zero_le 2)).1 hrun).2 u v hsplit
    rwa [show (Outlook.opening .list).level = 0 from rfl, Nat.zero_add] at hlevel
  obtain ⟨hlength, hanswers⟩ := lists_split (n := 200) ⟨true, 2⟩
    (TokenList.ofTokens (shallowList ++ nestedList ++ rest)) [shallowList, nestedList]
    (by decide +kernel)
    (by
      intro part hmem
      obtain rfl | rfl : part = shallowList ∨ part = nestedList := by simpa using hmem
      · exact ⟨.list (.single .name), hnests rfl⟩
      · exact ⟨.list (.single (.nested (.list (.single .name)))), hnests rfl⟩)
    (by decide)
  obtain ⟨e, hanswer, -, hbuffer, hmemo, -, hcompactions⟩ := hanswers 1 nestedList rfl
  exact ⟨hlength, e, hanswer, hbuffer, hmemo, hcompactions⟩

end Engine
end Packrat
