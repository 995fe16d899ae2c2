/-
  Packrat.Proofs.Flags

  What flags say.

  `Flag.Spelled` lists how each flag is written, and an argument is read as a flag
  iff it is written so.  Arguments make options iff each of them is a flag
  (`CheckOptions.ofArguments_eq_ok_iff`).  An option that several flags set is the
  one of the last of them (`Flag.get_foldl`); flags of different kinds set
  different options, so two of them can stand in either order
  (`CheckOptions.ofArguments_swap`).
-/

import Mathlib.Data.List.Forall2
import Packrat.Command.Options

namespace Packrat

-- ============================================================================
-- Flags as they are written
-- ============================================================================

namespace Flag

variable {argument start text rest : String} {flag f g : Flag}

/-- How each flag is written. -/
inductive Spelled : String → Flag → Prop where
  | rule (entry : Entry) : Spelled ("--rule=" ++ entry.name) (.rule entry)
  | noMemo : Spelled "--no-memo" .noMemo
  | maxDepth {text : String} {depth : Nat} (h : Text.positive? text = some depth) :
      Spelled ("--max-depth=" ++ text) (.maxDepth depth)
  | stats : Spelled "--stats" .stats
  | color (mode : ColorMode) : Spelled ("--color=" ++ mode.name) (.color mode)

theorem after?_eq_some_iff : after? start text = some rest ↔ text = start ++ rest := by
  rw [after?, Option.map_eq_some_iff]
  constructor
  · rintro ⟨cs, h, rfl⟩
    rw [← String.toList_inj, String.toList_append, String.toList_ofList]
    exact (List.isPrefixOf?_eq_some_iff_append_eq.1 h).symm
  · rintro rfl
    refine ⟨rest.toList, List.isPrefixOf?_eq_some_iff_append_eq.2 ?_, String.ofList_toList⟩
    rw [String.toList_append]

theorem after?_eq_none_iff : after? start text = none ↔ ¬start.toList <+: text.toList := by
  rw [after?, Option.map_eq_none_iff, Option.eq_none_iff_forall_ne_some]
  simp only [ne_eq, List.isPrefixOf?_eq_some_iff_append_eq]
  exact not_exists.symm

theorem ofArgument_eq_ok_of_spelled (h : Spelled argument flag) :
    ofArgument argument = .ok flag := by
  cases h with
  | rule entry => cases entry <;> decide
  | noMemo => decide
  | @maxDepth text depth h =>
      have hdepth : after? "--max-depth=" ("--max-depth=" ++ text) = some text :=
        after?_eq_some_iff.2 rfl
      have hrule : after? "--rule=" ("--max-depth=" ++ text) = none := by
        simp [after?, List.isPrefixOf?]
      have hmemo : "--max-depth=" ++ text ≠ "--no-memo" := by
        intro heq
        rw [heq] at hdepth
        cases hdepth
      simp only [ofArgument, hrule, if_neg hmemo, hdepth, h, orError]
      rfl
  | stats => decide
  | color mode => cases mode <;> decide

theorem exists_of_map_orError {α : Type} {value : Option α} {error : OptionError} {k : α → Flag}
    (h : (orError value error).map k = .ok flag) : ∃ a, value = some a ∧ flag = k a := by
  cases value with
  | none => cases h
  | some a => exact ⟨a, rfl, (Except.ok.inj h).symm⟩

theorem name_of_ofName? {name : String} {entry : Entry} (h : Entry.ofName? name = some entry) :
    name = entry.name := by
  have hname := List.find?_some h
  exact (beq_iff_eq.1 hname).symm

theorem name_of_colorOfName? {name : String} {mode : ColorMode}
    (h : ColorMode.ofName? name = some mode) : name = mode.name := by
  unfold ColorMode.ofName? at h
  split at h
  · obtain rfl := Option.some.inj h
    rfl
  · obtain rfl := Option.some.inj h
    rfl
  · obtain rfl := Option.some.inj h
    rfl
  · cases h

theorem spelled_of_ofArgument_eq_ok (h : ofArgument argument = .ok flag) :
    Spelled argument flag := by
  unfold ofArgument at h
  split at h
  · next name hname =>
      obtain rfl := after?_eq_some_iff.1 hname
      obtain ⟨entry, hentry, rfl⟩ := exists_of_map_orError h
      rw [name_of_ofName? hentry]
      exact .rule entry
  · split at h
    · next hmemo =>
        obtain rfl := Except.ok.inj h
        rw [hmemo]
        exact .noMemo
    · split at h
      · next text htext =>
          obtain rfl := after?_eq_some_iff.1 htext
          obtain ⟨depth, hdepth, rfl⟩ := exists_of_map_orError h
          exact .maxDepth hdepth
      · split at h
        · next hstats =>
            obtain rfl := Except.ok.inj h
            rw [hstats]
            exact .stats
        · split at h
          · next text htext =>
              obtain rfl := after?_eq_some_iff.1 htext
              obtain ⟨mode, hmode, rfl⟩ := exists_of_map_orError h
              rw [name_of_colorOfName? hmode]
              exact .color mode
          · cases h

/-- An argument is read as a flag iff it is written so. -/
theorem ofArgument_eq_ok_iff : ofArgument argument = .ok flag ↔ Spelled argument flag :=
  ⟨spelled_of_ofArgument_eq_ok, ofArgument_eq_ok_of_spelled⟩

/-- Every flag starts with two dashes. -/
theorem Spelled.dashes (h : Spelled argument flag) : "--".toList <+: argument.toList := by
  have happend : ∀ {front : String} (back : String), "--".toList <+: front.toList →
      "--".toList <+: (front ++ back).toList := fun back hfront => by
    rw [String.toList_append]
    exact hfront.trans (List.prefix_append _ _)
  cases h with
  | rule entry => exact happend _ (by decide)
  | noMemo => decide
  | maxDepth _ => exact happend _ (by decide)
  | stats => decide
  | color mode => exact happend _ (by decide)

theorem exists_spelled_of_mem {arguments : List String} {flags : List Flag}
    (h : List.Forall₂ Spelled arguments flags) (hmem : argument ∈ arguments) :
    ∃ flag, Spelled argument flag := by
  induction h with
  | nil => cases hmem
  | cons hflag _ ih =>
      rcases List.mem_cons.1 hmem with rfl | hmem
      · exact ⟨_, hflag⟩
      · exact ih hmem

theorem mapM_ofArgument_eq_ok_iff {arguments : List String} {flags : List Flag} :
    arguments.mapM ofArgument = .ok flags ↔ List.Forall₂ Spelled arguments flags := by
  induction arguments generalizing flags with
  | nil =>
      rw [List.mapM_nil, List.forall₂_nil_left_iff]
      exact ⟨fun h => (Except.ok.inj h).symm, fun h => congrArg Except.ok h.symm⟩
  | cons argument arguments ih =>
      rw [List.mapM_cons, List.forall₂_cons_left_iff]
      constructor
      · intro h
        cases hflag : ofArgument argument with
        | error error =>
            rw [hflag] at h
            cases h
        | ok flag =>
            cases hrest : arguments.mapM ofArgument with
            | error error =>
                rw [hflag, hrest] at h
                cases h
            | ok rest =>
                rw [hflag, hrest] at h
                exact ⟨flag, rest, ofArgument_eq_ok_iff.1 hflag, ih.1 hrest,
                  (Except.ok.inj h).symm⟩
      · rintro ⟨flag, rest, hflag, hrest, rfl⟩
        rw [ofArgument_eq_ok_iff.2 hflag, ih.2 hrest]
        rfl

-- ============================================================================
-- What several flags set
-- ============================================================================

/-- The entry that a flag sets. -/
def entry? : Flag → Option Entry
  | rule entry => some entry
  | _ => none

/-- The depth that a flag sets. -/
def depth? : Flag → Option Nat
  | maxDepth depth => some depth
  | _ => none

/-- An option that each flag sets or leaves is the one that the last flag sets, if there is one. -/
theorem get_foldl {α : Type} (get : CheckOptions → α) {set? : Flag → Option α}
    (happly : ∀ options flag, get (apply options flag) = (set? flag).getD (get options))
    (options : CheckOptions) (flags : List Flag) :
    get (flags.foldl apply options) = (flags.filterMap set?).getLast?.getD (get options) := by
  induction flags generalizing options with
  | nil => rfl
  | cons flag flags ih =>
      rw [List.foldl_cons, ih, happly]
      cases hset : set? flag with
      | none => rw [List.filterMap_cons_none hset, Option.getD_none]
      | some a => rw [List.filterMap_cons_some hset, List.getLast?_cons]; rfl

theorem entry_foldl (options : CheckOptions) (flags : List Flag) :
    (flags.foldl apply options).entry = (flags.filterMap entry?).getLast?.getD options.entry :=
  get_foldl CheckOptions.entry (fun _ flag => by cases flag <;> rfl) options flags

theorem maxDepth_foldl (options : CheckOptions) (flags : List Flag) :
    (flags.foldl apply options).settings.maxDepth
      = (flags.filterMap depth?).getLast?.getD options.settings.maxDepth :=
  get_foldl (fun options => options.settings.maxDepth) (fun _ flag => by cases flag <;> rfl)
    options flags

/-- The order of two flags of different kinds makes no difference. -/
theorem apply_comm (options : CheckOptions) (h : f.ctorIdx ≠ g.ctorIdx) :
    apply (apply options f) g = apply (apply options g) f := by
  cases f <;> cases g <;> first | rfl | exact absurd rfl h

theorem pos_of_positive? {depth : Nat} (h : Text.positive? text = some depth) : 0 < depth := by
  obtain ⟨-, hpos⟩ := Option.filter_eq_some_iff.1 h
  exact of_decide_eq_true hpos

/-- The depth that the last of some flags sets is not zero. -/
theorem pos_last_depth {arguments : List String} {flags : List Flag} {depth : Nat}
    (hflags : List.Forall₂ Spelled arguments flags) (hdepth : 0 < depth) :
    0 < (flags.filterMap depth?).getLast?.getD depth := by
  have hpos : ∀ flag ∈ flags, ∀ n, flag.depth? = some n → 0 < n := by
    induction hflags with
    | nil => intro flag hmem; cases hmem
    | cons hflag _ ih =>
        refine List.forall_mem_cons.2 ⟨fun n hn => ?_, ih⟩
        cases hflag with
        | maxDepth h =>
            obtain rfl := Option.some.inj hn
            exact pos_of_positive? h
        | rule => cases hn
        | noMemo => cases hn
        | stats => cases hn
        | color => cases hn
  cases hlast : (flags.filterMap depth?).getLast? with
  | none => exact hdepth
  | some n =>
      obtain ⟨flag, hmem, hn⟩ := List.mem_filterMap.1 (List.mem_of_getLast? hlast)
      exact hpos flag hmem n hn

end Flag

-- ============================================================================
-- Options
-- ============================================================================

namespace CheckOptions

variable {settings : Settings} {arguments front back : List String} {a b : String} {f g : Flag}

/-- Arguments set options iff each of them is a flag, and then they set what these do. -/
theorem ofArguments_eq_ok_iff {options : CheckOptions} :
    ofArguments settings arguments = .ok options ↔
      ∃ flags, List.Forall₂ Flag.Spelled arguments flags ∧
        options = flags.foldl Flag.apply (ofSettings settings) := by
  rw [ofArguments]
  constructor
  · intro h
    cases hflags : arguments.mapM Flag.ofArgument with
    | error error =>
        rw [hflags] at h
        cases h
    | ok flags =>
        rw [hflags] at h
        exact ⟨flags, Flag.mapM_ofArgument_eq_ok_iff.1 hflags, (Except.ok.inj h).symm⟩
  · rintro ⟨flags, hflags, rfl⟩
    rw [Flag.mapM_ofArgument_eq_ok_iff.2 hflags]
    rfl

/-- Two neighbouring flags of different kinds can stand in either order, whatever else is there. -/
theorem ofArguments_swap (ha : Flag.Spelled a f) (hb : Flag.Spelled b g)
    (hkind : f.ctorIdx ≠ g.ctorIdx) :
    ofArguments settings (front ++ a :: b :: back)
      = ofArguments settings (front ++ b :: a :: back) := by
  simp only [ofArguments, List.mapM_append, List.mapM_cons, Flag.ofArgument_eq_ok_iff.2 ha,
    Flag.ofArgument_eq_ok_iff.2 hb]
  cases front.mapM Flag.ofArgument with
  | error error => rfl
  | ok before =>
      cases back.mapM Flag.ofArgument with
      | error error => rfl
      | ok after =>
          show Except.ok ((before ++ f :: g :: after).foldl Flag.apply _)
            = Except.ok ((before ++ g :: f :: after).foldl Flag.apply _)
          rw [List.foldl_append, List.foldl_append, List.foldl_cons, List.foldl_cons,
            List.foldl_cons, List.foldl_cons, Flag.apply_comm _ hkind]

end CheckOptions
end Packrat
