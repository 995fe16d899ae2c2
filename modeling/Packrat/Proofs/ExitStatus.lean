/-
  Packrat.Proofs.ExitStatus

  How the check command ends.

  The command takes the first argument that can be an input, reads the others as
  flags, and parses the text that the input stands for.  It ends with 0 iff all
  of this succeeds and the text is accepted, and with 1 otherwise
  (`Plan.code_checkExit_eq_zero_iff`, `Plan.code_checkExit`).  Whether outcomes
  are kept makes no difference to what is accepted (`parseSource_accepts_iff`).

  Of the arguments the command only looks at the input and at the options that
  the flags set.  These stay the same when the input is moved among flags, or two
  flags of different kinds change places (`Plan.Reorders`), and then so does all
  that the command writes (`check_exit`).
-/

import Mathlib.Logic.Relation
import Packrat.Command.Line
import Packrat.Proofs.Flags
import Packrat.Proofs.Reports

namespace Packrat

-- ============================================================================
-- Accepted texts
-- ============================================================================

/-- A text is accepted iff it has no invalid character and its tokens are a sentence of the entry
    that nests within the limit. -/
theorem parseSource_accepts_iff (source : String) (entry : Entry) (settings : Settings) :
    (∃ found, parseSource source entry settings = .ok (.ok found)) ↔
      (lex source).2 = [] ∧ entry.Sentence ((lex source).1.map Token.kind) ∧
        NestsWithin settings.maxDepth ((lex source).1.map Token.kind) := by
  obtain ⟨parsed, e, -, hparse, -, hiff⟩ := Engine.exists_parse_text source settings entry
  rw [parseSource_of_parse hparse]
  simp only [Except.ok.injEq, outcome_eq_ok_iff_of_parse hparse, hiff, exists_and_left, exists_eq,
    and_true]

/-- Whether outcomes are kept makes no difference to that. -/
theorem parseSource_accepts_congr {source : String} {entry : Entry} {settings settings' : Settings}
    (h : settings.maxDepth = settings'.maxDepth) :
    (∃ found, parseSource source entry settings = .ok (.ok found)) ↔
      ∃ found, parseSource source entry settings' = .ok (.ok found) := by
  rw [parseSource_accepts_iff, parseSource_accepts_iff, h]

/-- Checking a text ends, and accepts what parsing it accepts. -/
theorem exists_check_ok (source : String) (options : CheckOptions) (isTerminal : Bool) :
    ∃ report, check source options isTerminal = .ok report ∧
      (report.ok = true ↔
        ∃ found, parseSource source options.entry options.settings = .ok (.ok found)) := by
  obtain ⟨parsed, e, -, hparse, -, -⟩ :=
    Engine.exists_parse_text source options.settings options.entry
  obtain ⟨stats, -, hcheck⟩ := check_of_parse isTerminal hparse
  refine ⟨_, hcheck, ?_⟩
  rw [Check.ok_report_iff, parseSource_of_parse hparse]
  simp only [Except.ok.injEq]

theorem Settings.pos_maxDepth_ofEnvironment (environment : String → Option String) :
    0 < (Settings.ofEnvironment environment).maxDepth := by
  rw [Settings.ofEnvironment]
  cases hdepth : (environment depthVariable).bind fun text => Text.positive? (Text.trim text) with
  | none => exact (by decide : 0 < (default : Settings).maxDepth)
  | some depth =>
      obtain ⟨text, -, hpositive⟩ := Option.bind_eq_some_iff.1 hdepth
      exact Flag.pos_of_positive? hpositive

-- ============================================================================
-- The ends of a check
-- ============================================================================

namespace Plan

/-- The argument can be an input: it is `-`, or does not start with `--`. -/
def IsInput (argument : String) : Prop :=
  argument = "-" ∨ ¬"--".toList <+: argument.toList

instance (argument : String) : Decidable (IsInput argument) :=
  inferInstanceAs (Decidable (_ ∨ _))

/-- The text that an input stands for: `-` is standard input, which has to be UTF-8, and anything
    else is the text itself. -/
inductive Supplies (stdin : ByteArray) : String → String → Prop where
  | stdin {text : String} (h : text.toByteArray = stdin) : Supplies stdin "-" text
  | argument {input : String} (h : input ≠ "-") : Supplies stdin input input

/-- How the program ends that is to check something, with the bytes of standard input. -/
def checkExit (environment : String → Option String) (isTerminal : Bool) (stdin : ByteArray)
    (arguments : List String) : Exit :=
  (ofArguments environment isTerminal ("check" :: arguments)).exit (String.fromUTF8? stdin)

variable {environment : String → Option String} {isTerminal : Bool} {stdin : ByteArray}
variable {arguments arguments' : List String} {input text : String} {options : CheckOptions}

theorem isInput_iff {argument : String} : isInput argument = true ↔ IsInput argument := by
  rw [isInput, Bool.or_eq_true, beq_iff_eq, Option.isNone_iff_eq_none, Flag.after?_eq_none_iff]
  rfl

theorem isInput_eq : isInput = fun argument => decide (IsInput argument) := by
  funext argument
  rw [Bool.eq_iff_iff, isInput_iff, decide_eq_true_iff]

theorem fromUTF8?_eq_some_iff : String.fromUTF8? stdin = some text ↔ text.toByteArray = stdin := by
  constructor
  · intro h
    unfold String.fromUTF8? at h
    split at h
    · obtain rfl := Option.some.inj h
      rfl
    · cases h
  · rintro rfl
    rw [String.fromUTF8?, dif_pos text.isValidUTF8]
    rfl

theorem exit_withInput_of_supplies (next : String → Exit) (h : Supplies stdin input text) :
    (withInput input next).exit (String.fromUTF8? stdin) = next text := by
  cases h with
  | stdin h => rw [fromUTF8?_eq_some_iff.2 h]; rfl
  | argument h => rw [withInput, if_neg h]; rfl

theorem exit_withInput_of_none (next : String → Exit) (h : ∀ text, ¬Supplies stdin input text) :
    (withInput input next).exit (String.fromUTF8? stdin) = .notText := by
  by_cases hdash : input = "-"
  · subst hdash
    cases hread : String.fromUTF8? stdin with
    | none => rfl
    | some text => exact absurd (.stdin (fromUTF8?_eq_some_iff.1 hread)) (h text)
  · exact absurd (.argument hdash) (h input)

/-- The check command comes to check a text, with options. -/
def ComesTo (environment : String → Option String) (stdin : ByteArray) (arguments : List String)
    (text : String) (options : CheckOptions) : Prop :=
  ∃ input, arguments.find? isInput = some input ∧
    CheckOptions.ofArguments (Settings.ofEnvironment environment)
      (arguments.eraseP isInput) = .ok options ∧
    Supplies stdin input text

/-- Then it ends as the report on the text says. -/
theorem ComesTo.exists_report (h : ComesTo environment stdin arguments text options)
    (isTerminal : Bool) :
    ∃ report, Packrat.check text options isTerminal = .ok report ∧
      checkExit environment isTerminal stdin arguments = .ofReport report := by
  obtain ⟨input, hinput, hoptions, htext⟩ := h
  obtain ⟨report, hcheck, -⟩ := exists_check_ok text options isTerminal
  refine ⟨report, hcheck, ?_⟩
  show (check environment isTerminal arguments).exit _ = _
  rw [check, splitInput, hinput, Option.map_some]
  simp only [hoptions]
  rw [exit_withInput_of_supplies _ htext, hcheck]

/-- If it does not come to that, it ends with a complaint. -/
theorem exists_comesTo_or_complaint (environment : String → Option String) (isTerminal : Bool)
    (stdin : ByteArray) (arguments : List String) :
    (∃ text options, ComesTo environment stdin arguments text options) ∨
      ∃ message, checkExit environment isTerminal stdin arguments = .complaint message := by
  have hcheck : checkExit environment isTerminal stdin arguments
      = (check environment isTerminal arguments).exit (String.fromUTF8? stdin) := rfl
  rw [hcheck, check, splitInput]
  cases hinput : arguments.find? isInput with
  | none => exact .inr ⟨checkUsage, rfl⟩
  | some input =>
      rw [Option.map_some]
      cases hoptions : CheckOptions.ofArguments (Settings.ofEnvironment environment)
          (arguments.eraseP isInput) with
      | error error => exact .inr ⟨_, by simp only [hoptions]; rfl⟩
      | ok options =>
          by_cases htext : ∃ text, Supplies stdin input text
          · obtain ⟨text, htext⟩ := htext
            exact .inl ⟨text, options, input, hinput, hoptions, htext⟩
          · obtain ⟨message, hmessage⟩ : ∃ message, Exit.notText = .complaint message := ⟨_, rfl⟩
            refine .inr ⟨message, ?_⟩
            simp only [hoptions]
            rw [exit_withInput_of_none _ (not_exists.1 htext), hmessage]

theorem code_checkExit (environment : String → Option String) (isTerminal : Bool)
    (stdin : ByteArray) (arguments : List String) :
    (checkExit environment isTerminal stdin arguments).code = 0 ∨
      (checkExit environment isTerminal stdin arguments).code = 1 := by
  rcases exists_comesTo_or_complaint environment isTerminal stdin arguments with
    ⟨text, options, hcomes⟩ | ⟨message, hexit⟩
  · obtain ⟨report, -, hexit⟩ := hcomes.exists_report isTerminal
    rw [hexit, Exit.ofReport]
    cases report.ok
    · exact .inr rfl
    · exact .inl rfl
  · rw [hexit]
    exact .inr rfl

/-- The program ends with 0 iff it comes to check a text, and the text is accepted. -/
theorem code_checkExit_eq_zero_iff :
    (checkExit environment isTerminal stdin arguments).code = 0 ↔
      ∃ text options, ComesTo environment stdin arguments text options ∧
        ∃ found, parseSource text options.entry options.settings = .ok (.ok found) := by
  have hcode : ∀ text options, ComesTo environment stdin arguments text options →
      ((checkExit environment isTerminal stdin arguments).code = 0 ↔
        ∃ found, parseSource text options.entry options.settings = .ok (.ok found)) := by
    intro text options hcomes
    obtain ⟨report, hcheck, hexit⟩ := hcomes.exists_report isTerminal
    obtain ⟨report', hcheck', hiff⟩ := exists_check_ok text options isTerminal
    obtain rfl := Except.ok.inj (hcheck.symm.trans hcheck')
    rw [hexit, ← hiff, Exit.ofReport]
    cases report.ok <;> simp
  constructor
  · intro hzero
    rcases exists_comesTo_or_complaint environment isTerminal stdin arguments with
      ⟨text, options, hcomes⟩ | ⟨message, hexit⟩
    · exact ⟨text, options, hcomes, (hcode text options hcomes).1 hzero⟩
    · rw [hexit] at hzero
      cases hzero
  · rintro ⟨text, options, hcomes, haccepted⟩
    exact (hcode text options hcomes).2 haccepted

-- ============================================================================
-- What the flags say
-- ============================================================================

/-- The arguments that are to be flags. -/
def flags (arguments : List String) : List String := arguments.eraseP (IsInput ·)

/-- The entry that the flags ask for: that of the last rule, or else `stat`. -/
def entryOf (given : List Flag) : Entry := (given.filterMap Flag.entry?).getLast?.getD .stat

/-- The depth that the flags ask for: the last one, or else that of the environment, or else
    1024. -/
def depthOf (environment : String → Option String) (given : List Flag) : Nat :=
  (given.filterMap Flag.depth?).getLast?.getD
    (((environment "BT_MAX_DEPTH").bind fun text => Text.positive? (Text.trim text)).getD 1024)

theorem eraseP_isInput (arguments : List String) : arguments.eraseP isInput = flags arguments := by
  rw [isInput_eq, flags]

/-- Flags that are all valid set the options that they ask for. -/
theorem exists_options_of_spelled (environment : String → Option String) {given : List Flag}
    (hgiven : List.Forall₂ Flag.Spelled (flags arguments) given) : ∃ options,
      CheckOptions.ofArguments (Settings.ofEnvironment environment) (flags arguments)
        = .ok options ∧
      options.entry = entryOf given ∧ options.settings.maxDepth = depthOf environment given ∧
      0 < options.settings.maxDepth := by
  refine ⟨_, CheckOptions.ofArguments_eq_ok_iff.2 ⟨given, hgiven, rfl⟩,
    Flag.entry_foldl _ given, Flag.maxDepth_foldl _ given, ?_⟩
  rw [Flag.maxDepth_foldl]
  exact Flag.pos_last_depth hgiven (Settings.pos_maxDepth_ofEnvironment environment)

/-- The program ends with 0 iff there is an input, the others are flags, and the text is accepted
    as these say. -/
theorem code_checkExit_eq_zero_iff_given (memoize : Bool) :
    (checkExit environment isTerminal stdin arguments).code = 0 ↔ ∃ input text given found,
      arguments.find? (IsInput ·) = some input ∧
      List.Forall₂ Flag.Spelled (flags arguments) given ∧ Supplies stdin input text ∧
      parseSource text (entryOf given) ⟨memoize, depthOf environment given⟩ = .ok (.ok found) := by
  rw [code_checkExit_eq_zero_iff]
  constructor
  · rintro ⟨text, options, ⟨input, hinput, hset, htext⟩, haccepted⟩
    rw [isInput_eq] at hinput
    rw [eraseP_isInput] at hset
    obtain ⟨given, hgiven, -⟩ := CheckOptions.ofArguments_eq_ok_iff.1 hset
    obtain ⟨options', hset', hentry, hdepth, -⟩ :=
      exists_options_of_spelled environment hgiven
    obtain rfl := Except.ok.inj (hset.symm.trans hset')
    have hsame : options.settings.maxDepth
        = (Settings.mk memoize (depthOf environment given)).maxDepth := hdepth
    obtain ⟨found, hfound⟩ := (parseSource_accepts_congr hsame).1 haccepted
    exact ⟨input, text, given, found, hinput, hgiven, htext, hentry ▸ hfound⟩
  · rintro ⟨input, text, given, found, hinput, hgiven, htext, hfound⟩
    obtain ⟨options, hset, hentry, hdepth, -⟩ :=
      exists_options_of_spelled environment hgiven
    rw [← isInput_eq] at hinput
    rw [← eraseP_isInput] at hset
    rw [← hentry] at hfound
    exact ⟨text, options, ⟨input, hinput, hset, htext⟩,
      (parseSource_accepts_congr hdepth).2 ⟨found, hfound⟩⟩

/-- With an argument that is neither the input nor a flag there is nothing on standard output. -/
theorem out_checkExit_of_not_spelled
    (h : ∃ a ∈ flags arguments, ∀ flag, ¬Flag.Spelled a flag) :
    (checkExit environment isTerminal stdin arguments).out = "" := by
  rcases exists_comesTo_or_complaint environment isTerminal stdin arguments with
    ⟨text, options, input, -, hoptions, -⟩ | ⟨message, hexit⟩
  · obtain ⟨a, hmem, hnone⟩ := h
    rw [eraseP_isInput] at hoptions
    obtain ⟨given, hgiven, -⟩ := CheckOptions.ofArguments_eq_ok_iff.1 hoptions
    obtain ⟨flag, hflag⟩ := Flag.exists_spelled_of_mem hgiven hmem
    exact absurd hflag (hnone flag)
  · rw [hexit]
    rfl

-- ============================================================================
-- The order of arguments
-- ============================================================================

/-- A change of the order of arguments that means nothing: the input moves among arguments that all
    start with `--`, or two neighbouring flags of different kinds change places. -/
inductive Reorders : List String → List String → Prop where
  | move {input : String} {front back front' back' : List String} (hinput : IsInput input)
      (hdashes : ∀ a ∈ front ++ back, "--".toList <+: a.toList)
      (hsame : front ++ back = front' ++ back') :
      Reorders (front ++ input :: back) (front' ++ input :: back')
  | swap {a b : String} {f g : Flag} {front back : List String} (ha : Flag.Spelled a f)
      (hb : Flag.Spelled b g) (hkind : f.ctorIdx ≠ g.ctorIdx) :
      Reorders (front ++ a :: b :: back) (front ++ b :: a :: back)

theorem not_isInput_of_dashes {a : String} (h : "--".toList <+: a.toList) :
    ¬isInput a = true := by
  rw [isInput_iff]
  rintro (rfl | hno)
  · exact absurd h (by decide)
  · exact hno h

/-- All that the command looks at are the input and the options that the flags set. -/
theorem checkExit_congr (hinput : arguments.find? isInput = arguments'.find? isInput)
    (hoptions : ∀ settings,
      CheckOptions.ofArguments settings (arguments.eraseP isInput)
        = CheckOptions.ofArguments settings (arguments'.eraseP isInput)) :
    checkExit environment isTerminal stdin arguments
      = checkExit environment isTerminal stdin arguments' := by
  show (check _ _ _).exit _ = (check _ _ _).exit _
  rw [check, check, splitInput, splitInput, hinput]
  cases arguments'.find? isInput with
  | none => rfl
  | some input => simp only [Option.map_some, hoptions]

/-- An input behind arguments that all start with `--` is the first one. -/
theorem find?_of_dashes {front : List String} (hinput : IsInput input)
    (hdashes : ∀ a ∈ front, "--".toList <+: a.toList) (back : List String) :
    (front ++ input :: back).find? isInput = some input ∧
      (front ++ input :: back).eraseP isInput = front ++ back := by
  have hfront : ∀ a ∈ front, ¬isInput a = true := fun a hmem =>
    not_isInput_of_dashes (hdashes a hmem)
  have hinput := isInput_iff.2 hinput
  constructor
  · rw [List.find?_append, List.find?_eq_none.2 hfront, Option.none_or,
      List.find?_cons_of_pos hinput]
  · rw [List.eraseP_append_right _ hfront, List.eraseP_cons_of_pos hinput]

/-- Two neighbours that are no inputs are not looked at for one. -/
theorem find?_swap {a b : String} (ha : ¬isInput a = true) (hb : ¬isInput b = true)
    (front back : List String) :
    (front ++ a :: b :: back).find? isInput = (front ++ b :: a :: back).find? isInput := by
  rw [List.find?_append, List.find?_append, List.find?_cons_of_neg ha,
    List.find?_cons_of_neg hb, List.find?_cons_of_neg hb, List.find?_cons_of_neg ha]

/-- They stay neighbours among the flags. -/
theorem exists_eraseP_eq {a b : String} (ha : ¬isInput a = true) (hb : ¬isInput b = true)
    (front back : List String) : ∃ front' back',
      (front ++ a :: b :: back).eraseP isInput = front' ++ a :: b :: back' ∧
      (front ++ b :: a :: back).eraseP isInput = front' ++ b :: a :: back' := by
  by_cases hmem : ∃ c ∈ front, isInput c = true
  · obtain ⟨c, hmem, hc⟩ := hmem
    exact ⟨_, back, List.eraseP_append_left hc _ hmem, List.eraseP_append_left hc _ hmem⟩
  · have hfront : ∀ c ∈ front, ¬isInput c = true := fun c hc htrue => hmem ⟨c, hc, htrue⟩
    refine ⟨front, back.eraseP isInput, ?_, ?_⟩
    · rw [List.eraseP_append_right _ hfront, List.eraseP_cons_of_neg ha,
        List.eraseP_cons_of_neg hb]
    · rw [List.eraseP_append_right _ hfront, List.eraseP_cons_of_neg hb,
        List.eraseP_cons_of_neg ha]

theorem Reorders.checkExit_eq (h : Reorders arguments arguments') :
    checkExit environment isTerminal stdin arguments'
      = checkExit environment isTerminal stdin arguments := by
  cases h with
  | @move input front back front' back' hinput hdashes hsame =>
      obtain ⟨hfind, herase⟩ := find?_of_dashes hinput
        (fun a hmem => hdashes a (List.mem_append_left _ hmem)) back
      obtain ⟨hfind', herase'⟩ := find?_of_dashes hinput
        (fun a hmem => hdashes a (by rw [hsame]; exact List.mem_append_left _ hmem)) back'
      refine checkExit_congr (hfind'.trans hfind.symm) fun settings => ?_
      rw [herase, herase', hsame]
  | @swap a b f g front back ha hb hkind =>
      have hna := not_isInput_of_dashes ha.dashes
      have hnb := not_isInput_of_dashes hb.dashes
      refine checkExit_congr (find?_swap hnb hna front back) fun settings => ?_
      obtain ⟨front', back', herase, herase'⟩ := exists_eraseP_eq hna hnb front back
      rw [herase, herase']
      exact (CheckOptions.ofArguments_swap ha hb hkind).symm

theorem checkExit_eq_of_reorders (h : Relation.ReflTransGen Reorders arguments arguments') :
    checkExit environment isTerminal stdin arguments'
      = checkExit environment isTerminal stdin arguments := by
  induction h with
  | refl => rfl
  | tail _ hstep ih => exact hstep.checkExit_eq.trans ih

end Plan

/-- The check command ends with 0 iff there is an input, all other arguments are flags, standard
    input is UTF-8 if it is asked for, and the text is accepted as the last rule says and within
    the last depth, or else that of the environment, or else 1024; whether outcomes are kept plays
    no part.  Otherwise it ends with 1.  The depth in effect is the one that is said here, and not
    zero.  With an argument that is neither the input nor a flag nothing goes to standard output.
    To move the input among flags, or to change two flags of different kinds, changes nothing. -/
theorem check_exit (environment : String → Option String) (isTerminal : Bool)
    (stdin : ByteArray) (arguments : List String) :
    let exit := fun arguments =>
      (Plan.ofArguments environment isTerminal ("check" :: arguments)).exit
        (String.fromUTF8? stdin)
    let flags := arguments.eraseP (Plan.IsInput ·)
    let entry := fun given => (given.filterMap Flag.entry?).getLast?.getD .stat
    let depth := fun given => (given.filterMap Flag.depth?).getLast?.getD
      (((environment "BT_MAX_DEPTH").bind fun text => Text.positive? (Text.trim text)).getD 1024)
    (∀ memoize, (exit arguments).code = 0 ↔ ∃ input text given found,
      arguments.find? (Plan.IsInput ·) = some input ∧
      List.Forall₂ Flag.Spelled flags given ∧ Plan.Supplies stdin input text ∧
      parseSource text (entry given) ⟨memoize, depth given⟩ = .ok (.ok found)) ∧
    ((exit arguments).code = 0 ∨ (exit arguments).code = 1) ∧
    (∀ given, List.Forall₂ Flag.Spelled flags given → ∃ options,
      CheckOptions.ofArguments (Settings.ofEnvironment environment) flags = .ok options ∧
      options.entry = entry given ∧ options.settings.maxDepth = depth given ∧
      0 < options.settings.maxDepth) ∧
    ((∃ a ∈ flags, ∀ flag, ¬Flag.Spelled a flag) → (exit arguments).out = "") ∧
    ∀ arguments', Relation.ReflTransGen Plan.Reorders arguments arguments' →
      exit arguments' = exit arguments := by
  intro exit flags entry depth
  exact ⟨Plan.code_checkExit_eq_zero_iff_given, Plan.code_checkExit _ _ _ _,
    fun given => Plan.exists_options_of_spelled environment, Plan.out_checkExit_of_not_spelled,
    fun arguments' => Plan.checkExit_eq_of_reorders⟩

end Packrat
