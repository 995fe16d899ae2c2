/-
  Packrat.Proofs.Reports

  What the check command reports about a text.

  A report is about a run of the parse: its result, and the invalid characters
  that the scanner came across on the way (`check_of_parse`).  The scanner has gone
  as far as the parse needed tokens (`source_of_parse_text`).  Hence the invalid
  characters up to the end of the token that the parse rejects are reported, and
  none of those behind it (`err_of_rejected`, `stray_not_reported`).
-/

import Packrat.Command.Tokens
import Packrat.Proofs.Demand
import Packrat.Proofs.Layout
import Packrat.Proofs.LazyScanning
import Packrat.Proofs.SourceParse

namespace Packrat

-- ============================================================================
-- Reports
-- ============================================================================

namespace Check

variable {source : String} {options : CheckOptions} {isTerminal : Bool}
variable {result : Except ParseError Match} {errors : List InvalidCharacter}

/-- A report accepts what parsing the text accepts. -/
theorem ok_report_iff :
    (report source options isTerminal result errors).ok = true ↔
      ∃ found, outcome errors result = .ok found := by
  cases result with
  | ok found => cases errors <;> simp [report]
  | error err => cases errors <;> simp [report]

theorem report_of_rejected (h : (report source options isTerminal result errors).ok = false) :
    report source options isTerminal result errors
      = ⟨false, "", rejection source (options.color.useColors isTerminal)
          (diagnostics errors result)⟩ := by
  cases result with
  | error err => rfl
  | ok found =>
      cases errors with
      | nil => cases h
      | cons error errors => rfl

theorem err_report (h : (report source options isTerminal result errors).ok = false) :
    (report source options isTerminal result errors).err
      = rejection source (options.color.useColors isTerminal) (diagnostics errors result) := by
  rw [report_of_rejected h]

end Check

/-- Checking a text reports on the run of its parse. -/
theorem check_of_parse {source : String} {options : CheckOptions} (isTerminal : Bool)
    {parsed : Except ParseError Match} {e : Engine Scanner}
    (hparse : Engine.parse options.entry (.ofSource options.settings (Scanner.ofSource source))
      = .ok parsed e) :
    ∃ stats, (options.stats = false → stats = "") ∧
      let report := Check.report source options isTerminal parsed e.buffer.source.errors
      check source options isTerminal = .ok { report with out := report.out ++ stats } := by
  refine ⟨if options.stats then (Counters.ofEngine e).text else "", fun hstats => ?_, ?_⟩
  · rw [hstats]
    rfl
  · simp only [check, hparse]

/-- A text is accepted iff its tokens are and it has no invalid character. -/
theorem Check.ok_report_iff_of_parse {source : String} {options : CheckOptions} {isTerminal : Bool}
    {parsed : Except ParseError Match} {e : Engine Scanner}
    (hparse : Engine.parse options.entry (.ofSource options.settings (Scanner.ofSource source))
      = .ok parsed e) :
    (report source options isTerminal parsed e.buffer.source.errors).ok = true ↔
      (lex source).2 = [] ∧ ∃ found, parsed = .ok found := by
  rw [ok_report_iff, ← exists_and_left]
  exact exists_congr (outcome_eq_ok_iff_of_parse hparse)

-- ============================================================================
-- How far the scanner goes
-- ============================================================================

namespace Engine

/-- The parse of a text pulls the tokens that it needs from the scanner, and no more. -/
theorem source_of_parse_text {source : String} {settings : Settings} {entry : Entry}
    {parsed : Except ParseError Match} {e : Engine Scanner}
    (hparse : parse entry (ofSource settings (Scanner.ofSource source)) = .ok parsed e) :
    e.buffer.source = TokenSource.after (Scanner.ofSource source) (needed parsed) := by
  obtain ⟨hsource, -⟩ := pulled_of_parse_text hparse
  rw [parse_ofSource] at hparse
  rw [hsource, (pulled_of_recognizeEntry hparse).1]

/-- What the parse of a text has come across are the invalid characters in front of the end of the
    last token that it needs; there are none behind it if the parse accepts. -/
theorem exists_upTo_of_parse_text {source : String} {settings : Settings} {entry : Entry}
    {parsed : Except ParseError Match} {e : Engine Scanner}
    (hparse : parse entry (ofSource settings (Scanner.ofSource source)) = .ok parsed e) :
    ∃ front rest, source.toList = front ++ rest ∧
      rest = (TokenSource.after (Scanner.ofSource source) (needed parsed)).rest ∧
      UpTo source (needed parsed) front ∧
      e.buffer.source.errors = invalids 0 front ∧
      (lex source).2 = invalids 0 front ++ invalids (Text.byteLength front) rest ∧
      ((∃ found, parsed = .ok found) → invalids (Text.byteLength front) rest = []) := by
  have hsource := source_of_parse_text hparse
  obtain ⟨later, happend, hall⟩ := errors_of_parse_text hparse
  obtain ⟨front, hbehind, hupTo, -⟩ := Scanner.exists_upTo source (needed parsed)
  rw [← hsource] at hbehind
  have hfound : e.buffer.source.errors = invalids 0 front := hbehind.errors_eq
  have herrors : (lex source).2
      = invalids 0 front ++ invalids (Text.byteLength front) e.buffer.source.rest := by
    rw [errors_lex, ← hbehind.errors_append, hfound, hbehind.offset_eq]
  refine ⟨front, e.buffer.source.rest, hbehind.text_eq, by rw [hsource], hupTo, hfound, herrors, ?_⟩
  rintro ⟨found, hok⟩
  rw [hfound, hall found hok, List.append_nil] at happend
  exact List.append_cancel_left (by rw [← herrors, happend, List.append_nil])

end Engine

/-- Checking a text ends, and reports on the parse of all its tokens.  What it says about a text
    that it rejects is a diagnostic for each invalid character in front of the end of the last
    token that the parse needs, in order, then one for the parse error if there is one, and the
    count of them.  So all invalid characters are among them if the tokens are accepted, or if none
    of them stands behind the token that the parse rejects; others are missed. -/
theorem err_of_rejected (source : String) (options : CheckOptions) (isTerminal : Bool) :
    let tokens := (lex source).1
    let errors := (lex source).2
    let rejection := Check.rejection source (options.color.useColors isTerminal)
    ∃ report parsed e front rest, check source options isTerminal = .ok report ∧
      Engine.parse options.entry (.ofSource options.settings (TokenList.ofTokens tokens))
        = .ok parsed e ∧
      ((∃ found, parsed = .ok found) ↔ options.entry.Sentence (tokens.map Token.kind) ∧
        NestsWithin options.settings.maxDepth (tokens.map Token.kind)) ∧
      (report.ok = true ↔ errors = [] ∧ ∃ found, parsed = .ok found) ∧
      source.toList = front ++ rest ∧
      rest = (TokenSource.after (Scanner.ofSource source) (needed parsed)).rest ∧
      UpTo source (needed parsed) front ∧
      errors = invalids 0 front ++ invalids (Text.byteLength front) rest ∧
      ((∃ found, parsed = .ok found) → invalids (Text.byteLength front) rest = []) ∧
      (report.ok = false →
        report.err = rejection (Check.diagnostics (invalids 0 front) parsed)) ∧
      (report.ok = false → (∀ c ∈ rest, CharClass.of c ≠ .invalid) →
        report.err = rejection (Check.diagnostics errors parsed)) := by
  intro tokens errors rejection
  obtain ⟨parsed, e, e', hparse, hparse', hiff⟩ :=
    Engine.exists_parse_text source options.settings options.entry
  obtain ⟨stats, -, hcheck⟩ := check_of_parse isTerminal hparse
  obtain ⟨front, rest, htext, hrest, hupTo, hfound, herrors, hmissed⟩ :=
    Engine.exists_upTo_of_parse_text hparse
  have haccepts : (∃ found, parsed = .ok found) ↔ options.entry.Sentence (tokens.map Token.kind) ∧
      NestsWithin options.settings.maxDepth (tokens.map Token.kind) := by
    simp only [hiff, exists_and_left, exists_eq, and_true]
    rfl
  refine ⟨_, parsed, e', front, rest, hcheck, hparse', haccepts,
    Check.ok_report_iff_of_parse hparse, htext, hrest, hupTo, herrors, hmissed,
    fun hrejected => ?_, fun hrejected hvalid => ?_⟩
  · exact hfound ▸ Check.err_report hrejected
  · have hall : e.buffer.source.errors = errors := by
      rw [hfound, show errors = _ from herrors, invalids_eq_nil hvalid, List.append_nil]
    exact hall ▸ Check.err_report hrejected

/-- In `]#` the parse rejects the bracket, and the invalid character behind it goes unmentioned. -/
theorem stray_not_reported :
    ∃ report parsed e, check "]#" ⟨.stat, .default, false, .never⟩ false = .ok report ∧
      report.ok = false ∧
      Engine.parse .stat (.ofSource .default (TokenList.ofTokens (lex "]#").1))
        = .ok parsed e ∧
      report.err ≠ Check.rejection "]#" false (Check.diagnostics (lex "]#").2 parsed) := by
  have hrejected : (check "]#" ⟨.stat, .default, false, .never⟩ false).toOption.map Report.ok
      = some false := by decide +kernel
  have hstray : (match
        Engine.parse .stat (.ofSource .default (TokenList.ofTokens (lex "]#").1)) with
      | .ok parsed _ => decide
          ((check "]#" ⟨.stat, .default, false, .never⟩ false).toOption.map Report.err
            ≠ some (Check.rejection "]#" false (Check.diagnostics (lex "]#").2 parsed)))
      | .error _ _ => false) = true := by decide +kernel
  cases hcheck : check "]#" ⟨.stat, .default, false, .never⟩ false with
  | error fault =>
      rw [hcheck] at hrejected
      cases hrejected
  | ok report =>
      rw [hcheck] at hrejected hstray
      cases hparse : Engine.parse .stat
          (.ofSource .default (TokenList.ofTokens (lex "]#").1)) with
      | error fault e =>
          rw [hparse] at hstray
          cases hstray
      | ok parsed e =>
          rw [hparse] at hstray
          exact ⟨report, parsed, e, rfl, Option.some.inj hrejected, rfl,
            fun heq => of_decide_eq_true hstray (congrArg some heq)⟩

end Packrat
