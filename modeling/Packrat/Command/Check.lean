/-
  Packrat.Command.Check

  The check command: parse a text as one entry of the grammar.  An accepted
  text prints the entry and the tokens it took.  A rejected one prints every
  invalid character that was come across and then the parse error, if there
  is one, with a closing count.
-/

import Packrat.Command.Options
import Packrat.Command.Report
import Packrat.Counters
import Packrat.Parse

namespace Packrat
namespace Check

/-- The lines for an accepted text. -/
def acceptance (entry : Entry) (m : Match) : String :=
  "accepted: " ++ entry.name ++ "\n  " ++ " ".intercalate (m.tokens.map Token.display) ++ "\n"

/-- Everything that is wrong with a text: the invalid characters, then the parse error. -/
def diagnostics (errors : List InvalidCharacter) (result : Except ParseError Match) :
    List Diagnostic :=
  errors.map InvalidCharacter.toDiagnostic ++
    match result with
    | .ok _ => []
    | .error e => [e.toDiagnostic]

/-- The diagnostics of a rejected text with the closing count. -/
def rejection (source : String) (colors : Bool) (ds : List Diagnostic) : String :=
  Piece.join colors (Diagnostic.renderAll (some source) ds ++ Diagnostic.renderSummary ds.length)

/-- What is reported about a text, from the result of its parse and the invalid characters
    come across. -/
def report (source : String) (options : CheckOptions) (isTerminal : Bool)
    (result : Except ParseError Match) (errors : List InvalidCharacter) : Report :=
  match result, errors with
  | .ok m, [] => ⟨true, acceptance options.entry m, ""⟩
  | _, _ =>
    ⟨false, "", rejection source (options.color.useColors isTerminal) (diagnostics errors result)⟩

end Check

/-- Checks a text; `isTerminal` says whether a terminal listens on standard error. -/
def check (source : String) (options : CheckOptions) (isTerminal : Bool) :
    Except Fault Report :=
  match Engine.parse options.entry
      (Engine.ofSource options.settings (Scanner.ofSource source)) with
  | .ok result e =>
    let report := Check.report source options isTerminal result e.buffer.source.errors
    let stats := if options.stats then (Counters.ofEngine e).text else ""
    .ok { report with out := report.out ++ stats }
  | .error fault _ => .error fault

end Packrat
