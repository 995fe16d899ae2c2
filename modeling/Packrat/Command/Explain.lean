/-
  Packrat.Command.Explain

  The explain command: one line on what a code means.
-/

import Packrat.Command.Report
import Packrat.Diagnostic.Code

namespace Packrat

/-- Explains the code with the given text. -/
def explain (text : String) : Report :=
  match Code.ofText? text with
  | some code => ⟨true, code.text ++ ": " ++ code.description ++ "\n", ""⟩
  | none =>
    ⟨false, "", "Unknown error code: " ++ text ++ "\nKnown codes: "
      ++ ", ".intercalate (Code.all.map Code.text) ++ "\n"⟩

end Packrat
