/-
  Packrat.Command.Report

  What a command has to say: whether it succeeded, what goes to standard
  output and what to standard error.
-/

namespace Packrat

/-- The result of a command. -/
structure Report where
  /-- Whether the command accepted its input. -/
  ok : Bool
  out : String
  err : String
deriving DecidableEq, Repr

end Packrat
