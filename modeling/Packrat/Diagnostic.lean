/-
  Packrat.Diagnostic

  What is said to the user about a rejected input: a code, a severity, a
  message, labelled places in the source and notes.
-/

import Packrat.Span
import Packrat.Diagnostic.Code

namespace Packrat

/-- How grave a diagnostic is. -/
inductive Severity where
  | error
  | warning
  | note
deriving DecidableEq, Repr, Inhabited

/-- The severity as it is printed. -/
def Severity.text : Severity → String
  | .error => "error"
  | .warning => "warning"
  | .note => "note"

/-- A place in the source and what is said about it. -/
structure Label where
  span : Span
  message : String
  /-- The place of the problem itself, as opposed to related context. -/
  isPrimary : Bool
deriving DecidableEq, Repr

/-- One diagnostic. -/
structure Diagnostic where
  code : Code
  severity : Severity
  message : String
  labels : List Label
  notes : List String
deriving DecidableEq, Repr

namespace Diagnostic

/-- An error about one place. -/
def errorAt (code : Code) (message : String) (span : Span) (label : String)
    (notes : List String) : Diagnostic :=
  ⟨code, .error, message, [⟨span, label, true⟩], notes⟩

/-- Whether the diagnostic is an error. -/
def isError (d : Diagnostic) : Bool := d.severity == .error

/-- The place of the first primary label. -/
def primarySpan? (d : Diagnostic) : Option Span :=
  (d.labels.find? Label.isPrimary).map Label.span

/-- The diagnostic in one line: `severity[CODE]: message`. -/
def headline (d : Diagnostic) : String :=
  d.severity.text ++ "[" ++ d.code.text ++ "]: " ++ d.message

end Diagnostic
end Packrat
