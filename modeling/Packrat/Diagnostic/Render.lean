/-
  Packrat.Diagnostic.Render

  Diagnostics as text for a terminal.  Rendering first yields pieces of text,
  some of them inked; `Piece.join` then writes the pieces with or without
  escape sequences, so that colors never change what the words are.
-/

import Packrat.Diagnostic
import Packrat.Diagnostic.Location
import Packrat.Text.Padding

namespace Packrat

/-- When to write colors. -/
inductive ColorMode where
  /-- Only when a terminal is listening. -/
  | auto
  | always
  | never
deriving DecidableEq, Repr, Inhabited

namespace ColorMode

/-- Whether colors are written, given whether a terminal is listening. -/
def useColors (isTerminal : Bool) : ColorMode → Bool
  | auto => isTerminal
  | always => true
  | never => false

/-- The mode with the given name. -/
def ofName? : String → Option ColorMode
  | "auto" => some auto
  | "always" => some always
  | "never" => some never
  | _ => none

/-- The name of a mode. -/
def name : ColorMode → String
  | auto => "auto"
  | always => "always"
  | never => "never"

end ColorMode

/-- How a piece of text is set off. -/
inductive Ink where
  | error
  | warning
  | note
  | bold
  | secondary
deriving DecidableEq, Repr

namespace Ink

/-- The escape sequence that starts the ink. -/
def start : Ink → String
  | error => "\x1b[1;31m"
  | warning => "\x1b[1;33m"
  | note => "\x1b[1;36m"
  | bold => "\x1b[1m"
  | secondary => "\x1b[1;34m"

/-- The escape sequence that ends any ink. -/
def stop : String := "\x1b[0m"

/-- The ink of a severity. -/
def ofSeverity : Severity → Ink
  | .error => error
  | .warning => warning
  | .note => note

/-- The ink of a label's marks and message. -/
def ofLabel (isPrimary : Bool) : Ink := if isPrimary then error else secondary

end Ink

/-- A piece of rendered text. -/
structure Piece where
  ink : Option Ink
  text : String
deriving DecidableEq, Repr

namespace Piece

/-- Text without ink. -/
def plain (text : String) : Piece := ⟨none, text⟩

/-- Text with ink. -/
def inked (ink : Ink) (text : String) : Piece := ⟨some ink, text⟩

/-- The piece as it is written. -/
def write (colors : Bool) (p : Piece) : String :=
  match p.ink with
  | some ink => if colors then ink.start ++ p.text ++ Ink.stop else p.text
  | none => p.text

/-- The pieces as they are written, one after the other. -/
def join (colors : Bool) (pieces : List Piece) : String :=
  String.join (pieces.map (write colors))

@[simp] theorem write_plain (colors : Bool) (text : String) :
    (plain text).write colors = text := rfl

@[simp] theorem write_inked_false (ink : Ink) (text : String) :
    (inked ink text).write false = text := rfl

@[simp] theorem join_nil (colors : Bool) : join colors [] = "" := rfl

@[simp] theorem join_cons (colors : Bool) (p : Piece) (pieces : List Piece) :
    join colors (p :: pieces) = p.write colors ++ join colors pieces := by
  rw [join, List.map_cons, String.join_cons]
  rfl

@[simp] theorem join_append (colors : Bool) (pieces pieces' : List Piece) :
    join colors (pieces ++ pieces') = join colors pieces ++ join colors pieces' := by
  rw [join, List.map_append, String.join_append]
  rfl

end Piece

namespace Location

/-- The line of a label with marks and the message underneath. -/
def snippet (loc : Location) (label : Label) : List Piece :=
  let number := toString loc.line
  let gutter := Text.repeated number.length ' '
  let marks := Text.repeated loc.width (if label.isPrimary then '^' else '-')
  [.plain (gutter ++ "--> " ++ number ++ ":" ++ toString loc.column ++ "\n"),
   .plain (gutter ++ " |\n"),
   .plain (number ++ " | " ++ String.ofList loc.lineText ++ "\n"),
   .plain (gutter ++ " | " ++ Text.repeated (loc.column - 1) ' '),
   .inked (.ofLabel label.isPrimary) (marks ++ " " ++ label.message),
   .plain "\n"]

end Location

namespace Label

/-- A label whose line cannot be shown: its offsets and its message. -/
def bare (label : Label) : List Piece :=
  [.plain ("  " ++ (if label.isPrimary then "-->" else "   ") ++ " " ++ label.span.text ++ ": "),
   .inked (.ofLabel label.isPrimary) label.message,
   .plain "\n"]

/-- A label, with its line if the source is known and the span stands in it. -/
def render (source : Option (List Char)) (label : Label) : List Piece :=
  match source.bind (Location.of? · label.span) with
  | some loc => loc.snippet label
  | none => label.bare

end Label

namespace Diagnostic

/-- The first line: `severity[CODE]: message`. -/
def renderHeadline (d : Diagnostic) : List Piece :=
  [.inked (.ofSeverity d.severity) d.severity.text,
   .inked .bold ("[" ++ d.code.text ++ "]"),
   .plain (": " ++ d.message ++ "\n")]

/-- A note on a line of its own. -/
def renderNote (note : String) : List Piece :=
  [.plain "  = ", .inked .bold "note", .plain (": " ++ note ++ "\n")]

/-- A diagnostic: the headline, the labels, the notes and an empty line. -/
def render (source : Option (List Char)) (d : Diagnostic) : List Piece :=
  d.renderHeadline ++ d.labels.flatMap (Label.render source) ++ d.notes.flatMap renderNote
    ++ [.plain "\n"]

/-- The closing line for a number of errors; nothing for none. -/
def renderSummary : Nat → List Piece
  | 0 => []
  | 1 => [.inked .error "error", .plain ": input rejected due to previous error\n"]
  | n + 2 =>
    [.inked .error "error",
     .plain (": input rejected due to " ++ toString (n + 2) ++ " previous errors\n")]

/-- Diagnostics in order. -/
def renderAll (source : Option String) (ds : List Diagnostic) : List Piece :=
  let chars := source.map String.toList
  ds.flatMap (render chars)

end Diagnostic
end Packrat
