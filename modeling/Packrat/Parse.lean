/-
  Packrat.Parse

  Parsing the list language: an entry of the grammar against a token source
  or a text.  The fuel of `Engine.parse` is a bound on the depth of the run
  that grows with the tokens left; it is no limit of its own.
-/

import Packrat.ListGrammar
import Packrat.Recognition
import Packrat.Scanner

namespace Packrat

/-- How deep a run of the list grammar can recurse with `pending` tokens left before the
    end-of-input tail: an opening bracket takes at most 13 levels and a comma one.  The bound
    counts on a cursor that moves back to rollback marks only; an outcome in the memo that
    stops before the position it is kept for would take it further back. -/
def parseFuel (pending : Nat) : Nat := 16 * pending + 64

namespace Engine

variable {σ : Type} [TokenSource σ]

/-- Recognizes an entry of the list grammar on the given fuel. -/
def recognizeEntry (fuel : Nat) (entry : Entry) : Run σ (Except ParseError Match) :=
  recognize ListGrammar.grammar fuel entry.rule

/-- Recognizes an entry of the list grammar on the fuel that the tokens left call for. -/
def parse (entry : Entry) : Run σ (Except ParseError Match) := do
  let fuel := parseFuel (← get).buffer.pending
  recognizeEntry fuel entry

end Engine

/-- Scans and parses a text.  The first invalid character that was come across wins over
    whatever the parse made of the tokens. -/
def parseSource (source : String) (entry : Entry) (settings : Settings) :
    Except Fault (Except ParseError Match) :=
  match Engine.parse entry (Engine.ofSource settings (Scanner.ofSource source)) with
  | .ok result e =>
    match e.buffer.source.errors with
    | error :: _ => .ok (.error (.lexical error))
    | [] => .ok result
  | .error fault _ => .error fault

end Packrat
