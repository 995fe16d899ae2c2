/-
  Packrat.ListGrammar

  The grammar of the list language:

    stat     := list EOF | assign EOF
    assign   := list '=' list
    list     := '[' elements ']'
    elements := element (',' element)*
    element  := NAME ('=' NAME)? | list

  Both alternatives of `stat` start with a whole list, so the second one is
  served from the memo.  Only `list` counts toward the depth limit, which
  makes the limit a bound on bracket depth.
-/

import Packrat.Rule

namespace Packrat

/-- The names of the rules. -/
inductive Nonterminal where
  | stat
  | assign
  | list
  | elements
  | element
deriving DecidableEq, Repr

namespace Nonterminal

/-- Every name, in order. -/
def all : List Nonterminal := [stat, assign, list, elements, element]

/-- The name as text. -/
def text : Nonterminal → String
  | stat => "stat"
  | assign => "assign"
  | list => "list"
  | elements => "elements"
  | element => "element"

/-- The name with the given text. -/
def ofText? (text : String) : Option Nonterminal := all.find? fun name => name.text == text

/-- The memo name of a rule. -/
def ruleId (name : Nonterminal) : RuleId := ⟨name.text⟩

end Nonterminal

namespace ListGrammar

variable {ν : Type} (embed : Nonterminal → ν)

/-- `NAME ('=' NAME)?` -/
def nameElement : Rule ν :=
  .both (.token .name) (.optional (.both (.token .equals) (.token .name)))

/-- The rule and then the end of the input. -/
def thenEnd (name : Nonterminal) : Rule ν := .both (.ref (embed name)) (.token .eof)

/-- The rules of the list language, with their names embedded in those of a larger grammar. -/
def rule : Nonterminal → Rule ν
  | .stat => .memo Nonterminal.stat.ruleId (.oneOf [thenEnd embed .list, thenEnd embed .assign])
  | .assign =>
    .memo Nonterminal.assign.ruleId
      (.sequence [.ref (embed .list), .token .equals, .ref (embed .list)])
  | .list =>
    .memo Nonterminal.list.ruleId
      (.nested (.both (.token .lbracket)
        (.both (.ref (embed .elements)) (.token .rbracket))))
  | .elements => .memo Nonterminal.elements.ruleId (.separated (.ref (embed .element)) .comma)
  | .element => .oneOf [nameElement, .ref (embed .list)]

/-- The grammar of the list language. -/
def grammar : Grammar Nonterminal := rule id

end ListGrammar

/-- The rules that a whole input can be checked against. -/
inductive Entry where
  /-- A list or an assignment, then the end of the input. -/
  | stat
  /-- A list, then the end of the input. -/
  | list
  /-- An assignment, then the end of the input. -/
  | assign
deriving DecidableEq, Repr, Inhabited

namespace Entry

/-- Every entry, in order. -/
def all : List Entry := [stat, list, assign]

/-- The name of an entry. -/
def name : Entry → String
  | stat => "stat"
  | list => "list"
  | assign => "assign"

/-- The entry with the given name. -/
def ofName? (name : String) : Option Entry := all.find? fun entry => entry.name == name

/-- What is said about a name that no entry has. -/
def unknownMessage (name : String) : String :=
  "unknown rule `" ++ name ++ "` (expected `stat`, `list` or `assign`)"

/-- The rule of an entry. -/
def rule : Entry → Rule Nonterminal
  | stat => .ref .stat
  | list => ListGrammar.thenEnd id .list
  | assign => ListGrammar.thenEnd id .assign

end Entry
end Packrat
