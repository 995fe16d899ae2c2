/-
  Packrat.Rule

  Rules of a grammar as data.  A rule says how to try to match a stretch of
  tokens; `ν` names the rules that a rule may refer to, and a grammar gives
  every name its rule.  The usual combinators (`sequence`, `oneOf`,
  `separated`, …) are built from a few constructors.
-/

import Packrat.Memo

namespace Packrat

/-- An operation on the rollback marks, as a step of a rule. -/
inductive StackStep where
  /-- Open a speculation. -/
  | openMark
  /-- Close the innermost speculation and rewind. -/
  | abandon
  /-- Close the innermost speculation and stay. -/
  | commit
  /-- Empty the buffer and the memo. -/
  | compact
deriving DecidableEq, Repr

/-- A rule; matching it either succeeds or fails. -/
inductive Rule (ν : Type) where
  /-- The next token has the kind. -/
  | token (kind : Kind)
  /-- Matches always or never, and takes nothing. -/
  | const (answer : Bool)
  /-- The one, then the other; nothing is rewound if the other fails. -/
  | both (first second : Rule ν)
  /-- The one, or else the other from wherever the one stopped. -/
  | either (first second : Rule ν)
  /-- Matches if the rule does not; nothing is rewound. -/
  | negate (rule : Rule ν)
  /-- The rule, rewound if it fails. -/
  | attempt (rule : Rule ν)
  /-- `(delimiter element)*`, where an element has to follow each delimiter. -/
  | trail (delimiter : Kind) (element : Rule ν)
  /-- The rule through its memo. -/
  | memo (id : RuleId) (body : Rule ν)
  /-- The rule one level deeper. -/
  | nested (body : Rule ν)
  /-- The rule of that name. -/
  | ref (name : ν)
  /-- The token `k` places ahead has the kind; nothing is taken or noted. -/
  | ahead (k : Nat) (kind : Kind)
  /-- An operation on the rollback marks; matches. -/
  | stack (step : StackStep)
deriving DecidableEq, Repr

/-- A rule for every name. -/
abbrev Grammar (ν : Type) : Type := ν → Rule ν

namespace Rule

variable {ν : Type}

/-- The rules one after the other, nothing rewound. -/
def allOf : List (Rule ν) → Rule ν
  | [] => .const true
  | rule :: rules => .both rule (allOf rules)

/-- The first of the rules that matches, nothing rewound. -/
def anyOf : List (Rule ν) → Rule ν
  | [] => .const false
  | rule :: rules => .either rule (anyOf rules)

/-- The rules one after the other, all or nothing. -/
def sequence (rules : List (Rule ν)) : Rule ν := .attempt (allOf rules)

/-- The first of the rules that matches, each tried from the same place. -/
def oneOf (rules : List (Rule ν)) : Rule ν := anyOf (rules.map .attempt)

/-- The rule if it matches; succeeds either way. -/
def optional (rule : Rule ν) : Rule ν := .either (.attempt rule) (.const true)

/-- `element (delimiter element)*`, all or nothing. -/
def separated (element : Rule ν) (delimiter : Kind) : Rule ν :=
  .attempt (.both element (.trail delimiter element))

end Rule
end Packrat
