/-
  Packrat.Token.Kind

  The six kinds of token of the list language, in their fixed order.
-/

namespace Packrat

/-- What a token is. -/
inductive Kind where
  /-- End of input, which a token source hands out forever once it has run dry. -/
  | eof
  /-- A run of ASCII letters. -/
  | name
  | comma
  | lbracket
  | rbracket
  | equals
deriving DecidableEq, Repr, Inhabited

namespace Kind

/-- Every kind, in order. -/
def all : List Kind := [eof, name, comma, lbracket, rbracket, equals]

/-- The place of a kind in `all`. -/
def index : Kind → Nat
  | eof => 0
  | name => 1
  | comma => 2
  | lbracket => 3
  | rbracket => 4
  | equals => 5

/-- The category name that token dumps show. -/
def label : Kind → String
  | eof => "EOF"
  | name => "NAME"
  | comma => "COMMA"
  | lbracket => "LBRACK"
  | rbracket => "RBRACK"
  | equals => "EQUALS"

/-- How the kind reads in a diagnostic. -/
def phrase : Kind → String
  | eof => "end of input"
  | name => "name"
  | comma => "`,`"
  | lbracket => "`[`"
  | rbracket => "`]`"
  | equals => "`=`"

@[simp] theorem mem_all (k : Kind) : k ∈ all := by cases k <;> decide

theorem index_lt (k : Kind) : k.index < 6 := by cases k <;> decide

theorem getElem?_all_index (k : Kind) : all[k.index]? = some k := by cases k <;> rfl

theorem index_inj {j k : Kind} : j.index = k.index ↔ j = k := by
  cases j <;> cases k <;> decide

end Kind
end Packrat
