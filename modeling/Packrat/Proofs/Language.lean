/-
  Packrat.Proofs.Language

  The list language as a context-free language, apart from any way to
  recognize it.  `Derives` has one constructor for each production:

    stat     → list EOF | assign EOF
    assign   → list '=' list
    list     → '[' elements ']'
    elements → element | element ',' elements
    element  → NAME | NAME '=' NAME | list

  Nothing here orders the alternatives or prefers longer matches.
-/

import Packrat.ListGrammar

namespace Packrat

/-- The words of kinds that derive from a nonterminal. -/
inductive Derives : Nonterminal → List Kind → Prop where
  | listEnd {w : List Kind} (h : Derives .list w) : Derives .stat (w ++ [.eof])
  | assignEnd {w : List Kind} (h : Derives .assign w) : Derives .stat (w ++ [.eof])
  | assign {u v : List Kind} (hu : Derives .list u) (hv : Derives .list v) :
      Derives .assign (u ++ .equals :: v)
  | list {w : List Kind} (h : Derives .elements w) :
      Derives .list (.lbracket :: (w ++ [.rbracket]))
  | single {w : List Kind} (h : Derives .element w) : Derives .elements w
  | more {u v : List Kind} (hu : Derives .element u) (hv : Derives .elements v) :
      Derives .elements (u ++ .comma :: v)
  | name : Derives .element [.name]
  | named : Derives .element [.name, .equals, .name]
  | nested {w : List Kind} (h : Derives .list w) : Derives .element w

/-- The words that an entry stands for: a statement, or a list or an assignment and then the
    end of the input. -/
inductive Entry.Sentence : Entry → List Kind → Prop where
  | stat {w : List Kind} (h : Derives .stat w) : Sentence .stat w
  | list {w : List Kind} (h : Derives .list w) : Sentence .list (w ++ [.eof])
  | assign {w : List Kind} (h : Derives .assign w) : Sentence .assign (w ++ [.eof])

/-- Some sentence starts with the word. -/
def Entry.Viable (entry : Entry) (u : List Kind) : Prop := ∃ v, entry.Sentence (u ++ v)

/-- No prefix of the word opens more than `limit` brackets that it does not close. -/
def NestsWithin (limit : Nat) (w : List Kind) : Prop :=
  ∀ u v, w = u ++ v → u.count .lbracket ≤ u.count .rbracket + limit

end Packrat
