/-
  Packrat.Counters

  How much work an engine did.
-/

import Packrat.Engine

namespace Packrat

/-- The counters of an engine at one moment. -/
structure Counters where
  opens : Nat
  abandons : Nat
  commits : Nat
  /-- Lookups in the memo that found an outcome. -/
  hits : Nat
  /-- Lookups in the memo that found none. -/
  misses : Nat
  /-- Outcomes in the memo right now. -/
  entries : Nat
  compactions : Nat
  /-- Tokens taken from the source, end-of-input tokens included. -/
  pulled : Nat
  /-- How often the body of each memoized rule ran, in the order of the names. -/
  runs : List (String × Nat)
deriving DecidableEq, Repr

namespace Counters

/-- The counters of an engine. -/
def ofEngine {σ : Type} (e : Engine σ) : Counters where
  opens := e.speculation.opens
  abandons := e.speculation.abandons
  commits := e.speculation.commits
  hits := e.memo.hits
  misses := e.memo.misses
  entries := e.memo.size
  compactions := e.compactions
  pulled := e.buffer.pulled
  runs := e.runs.toList

/-- Whether every open was closed. -/
def isBalanced (c : Counters) : Bool := c.opens == c.abandons + c.commits

/-- The counters as lines of text. -/
def text (c : Counters) : String :=
  let runs := c.runs.map fun (name, n) => name ++ "=" ++ toString n
  "stats:\n"
    ++ "  speculation   " ++ toString c.opens ++ " opened, " ++ toString c.abandons
    ++ " abandoned, " ++ toString c.commits ++ " committed\n"
    ++ "  memo          " ++ toString c.hits ++ " hits, " ++ toString c.misses
    ++ " misses, " ++ toString c.entries ++ " entries\n"
    ++ "  rule bodies   " ++ " ".intercalate runs ++ "\n"
    ++ "  tokens pulled " ++ toString c.pulled ++ "\n"
    ++ "  compactions   " ++ toString c.compactions ++ "\n"

end Counters
end Packrat
