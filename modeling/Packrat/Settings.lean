/-
  Packrat.Settings

  The two knobs of a recognition, and how an environment sets them.
-/

import Packrat.Text.Blank
import Packrat.Text.Unsigned

namespace Packrat

/-- How a recognition runs. -/
structure Settings where
  /-- Whether outcomes are kept and replayed while speculating. -/
  memoize : Bool
  /-- How many nested bodies may run inside one another. -/
  maxDepth : Nat
deriving DecidableEq, Repr

namespace Settings

/-- Memoize, and nest at most 1024 deep. -/
def default : Settings := ⟨true, 1024⟩

instance : Inhabited Settings := ⟨default⟩

/-- The variable that switches memoization. -/
def memoVariable : String := "BT_MEMO"

/-- The variable that sets the depth. -/
def depthVariable : String := "BT_MAX_DEPTH"

/-- The switch that a text stands for, blanks around it and capitals ignored. -/
def switch? (text : String) : Option Bool :=
  let word := Text.lowered (Text.trim text)
  if word ∈ ["1", "on", "true", "yes"] then some true
  else if word ∈ ["0", "off", "false", "no"] then some false
  else none

/-- The settings of an environment: a variable that is missing or makes no sense leaves
    the default. -/
def ofEnvironment (lookup : String → Option String) : Settings :=
  { memoize := ((lookup memoVariable).bind switch?).getD default.memoize
    maxDepth :=
      ((lookup depthVariable).bind fun text => Text.positive? (Text.trim text)).getD
        default.maxDepth }

end Settings
end Packrat
