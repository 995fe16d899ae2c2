/-
  Packrat.Command.Options

  The flags of the check command.  Each argument is read as a flag on its own;
  the first one that is no flag is reported, and the flags are then applied
  from left to right.
-/

import Packrat.Diagnostic.Render
import Packrat.ListGrammar
import Packrat.Settings

namespace Packrat

/-- How an input is checked. -/
structure CheckOptions where
  entry : Entry
  settings : Settings
  /-- Whether the counters are printed. -/
  stats : Bool
  color : ColorMode
deriving DecidableEq, Repr

/-- One flag. -/
inductive Flag where
  | rule (entry : Entry)
  | noMemo
  | maxDepth (depth : Nat)
  | stats
  | color (mode : ColorMode)
deriving DecidableEq, Repr

/-- Why an argument is no flag. -/
inductive OptionError where
  | unknownRule (name : String)
  | invalidDepth (text : String)
  | invalidColor (text : String)
  | unknownOption (argument : String)
deriving DecidableEq, Repr

/-- The wording of an option error. -/
def OptionError.message : OptionError → String
  | unknownRule name => Entry.unknownMessage name
  | invalidDepth text => "invalid depth `" ++ text ++ "`"
  | invalidColor text => "invalid color mode `" ++ text ++ "`"
  | unknownOption argument => "unknown option `" ++ argument ++ "`"

namespace Flag

/-- What follows `start` in `text`, if the text begins with it. -/
def after? (start text : String) : Option String :=
  (start.toList.isPrefixOf? text.toList).map String.ofList

/-- The value, or the error if there is none. -/
def orError {α : Type} (value : Option α) (error : OptionError) : Except OptionError α :=
  match value with
  | some a => .ok a
  | none => .error error

/-- The flag that an argument stands for. -/
def ofArgument (argument : String) : Except OptionError Flag :=
  if let some name := after? "--rule=" argument then
    (orError (Entry.ofName? name) (.unknownRule name)).map rule
  else if argument = "--no-memo" then .ok noMemo
  else if let some text := after? "--max-depth=" argument then
    (orError (Text.positive? text) (.invalidDepth text)).map maxDepth
  else if argument = "--stats" then .ok stats
  else if let some text := after? "--color=" argument then
    (orError (ColorMode.ofName? text) (.invalidColor text)).map color
  else .error (.unknownOption argument)

/-- The options with a flag set. -/
def apply (options : CheckOptions) : Flag → CheckOptions
  | rule entry => { options with entry }
  | noMemo => { options with settings := { options.settings with memoize := false } }
  | maxDepth depth => { options with settings := { options.settings with maxDepth := depth } }
  | stats => { options with stats := true }
  | color mode => { options with color := mode }

end Flag

namespace CheckOptions

/-- The options without any flag. -/
def ofSettings (settings : Settings) : CheckOptions := ⟨.stat, settings, false, .auto⟩

/-- The options that the arguments set. -/
def ofArguments (settings : Settings) (arguments : List String) :
    Except OptionError CheckOptions := do
  let flags ← arguments.mapM Flag.ofArgument
  return flags.foldl Flag.apply (ofSettings settings)

end CheckOptions
end Packrat
