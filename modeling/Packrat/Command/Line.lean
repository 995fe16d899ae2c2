/-
  Packrat.Command.Line

  The command line as a pure plan: from the arguments and the environment it
  is clear either how the program ends, or that it ends in a way that depends
  on the text of standard input.
-/

import Packrat.Command.Explain
import Packrat.Command.Tokens

namespace Packrat

/-- How the program ends. -/
structure Exit where
  code : Nat
  out : String
  err : String
deriving DecidableEq, Repr

/-- What the program does. -/
inductive Plan where
  /-- End at once. -/
  | done (exit : Exit)
  /-- Read standard input, then end. -/
  | readInput (next : String → Exit)

namespace Exit

/-- The program ends as a command reports. -/
def ofReport (report : Report) : Exit := ⟨if report.ok then 0 else 1, report.out, report.err⟩

/-- The program ends with a complaint. -/
def complaint (text : String) : Exit := ⟨1, "", text⟩

/-- The program ends because standard input is no text. -/
def notText : Exit := complaint "error: stream did not contain valid UTF-8\n"

/-- The program ends because the engine faulted. -/
def ofFault (fault : Fault) : Exit :=
  ⟨101, "", "fault: " ++ fault.message?.getD "the run could not go on" ++ "\n"⟩

end Exit

namespace Plan

/-- Lines of text. -/
def lines (ls : List String) : String := String.join (ls.map (· ++ "\n"))

/-- What the program is and how it is called. -/
def usage : String := lines
  ["Backtracking list parser",
   "",
   "Usage: btc <command> [options]",
   "",
   "Commands:",
   "  check <input>      Parse input (`-` reads stdin) and report the outcome",
   "  tokens <input>     Print the token stream",
   "  explain <code>     Explain an error code (e.g., E1002)",
   "  help               Show this help message",
   "  version            Show version information",
   "",
   "Check options:",
   "  --rule=<rule>      Entry rule: stat (default), list, assign",
   "  --no-memo          Disable memoization",
   "  --max-depth=<n>    Limit list nesting depth",
   "  --stats            Print engine counters",
   "  --color=<mode>     auto, always, never",
   "",
   "Environment:",
   "  BT_MEMO=0          Disable memoization",
   "  BT_MAX_DEPTH=<n>   Limit list nesting depth",
   "  RUST_LOG=<filter>  Enable tracing (e.g., bt_parse=trace)"]

/-- How the check command is called. -/
def checkUsage : String := lines
  ["Usage: btc check <input> [options]",
   "",
   "Options:",
   "  --rule=<rule>       Entry rule: stat (default), list, assign",
   "  --no-memo           Disable memoization",
   "  --max-depth=<n>     Limit list nesting depth",
   "  --stats             Print engine counters",
   "  --color=<mode>      auto, always, never"]

/-- How the tokens command is called. -/
def tokensUsage : String := lines ["Usage: btc tokens <input>"]

/-- How the explain command is called. -/
def explainUsage : String := lines ["Usage: btc explain <ERROR_CODE>", "Example: btc explain E1002"]

/-- The name and version of the program. -/
def version : String := "btc 0.1.0\n"

/-- Whether an argument of the check command can be its input. -/
def isInput (argument : String) : Bool :=
  argument == "-" || (Flag.after? "--" argument).isNone

/-- The first argument that can be the input, and all others in order. -/
def splitInput (arguments : List String) : Option (String × List String) :=
  (arguments.find? isInput).map fun input => (input, arguments.eraseP isInput)

/-- Goes on with the text that an argument stands for: `-` is standard input, anything else
    the text itself. -/
def withInput (argument : String) (next : String → Exit) : Plan :=
  if argument = "-" then readInput next else done (next argument)

/-- What the check command does. -/
def check (environment : String → Option String) (isTerminal : Bool)
    (arguments : List String) : Plan :=
  match splitInput arguments with
  | none => done (.complaint checkUsage)
  | some (input, flags) =>
    match CheckOptions.ofArguments (Settings.ofEnvironment environment) flags with
    | .error error => done (.complaint ("error: " ++ error.message ++ "\n"))
    | .ok options =>
      withInput input fun text =>
        match Packrat.check text options isTerminal with
        | .ok report => .ofReport report
        | .error fault => .ofFault fault

/-- What the program does with its arguments, in an environment. -/
def ofArguments (environment : String → Option String) (isTerminal : Bool) :
    List String → Plan
  | [] => done ⟨0, usage, ""⟩
  | command :: arguments =>
    match command with
    | "check" => check environment isTerminal arguments
    | "tokens" =>
      match arguments with
      | [] => done (.complaint tokensUsage)
      | input :: _ => withInput input fun text => .ofReport (listTokens text .auto isTerminal)
    | "explain" | "--explain" =>
      match arguments with
      | [] => done (.complaint explainUsage)
      | code :: _ => done (.ofReport (explain code))
    | "help" | "--help" | "-h" => done ⟨0, usage, ""⟩
    | "version" | "--version" | "-V" => done ⟨0, version, ""⟩
    | _ => done ⟨1, usage, "Unknown command: " ++ command ++ "\n\n"⟩

/-- How the program ends, given standard input: none if it is no text. -/
def exit (stdin : Option String) : Plan → Exit
  | done exit => exit
  | readInput next =>
    match stdin with
    | some text => next text
    | none => .notText

end Plan
end Packrat
