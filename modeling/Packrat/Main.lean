/-
  Packrat.Main

  The program: it carries out the plan for its arguments.
-/

import Packrat.Command.Line

namespace Packrat
namespace Program

/-- What is left of a stream, after the bytes read so far. -/
partial def readBytes (stream : IO.FS.Stream) (read : ByteArray) : IO ByteArray := do
  let chunk ← stream.read 65536
  if chunk.isEmpty then return read else readBytes stream (read ++ chunk)

/-- The text of standard input, if it is one. -/
def readText : IO (Option String) := do
  return String.fromUTF8? (← readBytes (← IO.getStdin) .empty)

/-- The variables that the program looks at, as they are set. -/
def environment : IO (String → Option String) := do
  let memo ← IO.getEnv Settings.memoVariable
  let depth ← IO.getEnv Settings.depthVariable
  return fun name =>
    if name = Settings.memoVariable then memo
    else if name = Settings.depthVariable then depth
    else none

/-- Carries out the plan and returns the exit code. -/
def run (arguments : List String) : IO UInt32 := do
  let stderr ← IO.getStderr
  let plan := Plan.ofArguments (← environment) (← stderr.isTty) arguments
  let stdin ←
    match plan with
    | .readInput _ => readText
    | .done _ => pure none
  let exit := plan.exit stdin
  (← IO.getStdout).putStr exit.out
  stderr.putStr exit.err
  return UInt32.ofNat exit.code

end Program
end Packrat

def main (arguments : List String) : IO UInt32 := Packrat.Program.run arguments
