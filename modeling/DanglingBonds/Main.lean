/-
# The program

Reads the command line and the job file, performs the transcript of the command, and ends with an
exit code.
-/
import DanglingBonds.Command.Report

namespace DanglingBonds

/-- The text of a file, if it can be read. -/
def readText? (path : String) : IO (Option String) := do
  try
    return some (← IO.FS.readFile path)
  catch _ => return none

/-- The console that the program was started from. -/
def processConsole (elapsed : String) : Console IO where
  printLine line := IO.println line
  writeFile path text := do
    try
      IO.FS.writeFile path text
      return true
    catch _ => return false
  elapsed

/-- Carries out a command and returns the exit code. -/
def Command.carryOut (c : Command) : IO UInt32 := do
  let text ← readText? c.job.config
  let seed ← IO.rand 0 (Nat.pow 2 31 - 1)
  let start ← IO.monoNanosNow
  let transcript ← IO.lazyPure fun _ => c.report text (.ofSeed seed)
  let stop ← IO.monoNanosNow
  match ← transcript.perform (processConsole (timeText (stop - start))) with
  | .ok () =>
    IO.println "✅ Command completed successfully."
    return 0
  | .error e =>
    IO.eprintln s!"\n❌ Error: {e.message}"
    return 1

end DanglingBonds

open DanglingBonds in
/-- The program. -/
def main (args : List String) : IO UInt32 := do
  match Arguments.read args with
  | .ok a => a.command.carryOut
  | .error .displayHelp =>
    IO.println UsageError.displayHelp.message
    return 0
  | .error .displayVersion =>
    IO.println UsageError.displayVersion.message
    return 0
  | .error e =>
    IO.eprintln s!"error: {e.message}"
    return 2
