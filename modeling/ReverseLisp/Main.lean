import ReverseLisp.Prelude
import ReverseLisp.Repl
import ReverseLisp.Session.Startup

/-!
# The command line

The read-eval-print loop on standard input and output, with the library loaded. Environment
variables set the recursion limit, the log level and the directory of the library.
-/

namespace ReverseLisp.CommandLine

/-- Whether a directory is found under a name: reading it as a file fails for that reason. -/
def isDirectoryName (name : String) : IO Bool := do
  try
    let _ ← IO.FS.readFile name
    return false
  catch
    | .inappropriateType .. => return true
    | _ => return false

/-- The text of a file, if there is one. -/
def fileText? (name : String) : IO (Option String) := do
  try
    return some (← IO.FS.readFile name)
  catch _ =>
    return none

/-- The library that a setting asks for. -/
def libraryTexts (raw : Option String) : IO (Except Error (List String)) := do
  match raw with
  | none | some "" => return .ok Prelude.bundled
  | some raw =>
    let isDirectory ← isDirectoryName (Prelude.root (fun _ ↦ true) raw).text
    let root := Prelude.root (fun _ ↦ isDirectory) raw
    return Prelude.select root (← (Prelude.paths root).mapM fun p ↦ fileText? p.text)

/-- The session that the environment variables ask for. -/
def configuredSession : IO (Except Error Session) := do
  return Session.configured (← IO.getEnv "RTLISP_LOG_LEVEL") (← IO.getEnv "RTLISP_RECURSION_LIMIT")
    (← libraryTexts (← IO.getEnv "RTLISP_PRELUDE_PATH"))

/-- Ends the program with an error. -/
def fail (e : Error) : IO UInt32 := do
  (← IO.getStderr).putStrLn e.message
  return 1

/-- Takes lines until the input ends or an error ends the loop. -/
partial def interact (input output : IO.FS.Stream) (r : Repl) : IO UInt32 := do
  let line ← input.getLine
  if line.isEmpty then
    output.putStr "\n"
    return 0
  let (text, error, r) := r.step line.toList
  output.putStr (String.ofList text)
  output.flush
  match error with
  | some e => fail e
  | none => interact input output r

/-- The whole run: its exit code is zero unless an error ends it. -/
def start : IO UInt32 := do
  match ← configuredSession with
  | .error e => fail e
  | .ok s =>
    let output ← IO.getStdout
    output.putStr Repl.defaultPrompt
    output.flush
    interact (← IO.getStdin) output
      (Repl.ofSession s Repl.defaultPrompt Repl.defaultContinuation)

end ReverseLisp.CommandLine

/-- The command line. -/
def main : IO UInt32 := ReverseLisp.CommandLine.start
