import Markwright.CommandLine.Plan

/-!
Carries out the plan of the command line that the program is called with.
-/

namespace Markwright.CommandLine

/-- The fault of an error, whose number may come with its sign turned. -/
def FileFault.ofError : IO.Error → FileFault
  | .noFileOrDirectory .. => .notFound
  | .inappropriateType _ code _ => if code = 20 ∨ code = 0 - 20 then .notDirectory else .isDirectory
  | .permissionDenied .. => ⟨13, "Permission denied"⟩
  | .otherError code details => ⟨code.toNat, details⟩
  | _ => ⟨5, "Input/output error"⟩

/-- What an action gives, or why it fails. -/
def attempt {α : Type} (action : IO α) : IO (Except FileFault α) := do
  try
    return .ok (← action)
  catch e =>
    return .error (.ofError e)

/-- All that is left of a stream. -/
partial def readRest (stream : IO.FS.Stream) (before : String) : IO String := do
  let line ← stream.getLine
  if line.isEmpty then return before else readRest stream (before ++ line)

/-- Carries out a plan and gives its exit code. -/
def perform (logFile? : Option IO.FS.Handle) : Plan → IO UInt32
  | .exit code => return code.toUInt32
  | .abort cause => do
    IO.eprintln cause.message
    return 1
  | .print text next => do
    IO.print text
    perform logFile? next
  | .complain line next => do
    IO.eprintln line
    perform logFile? next
  | .log line next => do
    IO.eprintln line
    if let some handle := logFile? then
      handle.putStr (line ++ "\n")
      handle.flush
    perform logFile? next
  | .openLog path next => do
    match ← attempt (IO.FS.Handle.mk path.text .append) with
    | .ok handle => perform (some handle) (next none)
    | .error fault => perform logFile? (next (some fault))
  | .readInput next => do
    let text ← readRest (← IO.getStdin) ""
    perform logFile? (next (unifyBreaks text))
  | .readFile path next => do
    let text ← attempt (IO.FS.readFile path.text)
    perform logFile? (next (text.map unifyBreaks))
  | .writeFile path text next => do
    match ← attempt (IO.FS.writeFile path.text text) with
    | .ok _ => perform logFile? (next none)
    | .error fault => perform logFile? (next (some fault))

end Markwright.CommandLine

/-- Runs the program in the current directory. -/
def main (arguments : List String) : IO UInt32 := do
  let directory ← IO.currentDir
  Markwright.CommandLine.perform none
    (Markwright.CommandLine.planOf directory.toString arguments)
