import Std.Time.DateTime.Timestamp
import Lox.Command

/-!
# The command line

## Main definitions

* `main`: runs the script that the command line names, or asks for lines.
-/

namespace Lox.Terminal

def contents (path : String) : IO Script.Contents := do
  try
    return .bytes (← IO.FS.readBinFile path).toList
  catch
    | .noFileOrDirectory .. => return .missing
    | .permissionDenied .. => return .blocked .denied
    | .invalidArgument .. => return .blocked .nameTooLong
    | .inappropriateType (some _) .. => return .blocked .notDirectory
    | _ => return .blocked .directory

/-- Writes what a session has to say so far, and forgets it. -/
def emit (s : Session) : IO Session := do
  IO.print (Line.renderAll s.machine.out)
  IO.eprint (Report.renderAll s.reports)
  (← IO.getStdout).flush
  return { s with machine := { s.machine with out := #[] }, reports := #[] }

def after {α : Type} (step : Step α) (s : Session) : Option α × Session :=
  match step s with
  | .ok a s' => (some a, s')
  | .error _ s' => (none, s')

/-- Asks for lines and answers each of them at once. -/
partial def converse (s : Session) : IO Unit := do
  let s ← emit (after (Session.write .prompt) s).2
  let line ← (← IO.getStdin).getLine
  if line.isEmpty then
    let _ ← emit (after (Session.write (.notice Prompt.Ending.closed.farewell)) s).2
  else
    let text := if line.endsWith "\n" then (line.dropEnd 1).toString else line
    unless text.isEmpty do
      match Session.answer text s with
      | .ok _ s' => converse s'
      | .error e s' =>
        let _ ← emit (after (Session.promptFailed e) s').2

def converseFrom (s : Session) : IO Unit := do
  let greeted : Step Unit := do
    Session.start
    Session.write (.notice Prompt.greeting)
  converse (after greeted s).2

end Lox.Terminal

open Lox Lox.Terminal in
/-- Runs the script that the command line names, or asks for lines if it names none. -/
def main (args : List String) : IO UInt32 := do
  let now := (← Std.Time.Timestamp.now).toSecondsSinceUnixEpoch.val
  let session := Session.new true (Clock.still (Float.ofInt now))
  match Command.ofPath args with
  | .prompt =>
    converseFrom session
    return 0
  | .script path debug =>
    let found ← contents path
    let (code, s) := after (Session.runScript path debug found) session
    let _ ← emit s
    return (code.join.getD 0).toUInt32
  | command =>
    let (code, s) := after (Session.perform ⟨fun _ => .missing, [], .closed⟩ command) session
    let _ ← emit s
    return (code.join.getD 0).toUInt32
