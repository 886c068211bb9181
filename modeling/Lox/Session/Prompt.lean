import Lox.Session

/-!
# The prompt

Running one line after another as they are typed.

## Main definitions

* `Prompt.Ending`: how the input ends.
* `Session.answer`: runs one line.
* `Session.prompt`: runs all lines.

## Design notes

An empty line ends the prompt, and so does a failure of a line. Errors in a line are forgotten before
the next.
-/

namespace Lox

/-- How the input of a prompt ends. -/
inductive Prompt.Ending where
  | closed
  | interrupted
deriving DecidableEq, Repr

def Prompt.Ending.farewell : Prompt.Ending → String
  | closed => "\nGoodbye!"
  | interrupted => "\nREPL被中断"

def Prompt.greeting : String := "Lox 交互式模式 (Ctrl+D或Ctrl+Z退出)"

namespace Session

def answer (line : String) : Step Unit := do
  let _ ← run line true
  forgiveError

def promptFailed (exit : Exit) : Step Unit :=
  recordFailure "[异常]  REPL发生异常: " exit.category exit.message

/-- Asks for lines until one is empty or fails, or the input ends. -/
def promptLines (ending : Prompt.Ending) : List String → Step Unit
  | [] => do
    write .prompt
    write (.notice ending.farewell)
  | line :: lines => do
    write .prompt
    if line.isEmpty then return ()
    fun s =>
      match answer line s with
      | .ok _ s' => promptLines ending lines s'
      | .error e s' => promptFailed e s'

def prompt (ending : Prompt.Ending) (lines : List String) : Step Unit := do
  start
  write (.notice Prompt.greeting)
  promptLines ending lines

end Session

end Lox
