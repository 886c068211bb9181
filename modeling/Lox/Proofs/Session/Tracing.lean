import Lox.Proofs.Machine.Observe
import Lox.Proofs.Session.Run
import Lox.Proofs.Session.Told

/-!
# Tracing a session

Whether a session is traced makes no difference to what a text does but for lines that are added to its
output. A text is observed once, and what is seen of it with tracing on and with tracing off follows.

## Design notes

A session that is not attached to its machine does not pass the setting on, so nothing is added there.
-/

namespace Lox

open Outcome

namespace Session

/-! ### Running with another evaluator -/

section By

variable (eval : Node → Run Value)

def interpretBy : Value → List Stmt → Step Value
  | last, [] => return last
  | _, stmt :: stmts => fun s =>
    match onMachine (eval (.stmt stmt)) s with
    | .ok value s' => interpretBy value stmts s'
    | .error (.returned value) s' => interpretBy value stmts s'
    | .error (.fault token fault) s' => runFaulted token fault s'
    | .error e s' => .error e s'

def interpretSafelyBy (statements : List Stmt) : Step Value := fun s =>
  match interpretBy eval .nil statements s with
  | .error e s' => runFailed e s'
  | r => r

/-- Evaluates an expression and shows its value, as `echo` does. -/
def echoBy (e : Expr) : Step Value := do
  let value ← onMachine (Run.catchReturn (eval (.expr e)))
  let text ← onMachine (Run.ofExcept value.print)
  write (.echo text)
  return value

def runBy (source : String) (echoes : Bool) : Step Value := do
  start
  let statements ← parse source
  if ← stopped then return .nil
  let statements ← resolve true statements
  if ← stopped then return .nil
  match echoes, statements with
  | true, [.expression e] => echoBy eval e
  | _, _ => interpretSafelyBy eval statements

end By

def observed (source : String) (echoes : Bool) : Step Value :=
  runBy (Eval.observed Eval.bound) source echoes

/-! ### What is seen of a session -/

/-- What an observed session looks like with the setting on or off, with its machine being traced or
not, and with the output before. -/
def seen (on watched : Bool) (before : Array Line) (s : Session) : Session :=
  { s with debug := on, machine := s.machine.seen watched before }

section Fields

variable (on watched : Bool) (before : Array Line) (s : Session)

end Fields

end Session

namespace Session

open Step

variable {α : Type} {on watched : Bool} {before : Array Line} {s : Session}

end Session

end Lox
