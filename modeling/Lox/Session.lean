import Lox.Machine.Eval
import Lox.Report
import Lox.Scope.Resolve

/-!
# Sessions

A session runs one text after another on the same machine and keeps what has been reported.

## Main definitions

* `Session`: the machine, the flags and the reports.
* `Session.run`: scans, reads, resolves and runs a text.
* `Session.evaluate`: evaluates the expression at the start of a text.
* `Session.runUnresolved`: runs a text in which every name is global.

## Design notes

An error in a text keeps it, and every later text, from being run until the flag is taken back. A
session that is not `attached` writes its reports and raises its flags all the same, but does not heed
them.
-/

namespace Lox

/-- The state of a session. -/
structure Session where
  machine : Machine
  /-- Whether the machine is in use. -/
  started : Bool
  /-- Whether the flags stop a run. -/
  attached : Bool
  /-- Whether the session is traced. -/
  debug : Bool
  flags : Flags
  reports : Array Report

/-- A step of a session, which may end like a run. -/
abbrev Step := EStateM Exit Session

/-- The bound on nested computations of a run. -/
def Eval.bound : Nat := 0x40000000

namespace Exit

def category : Exit → String
  | returned _ | delivered _ => "Return"
  | broke => "BreakException"
  | fault .. => "RuntimeError"
  | defect d => d.category
  | exhausted => "RecursionError"

/-- The wording of an exit that leaves a run. -/
def message : Exit → String
  | returned _ | delivered _ | broke => ""
  | fault _ f => f.message
  | defect d => d.message
  | exhausted => "maximum recursion depth exceeded"

end Exit

namespace Session

def new (attached : Bool) (clock : Clock) : Session where
  machine := .start false clock
  started := false
  attached := attached
  debug := false
  flags := .clear
  reports := #[]

/-- Takes the machine into use. -/
def start : Step Unit := modify fun s => { s with started := true }

def file (report : Report) : Step Unit :=
  modify fun s =>
    { s with flags := s.flags.raise report, reports := s.reports.push report }

def fileAll : List Report → Step Unit
  | [] => pure ()
  | r :: rs => do
    file r
    fileAll rs

/-- Whether errors in the texts so far forbid running. -/
def stopped : Step Bool := do
  let s ← get
  return s.attached && s.flags.error

def onMachine {α : Type} (body : Run α) : Step α := fun s =>
  match body s.machine with
  | .ok a m => .ok a { s with machine := m }
  | .error e m => .error e { s with machine := m }

def write (line : Line) : Step Unit := onMachine (Run.write line)

def setDebug (on : Bool) : Step Unit :=
  modify fun s =>
    { s with debug := on, machine := { s.machine with traced := on && s.attached } }

def clearFlags : Step Unit := modify fun s => { s with flags := .clear }

/-- Takes the flag of errors in texts back, if the session heeds it. -/
def forgiveError : Step Unit :=
  modify fun s => if s.attached then { s with flags := { s.flags with error := false } } else s

/-- Takes both flags of errors back, if the session heeds them. -/
def forgiveErrors : Step Unit :=
  modify fun s =>
    if s.attached then { s with flags := { s.flags with error := false, runtimeError := false } }
    else s

def defineGlobal (name : String) (value : Value) : Step Unit :=
  modify fun s =>
    { s with machine :=
      { s.machine with frames := s.machine.frames.write Machine.globalId name value } }

def runNode (node : Node) : Step Value := onMachine (Eval.run Eval.bound node)

def runFaulted (token : Token) (fault : Fault) : Step Value := do
  file (.running token fault)
  return .nil

/-- Runs statements in order and yields the value of the last. A return ends its statement only; a
fault is reported and ends them all. -/
def interpret : Value → List Stmt → Step Value
  | last, [] => return last
  | _, stmt :: stmts => fun s =>
    match runNode (.stmt stmt) s with
    | .ok value s' => interpret value stmts s'
    | .error (.returned value) s' => interpret value stmts s'
    | .error (.fault token fault) s' => runFaulted token fault s'
    | .error e s' => .error e s'

def recordFailure (intro category message : String) : Step Unit := do
  write (.notice (intro ++ message))
  file (.failure category)

def runFailed (exit : Exit) : Step Value := do
  recordFailure "[异常] 执行时发生异常: " exit.category exit.message
  return .nil

/-- Runs statements; a failure is recorded and ends them all. -/
def interpretSafely (statements : List Stmt) : Step Value := fun s =>
  match interpret .nil statements s with
  | .error e s' => runFailed e s'
  | r => r

/-- Evaluates an expression and shows its value. -/
def echo (e : Expr) : Step Value := do
  let value ← onMachine (Run.catchReturn (Eval.run Eval.bound (.expr e)))
  let text ← onMachine (Run.ofExcept value.print)
  write (.echo text)
  return value

def scan (source : String) : Step Token.Scan := do
  let scanned := Token.scan source
  fileAll (scanned.complaints.map .scanning)
  return scanned

def read (lastLine : Nat) (tokens : List Token) : Step (List Stmt) := do
  let parsed := Tree.parse tokens
  fileAll (parsed.complaints.map (.reading lastLine))
  return parsed.statements

def readExpression (lastLine : Nat) (tokens : List Token) : Step Tree.ParsedExpr := do
  let parsed := Tree.parseExpression tokens
  fileAll (parsed.complaints.map (.reading lastLine))
  return parsed

def parse (source : String) : Step (List Stmt) := do
  let scanned ← scan source
  read scanned.lastLine scanned.tokens

def resolve (warns : Bool) (statements : List Stmt) : Step (List Stmt) := do
  let resolved := Scope.resolve warns statements
  fileAll (resolved.reached.notices.map .scoping)
  match resolved.statements with
  | .ok statements => return statements
  | .error d => throw (.defect d)

/-- Runs a text. With `echoes`, a text that is a single expression statement shows its value. -/
def run (source : String) (echoes : Bool) : Step Value := do
  start
  let statements ← parse source
  if ← stopped then return .nil
  let statements ← resolve true statements
  if ← stopped then return .nil
  match echoes, statements with
  | true, [.expression e] => echo e
  | _, _ => interpretSafely statements

/-- Runs trees. Without `resolves` every name in them is taken to be global; trees with errors have no
value. -/
def runTrees (statements : List Stmt) (resolves : Bool) : Step (Option Value) := do
  start
  let statements ← if resolves then resolve true statements else pure statements
  if ← stopped then return none
  some <$> interpret .nil statements

/-- Runs a text in which every name is taken to be global. -/
def runUnresolved (source : String) : Step Value := do
  start
  let statements ← parse source
  if (← get).flags.error then return .nil
  interpret .nil statements

def evaluateExpr (e : Expr) : Step Value := do
  if (← get).started then runNode (.expr e) else throw (.defect .absentMachine)

/-- Evaluates the expression at the start of a text. If that fails, the rest of the text is read and,
unless that fails too, the whole text is run as a program. -/
def evaluate (source : String) : Step Value := do
  forgiveErrors
  let scanned ← scan source
  if ← stopped then return .nil
  let parsed ← readExpression scanned.lastLine scanned.tokens
  if ← stopped then return .nil
  match parsed.expression? with
  | none => return .nil
  | some e => fun s =>
    match evaluateExpr e s with
    | .error _ s' => fallback scanned.lastLine parsed.rest s'
    | r => r
where
  /-- What is done after an evaluation that failed. -/
  fallback (lastLine : Nat) (rest : List Token) : Step Value := do
    let _ ← read lastLine rest
    if ← stopped then return .nil
    run source false

end Session

end Lox
