import Lox.Scope.Indexed
import Lox.Session

/-!
# Running with variables by position

Programs whose free names are found in frames by position: open scopes that were set up beforehand,
and a global frame.

## Main definitions

* `Positional.Setting`: the open scopes, their frames and the state of resolving.
* `Positional.Setting.ofScopes`: the setting of given scopes.
* `Session.runPositional`: reads, resolves and runs a program in a setting.

## Design notes

Blocks and functions of such a program still open frames by name, so a variable declared inside it
cannot be read by position.
-/

namespace Lox

namespace Positional

/-- The open scopes, with the frames that belong to them. -/
structure Setting where
  frames : Frames
  env : Env
  resolution : Scope.Indexed.Resolution

def globalFrame (globals : List (String × Value)) : Frame :=
  .indexed #[] ((Table.empty.insert "clock" (.native .indexedClock)).insertAll globals)

def Setting.start (globals : List (String × Value)) : Setting :=
  ⟨#[globalFrame globals], Machine.globals, .start true⟩

/-- Declares a variable in the innermost scope and gives it a value in the innermost frame. -/
def Setting.declare (s : Setting) (name : String) (value : Value) : Setting :=
  let token := Token.ident name 1
  let declaring : Scope.Indexed.Resolving (Option Nat) := do
    Scope.Indexed.Resolving.declare token
    Scope.Indexed.Resolving.define token
    Scope.Indexed.Resolving.index? name
  match declaring s.resolution with
  | .ok (some index) r =>
    match Frames.Indexed.defineAt s.frames s.env index value with
    | .ok frames => { s with frames := frames, resolution := r }
    | .error _ => { s with resolution := r }
  | .ok none r => { s with resolution := r }
  | .error _ r => { s with resolution := r }

def Setting.openScope (s : Setting) (vars : List (String × Value)) : Setting :=
  let opened : Setting :=
    { frames := s.frames.push Frames.Indexed.emptyFrame
      env := s.frames.size :: s.env
      resolution := { s.resolution with scopes := .empty :: s.resolution.scopes } }
  vars.foldl (fun s entry => s.declare entry.1 entry.2) opened

/-- The setting of given scopes, outermost first. -/
def Setting.ofScopes (globals : List (String × Value))
    (scopes : List (List (String × Value))) : Setting :=
  scopes.foldl Setting.openScope (.start globals)

def closeScopes : Nat → Scope.Indexed.Resolving Unit
  | 0 => pure ()
  | n + 1 => do
    Scope.Indexed.Resolving.closeScope
    closeScopes n

/-- A program as text or as trees. -/
inductive Program where
  | text (source : String)
  | trees (statements : List Stmt)

/-- What came of running a program: the references it makes and how the run ended, if it was run. -/
structure Ran where
  rows : List Scope.Indexed.Row
  outcome? : Option (Except Exit Value)

end Positional

namespace Session

/-- Runs statements in order and yields the value of the last; a fault is reported and ends them. -/
def interpretPlain : Value → List Stmt → Step Value
  | last, [] => return last
  | _, stmt :: stmts => fun s =>
    match runNode (.stmt stmt) s with
    | .ok value s' => interpretPlain value stmts s'
    | .error (.fault token fault) s' => runFaulted token fault s'
    | .error e s' => .error e s'

/-- Runs statements in an environment, as a program or as the body of a block. -/
def runIn (env : Env) (asBlock : Bool) (statements : List Stmt) : Step Value := do
  if asBlock then
    onMachine (Run.within env (Eval.execAll (Eval.run Eval.bound) statements))
    return .nil
  else
    modify fun s => { s with machine := { s.machine with env := env } }
    interpretPlain .nil statements

def readProgram : Positional.Program → Step (List Stmt)
  | .text source => parse source
  | .trees statements => return statements

/-- Resolves a program by position from a state of resolving, and closes its open scopes. Statements
are resolved only if there was no error so far. -/
def resolvePositional (r : Scope.Indexed.Resolution) (statements : List Stmt) :
    Step (List Stmt × Scope.Indexed.Resolution) := do
  let resolved : Scope.Indexed.Resolved :=
    if ← stopped then ⟨.ok [], r⟩ else Scope.Indexed.resolveFrom r statements
  fileAll ((resolved.reached.notices.drop r.notices.length).map .scoping)
  match resolved.statements with
  | .error d => throw (.defect d)
  | .ok statements =>
    let seen := resolved.reached.notices.length
    let closed := match Positional.closeScopes r.scopes.length resolved.reached with
      | .ok _ r' => r'
      | .error _ r' => r'
    fileAll ((closed.notices.drop seen).map .scoping)
    return (statements, closed)

def runPositional (setting : Positional.Setting) (program : Positional.Program)
    (asBlock : Bool) : Step Positional.Ran := do
  modify fun s => { s with machine := { s.machine with frames := setting.frames } }
  fileAll (setting.resolution.notices.map .scoping)
  let statements ← readProgram program
  let (statements, resolution) ← resolvePositional setting.resolution statements
  if ← stopped then return ⟨resolution.rows, none⟩
  fun s =>
    match runIn setting.env asBlock statements s with
    | .ok value s' => .ok ⟨resolution.rows, some (.ok value)⟩ s'
    | .error e s' => .ok ⟨resolution.rows, some (.error e)⟩ s'

end Session

end Lox
