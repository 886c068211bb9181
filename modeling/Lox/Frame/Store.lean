import Lox.Frame

/-!
# Stores of environments

Environments that are opened, read and written by request, one request after the other. How variables
are accessed is a parameter.

## Main definitions

* `Frames.Access`: a way to access variables by name; `Frames.Access.plain` and
  `Frames.Access.strict`.
* `Store`: the environments opened so far and their frames.
* `Store.step`: the answer to a request, and the store after it.

## Design notes

A fault of the program is told at the token of the variable. A name that is read at a known depth has
no token, so its fault has no place.
-/

namespace Lox

/-- Why a request is refused: a fault, at a token if it has one, or a defect. -/
inductive Refusal where
  | fault (token? : Option Token) (fault : Fault)
  | defect (defect : Defect)
deriving DecidableEq, Repr

def Denial.told (token? : Option Token) : Denial → Refusal
  | fault f => .fault token? f
  | defect d => .defect d

namespace Frames

/-- A way to access the variables of frames by name. -/
structure Access where
  define (frames : Frames) (env : Env) (name : String) (value : Value) : Except Refusal Frames
  get (frames : Frames) (env : Env) (name : Token) : Except Refusal Value
  assign (frames : Frames) (env : Env) (name : Token) (value : Value) : Except Refusal Frames
  ancestor (env : Env) (distance : Nat) : Except Refusal Env
  getAt (frames : Frames) (env : Env) (distance : Nat) (name : String) : Except Refusal Value
  assignAt (frames : Frames) (env : Env) (distance : Nat) (name : Token) (value : Value) :
    Except Refusal Frames
  outer (frames : Frames) (env : Env) (name : String) : Value

def Access.plain : Access where
  define frames env name value := (frames.define env name value).mapError (·.told none)
  get frames env name := (frames.get env name.lexeme).mapError (·.told (some name))
  assign frames env name value := (frames.assign env name.lexeme value).mapError (·.told (some name))
  ancestor env distance := (Frames.ancestor env distance).mapError (·.told none)
  getAt frames env distance name := (frames.getAt env distance name).mapError (·.told none)
  assignAt frames env distance name value :=
    (frames.assignAt env distance name.lexeme value).mapError (·.told none)
  outer frames env name := frames.getOutside name env

/-- The access that refuses empty variables. -/
def Access.strict : Access where
  define frames env name value := (Strict.define frames env name value).mapError (·.told none)
  get frames env name := (Strict.get frames name.lexeme env).mapError (·.told (some name))
  assign frames env name value :=
    (Strict.assign frames name.lexeme value env).mapError (·.told (some name))
  ancestor env distance := (Strict.ancestor env distance).mapError (·.told none)
  getAt frames env distance name := (Strict.getAt frames env distance name).mapError (·.told none)
  assignAt frames env distance name value :=
    (Strict.assignAt frames env distance name.lexeme value).mapError (·.told none)
  outer frames env name := Strict.getOuter frames name env

end Frames

/-- What an environment can be asked for. A distance below zero counts as zero. -/
inductive Store.Call where
  | define (name : String) (value : Value)
  | get (name : Token)
  | assign (name : Token) (value : Value)
  | ancestor (distance : Int)
  | getAt (distance : Int) (name : String)
  | assignAt (distance : Int) (name : Token) (value : Value)
  | outer (name : String)

/-- What a store can be asked for: a new environment, inside another one or not, or a call of one. -/
inductive Store.Request where
  | new (parent? : Option Nat)
  | call (number : Nat) (call : Store.Call)

/-- The answer to a request. -/
inductive Store.Answer where
  | opened (number : Nat)
  | done
  | value (value : Value)
  | environment (env : Env)
  | refused (refusal : Refusal)
  /-- There is no environment of the number. -/
  | unknown

/-- The environments opened so far, by number, and their frames. -/
structure Store where
  frames : Frames
  envs : Array Env

namespace Store

def empty : Store := ⟨#[], #[]⟩

def add (s : Store) (outer : Env) : Answer × Store :=
  let (id, frames) := s.frames.addFrame (.named .empty)
  (.opened id, ⟨frames, s.envs.push (id :: outer)⟩)

def tell (s : Store) : Except Refusal Answer → Answer × Store
  | .ok answer => (answer, s)
  | .error refusal => (.refused refusal, s)

def keep (s : Store) : Except Refusal Frames → Answer × Store
  | .ok frames => (.done, { s with frames })
  | .error refusal => (.refused refusal, s)

def perform (access : Frames.Access) (s : Store) (env : Env) : Call → Answer × Store
  | .define name value => s.keep (access.define s.frames env name value)
  | .get name => s.tell ((access.get s.frames env name).map .value)
  | .assign name value => s.keep (access.assign s.frames env name value)
  | .ancestor distance => s.tell ((access.ancestor env distance.toNat).map .environment)
  | .getAt distance name => s.tell ((access.getAt s.frames env distance.toNat name).map .value)
  | .assignAt distance name value =>
    s.keep (access.assignAt s.frames env distance.toNat name value)
  | .outer name => (.value (access.outer s.frames env name), s)

def step (access : Frames.Access) (s : Store) : Request → Answer × Store
  | .new none => s.add []
  | .new (some parent) =>
    match s.envs[parent]? with
    | some env => s.add env
    | none => (.unknown, s)
  | .call number call =>
    match s.envs[number]? with
    | some env => s.perform access env call
    | none => (.unknown, s)

def after (access : Frames.Access) (requests : List Request) : Store :=
  requests.foldl (fun s request => (s.step access request).2) empty

end Store

end Lox
