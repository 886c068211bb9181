import Lox.Fault
import Lox.Value

/-!
# Frames

A frame holds the variables of one activation of a scope. Frames are numbered in the order in which
they are opened; an environment lists the frames visible at a point, innermost first.

## Main definitions

* `Frame`: variables by name, or variables by position together with global ones.
* `Frames`: all frames opened so far.
* `Frames.getAt`, `Frames.assignAt`: access at a known depth.
* `Frames.get`, `Frames.assign`: access by walking outwards.
* `Frames.Strict`, `Frames.Indexed`: access that refuses empty variables, and access by position.

## Design notes

Writing is two steps: a search that only reads and yields the number of a frame, and `Frames.write`,
which cannot fail. A search that runs out of frames is a defect; a name that no frame holds is a
fault of the program.
-/

namespace Lox

/-- The variables of one activation of a scope. -/
inductive Frame where
  | named (vars : Table Value)
  | indexed (slots : Array Value) (globals : Table Value)

/-- All frames opened so far, by number. -/
abbrev Frames := Array Frame

/-- Why access to a variable fails. -/
inductive Denial where
  | fault (fault : Fault)
  | defect (defect : Defect)
deriving DecidableEq, Repr

namespace Frames

def lacks {α : Type} (kind : FrameKind) (operation : String) : Except Denial α :=
  .error (.defect (.frameLacks kind operation))

/-- The environment `distance` links out; the one past the outermost frame is empty. -/
def ancestor (env : Env) (distance : Nat) : Except Denial Env :=
  if distance ≤ env.length then .ok (env.drop distance) else lacks .absent "enclosing"

def frameAt (frames : Frames) (env : Env) (distance : Nat) (operation : String) :
    Except Denial (FrameId × Frame) := do
  match ← ancestor env distance with
  | [] => lacks .absent operation
  | id :: _ =>
    match frames[id]? with
    | some frame => .ok (id, frame)
    | none => lacks .absent operation

/-! ### Variables by name -/

def held? (frames : Frames) (id : FrameId) (name : String) : Option Value :=
  match frames[id]? with
  | some (.named vars) => vars.get? name
  | _ => none

def write (frames : Frames) (id : FrameId) (name : String) (value : Value) : Frames :=
  frames.modify id fun
    | .named vars => .named (vars.insert name value)
    | frame => frame

/-- The frame `distance` links out, which must hold variables by name. -/
def namedAt (frames : Frames) (env : Env) (distance : Nat) (operation : String) :
    Except Denial FrameId := do
  let (id, frame) ← frames.frameAt env distance "values"
  match frame with
  | .named _ => .ok id
  | .indexed .. => lacks .indexed operation

def getAt (frames : Frames) (env : Env) (distance : Nat) (name : String) :
    Except Denial Value := do
  let id ← frames.namedAt env distance "get_at"
  return (frames.held? id name).getD .nil

def assignAt (frames : Frames) (env : Env) (distance : Nat) (name : String) (value : Value) :
    Except Denial Frames := do
  let id ← frames.namedAt env distance "assign_at"
  return frames.write id name value

def declaring (frames : Frames) (env : Env) : Except Denial FrameId :=
  frames.namedAt env 0 "define"

def define (frames : Frames) (env : Env) (name : String) (value : Value) :
    Except Denial Frames := do
  let id ← frames.declaring env
  return frames.write id name value

def holder (frames : Frames) (operation name : String) : Env → Except Denial FrameId
  | [] => .error (.fault (.undefinedVariable name))
  | id :: outer =>
    match frames[id]? with
    | some (.named vars) =>
      if vars.contains name then .ok id else frames.holder operation name outer
    | some (.indexed ..) => lacks .indexed operation
    | none => lacks .absent operation

/-- The value of the nearest variable of a name. A variable that is `nil` counts as not
initialized. -/
def get (frames : Frames) (env : Env) (name : String) : Except Denial Value := do
  let id ← frames.holder "get" name env
  match (frames.held? id name).getD .nil with
  | .nil => .error (.fault (.uninitializedVariable name))
  | value => .ok value

/-- Gives the nearest variable of a name a value. -/
def assign (frames : Frames) (env : Env) (name : String) (value : Value) :
    Except Denial Frames := do
  let id ← frames.holder "assign" name env
  return frames.write id name value

/-- The value of the nearest variable of a name outside the innermost frame, `nil` if there is
none. -/
def getOutside (frames : Frames) (name : String) : Env → Value
  | [] => .nil
  | [_] => .nil
  | _ :: next :: outer =>
    match frames.held? next name with
    | some value => value
    | none => frames.getOutside name (next :: outer)

def addFrame (frames : Frames) (frame : Frame) : FrameId × Frames :=
  (frames.size, frames.push frame)

/-! ### Variables by name, with a stricter reading at a depth -/

namespace Strict

/-- The names that may be read while they are `nil`. -/
def exempt (name : String) : Bool := name = "super" || name = "this"

/-- The environment `distance` links out, found link by link. -/
def ancestor : Env → Nat → Except Denial Env
  | env, 0 => .ok env
  | [], _ + 1 => lacks .absent "enclosing"
  | _ :: outer, distance + 1 => ancestor outer distance

/-- The innermost frame of an environment and its variables. -/
def vars (frames : Frames) (operation : String) : Env → Except Denial (FrameId × Table Value)
  | [] => lacks .absent "values"
  | id :: _ =>
    match frames[id]? with
    | some (.named vars) => .ok (id, vars)
    | some (.indexed ..) => lacks .indexed operation
    | none => lacks .absent "values"

def setVars (frames : Frames) (id : FrameId) (vars : Table Value) : Frames :=
  frames.setIfInBounds id (.named vars)

/-- Declares a variable in the innermost frame. -/
def define (frames : Frames) (env : Env) (name : String) (value : Value) :
    Except Denial Frames := do
  let (id, vars) ← vars frames "define" env
  return setVars frames id (vars.insert name value)

/-- The value that was read under a name, unless it is `nil` and must not be read then. -/
def checked (name : String) (value : Value) : Except Denial Value :=
  if value.isNil && !exempt name then .error (.fault (.uninitializedVariable name)) else .ok value

def getAt (frames : Frames) (env : Env) (distance : Nat) (name : String) :
    Except Denial Value := do
  let (_, vars) ← vars frames "get_at" (← ancestor env distance)
  checked name ((vars.get? name).getD .nil)

def assignAt (frames : Frames) (env : Env) (distance : Nat) (name : String) (value : Value) :
    Except Denial Frames := do
  let (id, vars) ← vars frames "assign_at" (← ancestor env distance)
  return setVars frames id (vars.insert name value)

def get (frames : Frames) (name : String) : Env → Except Denial Value
  | [] => .error (.fault (.undefinedVariable name))
  | id :: outer =>
    match frames[id]? with
    | some (.named vars) =>
      match vars.get? name with
      | some .nil => .error (.fault (.uninitializedVariable name))
      | some value => .ok value
      | none => get frames name outer
    | some (.indexed ..) => lacks .indexed "get"
    | none => lacks .absent "get"

def assign (frames : Frames) (name : String) (value : Value) : Env → Except Denial Frames
  | [] => .error (.fault (.undefinedVariable name))
  | id :: outer =>
    match frames[id]? with
    | some (.named vars) =>
      if vars.contains name then .ok (setVars frames id (vars.insert name value))
      else assign frames name value outer
    | some (.indexed ..) => lacks .indexed "assign"
    | none => lacks .absent "assign"

def getByName (frames : Frames) (name : String) : Env → Value
  | [] => .nil
  | id :: outer =>
    match frames.held? id name with
    | some value => value
    | none => getByName frames name outer

/-- The value of the nearest variable of a name in the enclosing environment. -/
def getOuter (frames : Frames) (name : String) (env : Env) : Value :=
  match env with
  | [] => .nil
  | _ :: outer => getByName frames name outer

end Strict

/-! ### Variables by position -/

namespace Indexed

def emptyFrame : Frame := .indexed #[] .empty

def update (frames : Frames) (id : FrameId)
    (f : Array Value → Table Value → Array Value × Table Value) : Frames :=
  frames.modify id fun
    | .indexed slots globals =>
      let (slots, globals) := f slots globals
      .indexed slots globals
    | frame => frame

def frameAt (frames : Frames) (env : Env) (distance : Nat) (operation : String) :
    Except Denial (FrameId × Array Value × Table Value) := do
  let (id, frame) ← Frames.frameAt frames env distance operation
  match frame with
  | .indexed slots globals => .ok (id, slots, globals)
  | .named _ => lacks .named operation

def padTo (slots : Array Value) (index : Nat) : Array Value :=
  slots ++ Array.replicate (index + 1 - slots.size) Value.nil

/-- Gives a position a value, with `nil` in the positions before it that had none. A negative position
counts from the end. -/
def defineAt (frames : Frames) (env : Env) (index : Int) (value : Value) :
    Except Denial Frames := do
  let (id, slots, _) ← frameAt frames env 0 "define_at_index"
  match index with
  | .ofNat i => return update frames id fun slots globals => ((padTo slots i).setIfInBounds i value, globals)
  | .negSucc i =>
    if i < slots.size then
      return update frames id fun slots globals => (slots.setIfInBounds (slots.size - 1 - i) value, globals)
    else .error (.defect .slotOutOfRange)

def getAt (frames : Frames) (env : Env) (distance : Nat) (index : Int) : Except Denial Value := do
  let (_, slots, _) ← frameAt frames env distance "get_at_index"
  match index with
  | .ofNat i =>
    match slots[i]? with
    | some value => .ok value
    | none => .error (.defect (.noSuchSlot index))
  | .negSucc _ => .error (.defect (.noSuchSlot index))

/-- The frame `distance` links out, which must have the given position. -/
def slotHolder (frames : Frames) (env : Env) (distance : Nat) (index : Int) :
    Except Denial (FrameId × Nat) := do
  let (id, slots, _) ← frameAt frames env distance "assign_at_index"
  match index with
  | .ofNat i => if i < slots.size then .ok (id, i) else .error (.defect (.noSuchSlot index))
  | .negSucc _ => .error (.defect (.noSuchSlot index))

def writeSlot (frames : Frames) (id : FrameId) (index : Nat) (value : Value) : Frames :=
  update frames id fun slots globals => (slots.setIfInBounds index value, globals)

/-- Gives an existing position of the frame `distance` links out a value. -/
def assignAt (frames : Frames) (env : Env) (distance : Nat) (index : Int) (value : Value) :
    Except Denial Frames := do
  let (id, i) ← slotHolder frames env distance index
  return writeSlot frames id i value

def writeGlobal (frames : Frames) (id : FrameId) (name : String) (value : Value) : Frames :=
  update frames id fun slots globals => (slots, globals.insert name value)

def defineGlobal (frames : Frames) (env : Env) (name : String) (value : Value) :
    Except Denial Frames := do
  let (id, _, _) ← frameAt frames env 0 "define_global"
  return writeGlobal frames id name value

def getGlobal (frames : Frames) (env : Env) (name : String) : Except Denial Value := do
  let (_, _, globals) ← frameAt frames env 0 "get_global"
  match globals.get? name with
  | some value => .ok value
  | none => .error (.fault (.undefinedGlobal name))

def globalHolder (frames : Frames) (env : Env) (name : String) : Except Denial FrameId := do
  let (id, _, globals) ← frameAt frames env 0 "assign_global"
  if globals.contains name then .ok id else .error (.fault (.undefinedGlobal name))

/-- Gives a global variable that is defined a value. -/
def assignGlobal (frames : Frames) (env : Env) (name : String) (value : Value) :
    Except Denial Frames := do
  let id ← globalHolder frames env name
  return writeGlobal frames id name value

end Indexed

end Frames

end Lox
