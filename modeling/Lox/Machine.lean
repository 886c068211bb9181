import Lox.Frame
import Lox.Line
import Lox.Value.Text

/-!
# The machine

The state in which programs run, and the steps from which running them is built.

## Main definitions

* `Machine`: frames, fields of instances, the current environment and the output so far.
* `Clock`: the readings of a clock, one after the other.
* `Exit`: the ways in which a computation ends other than with a value.
* `Run`: a computation on the machine.

## Design notes

The frame numbered zero holds the global variables. The current environment is part of the state;
`Run.within` changes it for a computation and puts it back however the computation ends.
-/

namespace Lox

/-- The readings of a clock, from the next one on. -/
structure Clock where
  reading : Nat → Float

namespace Clock

def next (clock : Clock) : Clock := ⟨fun i => clock.reading (i + 1)⟩

def still (time : Float) : Clock := ⟨fun _ => time⟩

instance : Coe Float Clock := ⟨still⟩

instance (n : Nat) : OfNat Clock n := ⟨still (OfNat.ofNat n)⟩

end Clock

/-- The state of a run. -/
structure Machine where
  frames : Frames
  /-- The fields of the instances, by number. -/
  fields : Array (Table Value)
  /-- The frames visible at present. -/
  env : Env
  /-- The next identity number. -/
  fresh : Nat
  /-- Whether the run is traced. -/
  traced : Bool
  clock : Clock
  out : Array Line

namespace Machine

def globalId : FrameId := 0

def globals : Env := [globalId]

def withGlobals (frame : Frame) (traced : Bool) (clock : Clock) : Machine where
  frames := #[frame]
  fields := #[]
  env := globals
  fresh := 0
  traced := traced
  clock := clock
  out := #[]

/-- The machine before any program has run: the only global variable is the clock. -/
def start (traced : Bool) (clock : Clock) : Machine :=
  withGlobals (.named (Table.empty.insert "clock" (.native .clock))) traced clock

def globalTable (m : Machine) : Table Value :=
  match m.frames[Machine.globalId]? with
  | some (.named vars) => vars
  | _ => .empty

end Machine

/-- The ways in which a computation ends other than with a value. -/
inductive Exit where
  /-- A return statement unwinds to the call. -/
  | returned (value : Value)
  /-- A built-in function ends the function that called it. -/
  | delivered (value : Value)
  /-- A break statement unwinds to its loop. -/
  | broke
  /-- The program made an error at a token. -/
  | fault (token : Token) (fault : Fault)
  | defect (defect : Defect)
  /-- The bound on nested computations was reached. -/
  | exhausted

abbrev Run := EStateM Exit Machine

namespace Run

def fail {α : Type} (token : Token) (fault : Fault) : Run α := throw (.fault token fault)

def breakDown {α : Type} (defect : Defect) : Run α := throw (.defect defect)

def ofExcept {α : Type} : Except Defect α → Run α
  | .ok a => pure a
  | .error d => breakDown d

/-- Ends with the denial of a result, if it has one; a fault is reported at the token. -/
def ofAccess {α : Type} (token : Token) : Except Denial α → Run α
  | .ok a => pure a
  | .error (.fault f) => fail token f
  | .error (.defect d) => breakDown d

def write (line : Line) : Run Unit :=
  modify fun m => { m with out := m.out.push line }

def trace (text : Except Defect String) : Run Unit := do
  if (← get).traced then
    write (.trace (← ofExcept text))

/-- A new identity number. -/
def fresh : Run Nat :=
  modifyGet fun m => (m.fresh, { m with fresh := m.fresh + 1 })

def readClock : Run Float :=
  modifyGet fun m => (m.clock.reading 0, { m with clock := m.clock.next })

def openFrame (vars : Table Value) : Run FrameId :=
  modifyGet fun m => (m.frames.size, { m with frames := m.frames.push (.named vars) })

def newObject (type : Class) : Run Object :=
  modifyGet fun m =>
    (⟨m.fields.size, type⟩, { m with fields := m.fields.push .empty })

/-- Runs a computation in an environment; the current one is put back however it ends. -/
def within {α : Type} (env : Env) (body : Run α) : Run α := fun m =>
  let outer := m.env
  match body { m with env := env } with
  | .ok a m' => .ok a { m' with env := outer }
  | .error e m' => .error e { m' with env := outer }

/-- Takes the value of a return statement as the value of the computation. -/
def catchReturn (body : Run Value) : Run Value := fun m =>
  match body m with
  | .error (.returned value) m' => .ok value m'
  | r => r

/-- Declares a variable in the current environment. -/
def define (token : Token) (name : String) (value : Value) : Run Unit := do
  let m ← get
  let id ← ofAccess token (m.frames.declaring m.env)
  modify fun m => { m with frames := m.frames.write id name value }

def read (name : Token) (address : Address) : Run Value := do
  let m ← get
  ofAccess name <|
    match address with
    | .hops depth => m.frames.getAt m.env depth name.lexeme
    | .slot depth index => Frames.Indexed.getAt m.frames m.env depth index
    | .free =>
      match m.frames[Machine.globalId]? with
      | some (.indexed ..) => Frames.Indexed.getGlobal m.frames Machine.globals name.lexeme
      | _ => m.frames.get Machine.globals name.lexeme

def assign (name : Token) (address : Address) (value : Value) : Run Unit := do
  let m ← get
  match address with
  | .hops depth =>
    let id ← ofAccess name (m.frames.namedAt m.env depth "assign_at")
    modify fun m => { m with frames := m.frames.write id name.lexeme value }
  | .slot depth index =>
    let (id, i) ← ofAccess name (Frames.Indexed.slotHolder m.frames m.env depth index)
    modify fun m => { m with frames := Frames.Indexed.writeSlot m.frames id i value }
  | .free =>
    match m.frames[Machine.globalId]? with
    | some (.indexed ..) =>
      let id ← ofAccess name (Frames.Indexed.globalHolder m.frames Machine.globals name.lexeme)
      modify fun m => { m with frames := Frames.Indexed.writeGlobal m.frames id name.lexeme value }
    | _ =>
      let id ← ofAccess name (m.frames.holder "assign" name.lexeme Machine.globals)
      modify fun m => { m with frames := m.frames.write id name.lexeme value }

def field? (o : Object) (name : String) : Run (Option Value) := do
  return ((← get).fields[o.id]?).bind (·.get? name)

def setField (o : Object) (name : String) (value : Value) : Run Unit :=
  modify fun m => { m with fields := m.fields.modify o.id (·.insert name value) }

end Run

end Lox
