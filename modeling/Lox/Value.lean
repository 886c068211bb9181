import Lox.Defect
import Lox.Table
import Lox.Tree

/-!
# Values

What expressions evaluate to.

## Main definitions

* `Env`: the frames visible at a point of a run, innermost first.
* `Closure`, `Class`, `Object`, `Native`: functions with their environment, classes, instances and
  built-in functions.
* `Value`: all values.
* `Class.findMethod?`, `Class.methodChain`: looking methods up along the superclasses.

## Design notes

Functions, classes and chains of methods never change once made, so a value carries them whole; an
identity number tells two of them apart. Only frames and the fields of instances change: a value
refers to them by number. A class holds its superclass, so the chain of superclasses is finite.
-/

namespace Lox

abbrev FrameId := Nat

/-- The frames visible at a point of a run, innermost first. -/
abbrev Env := List FrameId

/-- A function with the environment it was made in. -/
structure Closure where
  id : Nat
  /-- The declared name; an anonymous function has none. -/
  name? : Option String
  params : List Token
  body : List Stmt
  env : Env
  /-- Whether calls yield the receiver. -/
  isInit : Bool
  /-- Whether it runs when it is read as a property. -/
  isGetter : Bool
  isStatic : Bool

namespace Closure

/-- The number of arguments that a call takes. -/
def arity (f : Closure) : Nat := if f.isGetter then 0 else f.params.length

end Closure

/-- A class with its superclass, the methods of its instances and its own methods. -/
inductive Class where
  | mk (id : Nat) (name : String) (superclass? : Option Class) (methods statics : Table Closure)

namespace Class

def id : Class → Nat
  | mk id _ _ _ _ => id

def name : Class → String
  | mk _ name _ _ _ => name

def superclass? : Class → Option Class
  | mk _ _ superclass? _ _ => superclass?

def methods : Class → Table Closure
  | mk _ _ _ methods _ => methods

def statics : Class → Table Closure
  | mk _ _ _ _ statics => statics

/-- The method that an instance of a class has under a name: the nearest one on the way up. -/
def findMethod? (name : String) : Class → Option Closure
  | mk _ _ superclass? methods _ =>
    match methods.get? name with
    | some m => some m
    | none =>
      match superclass? with
      | some c => c.findMethod? name
      | none => none

/-- The method that a class itself has under a name: the nearest one on the way up. -/
def findStatic? (name : String) : Class → Option Closure
  | mk _ _ superclass? _ statics =>
    match statics.get? name with
    | some m => some m
    | none =>
      match superclass? with
      | some c => c.findStatic? name
      | none => none

/-- A class followed by its superclasses, nearest first. -/
def lineage : Class → List Class
  | mk id name none methods statics => [mk id name none methods statics]
  | mk id name (some c) methods statics => mk id name (some c) methods statics :: c.lineage

/-- All methods that the superclasses and the class itself declare under a name, root first. -/
def methodChain (c : Class) (name : String) : List Closure :=
  (c.lineage.filterMap fun k => k.methods.get? name).reverse

/-- The number of arguments that making an instance takes. -/
def arity (c : Class) : Nat :=
  match c.findMethod? "init" with
  | some m => m.arity
  | none => 0

end Class

/-- An instance; its fields are kept under its number. -/
structure Object where
  id : Nat
  type : Class

/-- The built-in functions. -/
inductive Native where
  /-- The time in seconds. -/
  | clock
  /-- The time in seconds, as global variables by position have it. -/
  | indexedClock
  /-- Ends the function that calls it with its argument. -/
  | deliver
  /-- The function that method frames hold under `inner`; it is told apart by its frame. -/
  | inner (frame : FrameId)
deriving DecidableEq, Repr

namespace Native

/-- The number of arguments of a built-in function. -/
def arity : Native → Nat
  | deliver => 1
  | _ => 0

end Native

/-- A value. -/
inductive Value where
  | nil
  | bool (b : Bool)
  | num (x : Float)
  | int (i : Int)
  | text (s : String)
  | function (f : Closure)
  | type (c : Class)
  | object (o : Object)
  /-- The methods of one name along the superclasses of an instance, root first. -/
  | chain (id : Nat) (methods : List Closure) (receiver : Object)
  | native (n : Native)

instance : Inhabited Value := ⟨.nil⟩

namespace Value

def ofLiteral : Literal → Value
  | .nil => nil
  | .bool b => bool b
  | .num x => num x
  | .int i => int i
  | .text s => text s

def isTruthy : Value → Bool
  | nil => false
  | bool b => b
  | _ => true

def isNil : Value → Bool
  | nil => true
  | _ => false

def isNumber : Value → Bool
  | bool _ | num _ | int _ => true
  | _ => false

/-- The word for the kind of a value in the wording of defects. -/
def kind : Value → String
  | nil => "NoneType"
  | bool _ => "bool"
  | num _ => "float"
  | int _ => "int"
  | text _ => "str"
  | function _ => "LoxFunction"
  | type _ => "LoxClass"
  | object _ => "LoxInstance"
  | chain .. => "BetaStyleMethod"
  | native (.inner _) => "InnerFunction"
  | native _ => "Clock"

/-- The double of an integer; an integer beyond the range of doubles has none. -/
def doubleOfInt (i : Int) : Except Defect Float :=
  let x := Decimal.nearestInt i
  if x.isInf then .error .tooLarge else .ok x

/-- The double that a value stands for in arithmetic; truth values stand for zero and one. -/
def toDouble : Value → Except Defect Float
  | bool true => .ok 1.0
  | bool false => .ok 0.0
  | num x => .ok x
  | int i => doubleOfInt i
  | v => .error (.notReal v.kind)

/-- The exact number that a value stands for in comparisons. -/
inductive Exact where
  | int (i : Int)
  | num (x : Float)

def exactly? : Value → Option Exact
  | bool b => some (.int (if b then 1 else 0))
  | int i => some (.int i)
  | num x => some (.num x)
  | _ => none

/-- Equality of exact numbers: an integer equals the doubles of exactly that value. -/
def Exact.equals : Exact → Exact → Bool
  | int i, int j => i = j
  | num x, num y => x == y
  | int i, num x => Decimal.integral? x = some i
  | num x, int i => Decimal.integral? x = some i

/-- Equality of values: numbers by value, texts by characters, and all that has an identity by
identity. -/
def equals (a b : Value) : Bool :=
  match a.exactly?, b.exactly? with
  | some x, some y => x.equals y
  | some _, none => false
  | none, some _ => false
  | none, none =>
    match a, b with
    | nil, nil => true
    | text s, text t => s = t
    | function f, function g => f.id = g.id
    | type c, type d => c.id = d.id
    | object o, object p => o.id = p.id
    | chain i _ _, chain j _ _ => i = j
    | native m, native n => m = n
    | _, _ => false

end Value

end Lox
