import Lox.Machine

/-!
# Running programs

## Main definitions

* `Node`: an expression or a statement.
* `Eval.step`: one step of running a node, given how its parts are run.
* `Eval.run`: running a node, with nesting bounded by a number.

## Design notes

`step` is not recursive: the parts of a node, and the bodies of the functions it calls, are run by
its argument. `run n` closes it up to nesting depth `n`; a run that reaches the bound ends with
`Exit.exhausted`, and any larger bound gives the same result otherwise. A `while` loop may take at
most as many rounds as the bound, so that a run that would not end reaches it as well. How deep a host
lets computations nest is not part of the model.

A method that is redefined along the superclasses is run from the root class down, each body in turn
on the same arguments; the result is that of the last.
-/

namespace Lox

/-- What can be run. -/
inductive Node where
  | expr (e : Expr)
  | stmt (s : Stmt)

namespace Eval

abbrev Recur := Node → Run Value

/-! ### Operators -/

/-- The doubles of two operands; both must pass as numbers. -/
def operands (op : Token) (left right : Value) : Run (Float × Float) := do
  unless left.isNumber && right.isNumber do Run.fail op .operandNotNumber
  let x ← Run.ofExcept left.toDouble
  let y ← Run.ofExcept right.toDouble
  return (x, y)

def compareNumbers (op : Token) (left right : Value) (test : Float → Float → Bool) : Run Value := do
  let (x, y) ← operands op left right
  return .bool (test x y)

def combineNumbers (op : Token) (left right : Value) (f : Float → Float → Float) : Run Value := do
  let (x, y) ← operands op left right
  return .num (f x y)

/-- Adds two values: texts are joined if one operand is a text, all else is added as numbers. -/
def add (left right : Value) : Run Value := do
  match left, right with
  | .text _, _ | _, .text _ =>
    let s ← Run.ofExcept left.operandText
    let t ← Run.ofExcept right.operandText
    return .text (s ++ t)
  | _, _ =>
    let x ← Run.ofExcept left.toDouble
    let y ← Run.ofExcept right.toDouble
    return .num (x + y)

def divide (op : Token) (left right : Value) : Run Value := do
  unless left.isNumber && right.isNumber do Run.fail op .operandNotNumber
  if right.equals (.int 0) then Run.fail op .divisionByZero
  combineNumbers op left right (· / ·)

/-- The value of a binary operator; a token that is none yields `nil`. -/
def binary (op : Token) (left right : Value) : Run Value :=
  match op.kind with
  | .greater => compareNumbers op left right fun x y => x > y
  | .greaterEqual => compareNumbers op left right fun x y => x ≥ y
  | .less => compareNumbers op left right fun x y => x < y
  | .lessEqual => compareNumbers op left right fun x y => x ≤ y
  | .bangEqual => return .bool (!left.equals right)
  | .equalEqual => return .bool (left.equals right)
  | .minus => combineNumbers op left right (· - ·)
  | .plus => add left right
  | .slash => divide op left right
  | .star => combineNumbers op left right (· * ·)
  | _ => return .nil

/-- The value of a prefix operator; a token that is none yields `nil`. -/
def unary (op : Token) (right : Value) : Run Value :=
  match op.kind with
  | .minus => do
    unless right.isNumber do Run.fail op .operandNotNumber
    return .num (-(← Run.ofExcept right.toDouble))
  | .bang => return .bool (!right.isTruthy)
  | _ => return .nil

/-! ### Functions -/

/-- The receiver that a function finds in its own environment, `nil` if there is none. -/
def receiver (f : Closure) : Run Value := do
  match (← get).frames.getAt f.env 0 "this" with
  | .ok v => return v
  | .error (.defect d) => Run.breakDown d
  | .error (.fault _) => return .nil

/-- A variable for each parameter, with the argument at the same position. -/
def bindParams (vars : Table Value) : List Token → List Value → Except Defect (Table Value)
  | [], _ => .ok vars
  | _ :: _, [] => .error .missingArgument
  | p :: ps, a :: as => bindParams (vars.insert p.lexeme a) ps as

/-- The variables of a call before the parameters: the receiver and, if it is an instance, `inner`. -/
def receiverVars (f : Closure) (this : Value) (frame : FrameId) : Except Defect (Table Value) :=
  let vars := Table.empty.insert "this" this
  match this with
  | .object _ =>
    match f.name? with
    | some _ => .ok (vars.insert "inner" (.native (.inner frame)))
    | none => .error .unnamedFunction
  | _ => .ok vars

def callVars (f : Closure) (this : Value) (frame : FrameId) (args : List Value) :
    Except Defect (Table Value) := do
  let vars ← receiverVars f this frame
  if f.isGetter then return vars else bindParams vars f.params args

def execAll (rec : Recur) : List Stmt → Run Unit
  | [] => pure ()
  | s :: ss => do
    let _ ← rec (.stmt s)
    execAll rec ss

/-- Runs statements in a new frame with the given variables inside an environment. -/
def execIn (rec : Recur) (env : Env) (vars : Table Value) (body : List Stmt) : Run Unit := do
  let frame ← Run.openFrame vars
  Run.within (frame :: env) (execAll rec body)

/-- The result of a body that was run: a body without result yields `nil`, and a built-in function
may deliver one. -/
def deliver (body : Run Unit) : Run Value := fun m =>
  match body m with
  | .ok _ m' => .ok .nil m'
  | .error (.delivered value) m' => .ok value m'
  | .error e m' => .error e m'

/-- Runs the body of a function. An initializer yields its receiver. -/
def apply (rec : Recur) (f : Closure) (args : List Value) : Run Value := do
  let this ← receiver f
  let vars ← Run.ofExcept (callVars f this (← get).frames.size args)
  let result ← deliver (execIn rec f.env vars f.body)
  if f.isInit then receiver f else return result

/-- Runs the body of an anonymous function in a frame that holds the parameters alone. -/
def applyPlain (rec : Recur) (env : Env) (params : List Token) (body : List Stmt)
    (args : List Value) : Run Value := do
  let vars ← Run.ofExcept (bindParams .empty params args)
  deliver (execIn rec env vars body)

/-- A function with a receiver: its environment gets a frame that holds the receiver. -/
def bindReceiver (f : Closure) (this : Value) : Run Closure := do
  let frame ← Run.openFrame (Table.empty.insert "this" this)
  return { f with id := ← Run.fresh, env := frame :: f.env }

/-- Runs the methods of a chain in turn, on the same receiver and arguments. -/
def applyChain (rec : Recur) (this : Object) (args : List Value) :
    List Closure → Value → Run Value
  | [], result => return result
  | m :: ms, _ => do
    let result ← Run.catchReturn do
      let bound ← bindReceiver m (.object this)
      apply rec bound args
    applyChain rec this args ms result

/-- Makes an instance and runs its initializer. -/
def construct (rec : Recur) (c : Class) (args : List Value) : Run Value := do
  let o ← Run.newObject c
  match c.findMethod? "init" with
  | some init =>
    let bound ← bindReceiver init (.object o)
    let _ ← apply rec bound args
    return .object o
  | none => return .object o

def applyNative (n : Native) (args : List Value) : Run Value :=
  match n with
  | .clock | .indexedClock => return .num (← Run.readClock)
  | .deliver => throw (.delivered (args.headD .nil))
  | .inner _ => return .nil

/-- The number of arguments that a value takes when it is called; `none` if it cannot be called. -/
def arity? : Value → Option Nat
  | .function f => some f.arity
  | .type c => some c.arity
  | .chain _ methods _ => some ((methods.head?.map (·.arity)).getD 0)
  | .native n => some n.arity
  | _ => none

def call (rec : Recur) (callee : Value) (args : List Value) : Run Value :=
  match callee with
  | .function f => apply rec f args
  | .type c => construct rec c args
  | .chain _ methods this => applyChain rec this args methods .nil
  | .native n => applyNative n args
  | _ => return .nil

/-- Evaluates arguments from left to right. -/
def evalAll (rec : Recur) : List Expr → Run (List Value)
  | [] => return []
  | e :: es => return (← rec (.expr e)) :: (← evalAll rec es)

/-- Calls a value with arguments, after checking that it can be called with so many. -/
def callChecked (rec : Recur) (paren : Token) (callee : Value) (args : List Value) :
    Run Value := do
  match arity? callee with
  | none => Run.fail paren .notCallable
  | some arity =>
    if args.length ≠ arity then Run.fail paren (.wrongArity arity args.length)
    Run.catchReturn (call rec callee args)

/-! ### Properties -/

/-- The property of an instance: a field, a method, or the result of a getter. A method that several
classes declare is the chain of them all. -/
def property (rec : Recur) (o : Object) (name : Token) : Run Value := do
  match ← Run.field? o name.lexeme with
  | some value => return value
  | none =>
    match o.type.findMethod? name.lexeme with
    | none => Run.fail name (.undefinedProperty name.lexeme)
    | some _ =>
      match o.type.methodChain name.lexeme with
      | [m] =>
        let bound ← bindReceiver m (.object o)
        if bound.isGetter then Run.catchReturn (apply rec bound [])
        else return .function bound
      | methods => return .chain (← Run.fresh) methods o

def getProperty (rec : Recur) (object : Value) (name : Token) : Run Value :=
  match object with
  | .type c =>
    match c.findStatic? name.lexeme with
    | some m => return .function m
    | none => Run.fail name (.undefinedStatic name.lexeme)
  | .object o => property rec o name
  | _ => Run.fail name .noProperties

def foundText : Option Closure → Except Defect String
  | some m => m.display
  | none => .ok "None"

/-- The method of the superclass, with the receiver of the method that refers to it. -/
def superMethod (method : Token) (address : Address) : Run Value := do
  Run.trace (.ok ("处理super表达式: " ++ method.lexeme))
  match address with
  | .hops depth =>
    Run.trace (.ok ("super作用域深度: " ++ toString depth))
    let m ← get
    let parent ← Run.ofAccess method (m.frames.getAt m.env depth "super")
    Run.trace (parent.display.map ("获取到超类: " ++ ·))
    let this ← Run.ofAccess method (m.frames.getAt m.env (depth - 1) "this")
    Run.trace (this.display.map ("获取到实例: " ++ ·))
    match parent with
    | .type c =>
      let found := c.findMethod? method.lexeme
      Run.trace ((foundText found).map (("在超类中查找方法: " ++ method.lexeme ++ ", 结果: ") ++ ·))
      match found with
      | some m => return .function (← bindReceiver m this)
      | none => Run.fail method (.undefinedInherited method.lexeme)
    | v => Run.breakDown (.noMethods v.kind)
  | _ =>
    Run.trace (.ok "super作用域深度: None")
    Run.breakDown .unresolvedSuper

/-! ### Nodes -/

def evalExpr (rec : Recur) : Expr → Run Value
  | .gap => Run.breakDown .absentNode
  | .literal value => return .ofLiteral value
  | .grouping body => rec (.expr body)
  | .unary op right => do
    let right ← rec (.expr right)
    unary op right
  | .binary left op right => do
    let left ← rec (.expr left)
    let right ← rec (.expr right)
    binary op left right
  | .logical left op right => do
    let left ← rec (.expr left)
    if left.isTruthy == decide (op.kind = .kwOr) then return left else rec (.expr right)
  | .variable name address => Run.read name address
  | .assign name address value => do
    let value ← rec (.expr value)
    Run.assign name address value
    return value
  | .call callee paren arguments => do
    let callee ← rec (.expr callee)
    let args ← evalAll rec arguments
    callChecked rec paren callee args
  | .lambda params body => do
    return .function ⟨← Run.fresh, none, params, body, (← get).env, false, false, false⟩
  | .get object name => do
    let object ← rec (.expr object)
    getProperty rec object name
  | .set object name value => do
    match ← rec (.expr object) with
    | .object o =>
      let value ← rec (.expr value)
      Run.setField o name.lexeme value
      return value
    | _ => Run.fail name .noFields
  | .this keyword address => Run.read keyword address
  | .super _ method address => superMethod method address
  | .inner keyword method _ => do
    Run.trace (.ok ("处理inner表达式: " ++ method.lexeme))
    Run.fail keyword .noSubclass

/-- The value of an initializer. An error that a variable of the declared name is to blame for is
passed over if the enclosing environment has a value for the name, or if there is none. -/
def initializer (rec : Recur) (name : Token) (init : Expr) : Run Value := fun m =>
  match rec (.expr init) m with
  | .error (.fault token fault) m' =>
    if token.lexeme = name.lexeme then
      match m'.env with
      | [] => .ok .nil m'
      | [_] => .ok .nil m'
      | _ :: outer =>
        match m'.frames.get outer name.lexeme with
        | .ok value => .ok value m'
        | .error _ => .error (.fault token fault) m'
    else .error (.fault token fault) m'
  | r => r

/-- Repeats a body while a condition holds, for at most so many rounds. -/
def loop (rec : Recur) (condition : Expr) (body : Stmt) : Nat → Run Value
  | 0 => throw .exhausted
  | rounds + 1 => fun m =>
    match rec (.expr condition) m with
    | .error e m' => .error e m'
    | .ok v m' =>
      if v.isTruthy then
        match rec (.stmt body) m' with
        | .ok _ m'' => loop rec condition body rounds m''
        | .error .broke m'' => .ok .nil m''
        | .error e m'' => .error e m''
      else .ok .nil m'

/-- The function of a declaration, made in the given environment. -/
def closureOf (f : Function) (env : Env) (isInit : Bool) : Run Closure := do
  return ⟨← Run.fresh, some f.name.lexeme, f.params, f.body, env, isInit, f.isGetter, f.isStatic⟩

/-- The methods of a class by name; of several with one name the last counts. -/
def methodTable (env : Env) : List Function → Table Closure → Run (Table Closure)
  | [], table => return table
  | f :: fs, table => do
    let closure ← closureOf f env (f.name.lexeme = "init")
    methodTable env fs (table.insert f.name.lexeme closure)

def parentClass : Option (Token × Address) → Run (Option Class)
  | none => return none
  | some (name, address) => do
    match ← Run.read name address with
    | .type c => return some c
    | _ => Run.fail name .superclassNotClass

/-- The environment of the methods of a class: a frame holds the superclass, if there is one. -/
def methodEnv (env : Env) : Option Class → Run Env
  | none => return env
  | some c => do
    let frame ← Run.openFrame (Table.empty.insert "super" (.type c))
    return frame :: env

def declareClass (name : Token) (superclass? : Option (Token × Address))
    (methods : List Function) : Run Unit := do
  let parent? ← parentClass superclass?
  Run.define name name.lexeme .nil
  let env ← methodEnv (← get).env parent?
  let table ← methodTable env methods .empty
  let c := Class.mk (← Run.fresh) name.lexeme parent? (table.filter (!·.isStatic))
    (table.filter (·.isStatic))
  let m ← get
  let id ← Run.ofAccess name (m.frames.holder "assign" name.lexeme m.env)
  modify fun m => { m with frames := m.frames.write id name.lexeme (.type c) }

/-- Runs a statement; only an expression in the place of a statement has a value. -/
def execStmt (rec : Recur) (rounds : Nat) : Stmt → Run Value
  | .gap => Run.breakDown .absentNode
  | .bare value => rec (.expr value)
  | .expression value => do
    let _ ← rec (.expr value)
    return .nil
  | .print value => do
    let value ← rec (.expr value)
    Run.trace (value.print.map ("打印值: " ++ ·))
    Run.write (.shown (← Run.ofExcept value.print))
    return .nil
  | .varDecl name none => do
    Run.define name name.lexeme .nil
    return .nil
  | .varDecl name (some init) => do
    let value ← initializer rec name init
    Run.define name name.lexeme value
    return .nil
  | .block body => do
    execIn rec (← get).env .empty body
    return .nil
  | .ifStmt condition onTrue onFalse? => do
    let c ← rec (.expr condition)
    if c.isTruthy then
      let _ ← rec (.stmt onTrue)
    else if let some onFalse := onFalse? then
      let _ ← rec (.stmt onFalse)
    return .nil
  | .whileStmt condition body => loop rec condition body rounds
  | .breakStmt _ => throw .broke
  | .funDecl f => do
    let closure ← closureOf f (← get).env false
    Run.define f.name f.name.lexeme (.function closure)
    return .nil
  | .classDecl name superclass? methods => do
    declareClass name superclass? methods
    return .nil
  | .returnStmt _ none => throw (.returned .nil)
  | .returnStmt _ (some value) => do
    let value ← rec (.expr value)
    throw (.returned value)

def step (rec : Recur) (rounds : Nat) : Node → Run Value
  | .expr e => evalExpr rec e
  | .stmt s => execStmt rec rounds s

def run : Nat → Node → Run Value
  | 0, _ => throw .exhausted
  | depth + 1, node => step (run depth) depth node

end Eval

end Lox
