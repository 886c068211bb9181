import Lox.Proofs.Scope.Nest

/-!
# Moments of a run

The moments at which a run comes to a node, the frames that are opened on the way, and the accesses
to variables.

## Design notes

The relations follow `Eval.step`: what is run later is related to the machine in which what comes
before it has ended. That they leave nothing out is `Policy.Lawful.step_eq`, in the module on obedience.
-/

namespace Lox

namespace Machine

/-- The machine at the start of a body: a new frame holds the given variables inside an
environment. -/
def enter (m : Machine) (env : Env) (vars : Table Value) : Machine :=
  { m with frames := m.frames.push (.named vars), env := m.frames.size :: env }

def receive (m : Machine) (this : Value) : Machine :=
  { m with frames := m.frames.push (.named (Table.empty.insert "this" this)), fresh := m.fresh + 1 }

end Machine

/-- A method with its receiver, if the receiver is given to it in the given machine. -/
def Closure.received (f : Closure) (m : Machine) : Closure :=
  { f with id := m.fresh, env := m.frames.size :: f.env }

namespace Eval

/-- Some rounds of a loop are completed. -/
inductive Rounds (depth : Nat) (condition : Expr) (body : Stmt) : Machine → Machine → Prop where
  | none {m : Machine} : Rounds depth condition body m m
  | next {m m₁ m₂ m' : Machine} {v w : Value} (hr : Rounds depth condition body m m₁)
      (hc : run depth (.expr condition) m₁ = .ok v m₂) (hv : v.isTruthy = true)
      (hb : run depth (.stmt body) m₂ = .ok w m') : Rounds depth condition body m m'

/-- Running a node gives a method its receiver. A method that is applied at once has arguments. -/
inductive Binds (depth : Nat) :
    Node → Machine → Closure → Object → Option (List Value) → Machine → Prop where
  | initializer {callee : Expr} {paren : Token} {arguments : List Expr} {m m₁ m₂ : Machine}
      {c : Class} {f : Closure} {args : List Value}
      (hc : run depth (.expr callee) m = .ok (.type c) m₁)
      (ha : evalAll (run depth) arguments m₁ = .ok args m₂) (hn : args.length = c.arity)
      (hf : c.findMethod? "init" = some f) :
      Binds depth (.expr (.call callee paren arguments)) m f ⟨m₂.fields.size, c⟩ (some args)
        { m₂ with fields := m₂.fields.push .empty }
  | chained {callee : Expr} {paren : Token} {arguments : List Expr} {m m₁ m₂ m₃ : Machine}
      {id : Nat} {before after : List Closure} {f : Closure} {o : Object} {args : List Value}
      {v : Value} (hc : run depth (.expr callee) m = .ok (.chain id (before ++ f :: after) o) m₁)
      (ha : evalAll (run depth) arguments m₁ = .ok args m₂)
      (hn : arity? (.chain id (before ++ f :: after) o) = some args.length)
      (hb : applyChain (run depth) o args before .nil m₂ = .ok v m₃) :
      Binds depth (.expr (.call callee paren arguments)) m f o (some args) m₃
  | property {object : Expr} {name : Token} {m m' : Machine} {o : Object} {f : Closure}
      (ho : run depth (.expr object) m = .ok (.object o) m')
      (hv : (m'.fields[o.id]?).bind (·.get? name.lexeme) = none)
      (hm : (o.type.findMethod? name.lexeme).isSome = true)
      (hf : o.type.methodChain name.lexeme = [f]) :
      Binds depth (.expr (.get object name)) m f o (if f.isGetter then some [] else none) m'

/-- Running a node applies a function to arguments, and its body starts with the given
variables. -/
inductive Applies (depth : Nat) :
    Node → Machine → Closure → List Value → Machine → Prop where
  | function {callee : Expr} {paren : Token} {arguments : List Expr} {m m₁ m₂ : Machine}
      {f : Closure} {args : List Value} (hc : run depth (.expr callee) m = .ok (.function f) m₁)
      (ha : evalAll (run depth) arguments m₁ = .ok args m₂) (hn : args.length = f.arity) :
      Applies depth (.expr (.call callee paren arguments)) m f args m₂
  | method {node : Node} {m m' : Machine} {f : Closure} {o : Object} {args : List Value}
      (h : Binds depth node m f o (some args) m') :
      Applies depth node m (f.received m') args (m'.receive (.object o))

/-- The variables with which the body of a function starts. -/
def Starts (f : Closure) (args : List Value) (m : Machine) (vars : Table Value) : Prop :=
  ∃ this, receiver f m = .ok this m ∧ callVars f this m.frames.size args = .ok vars

/-- Running a node comes to running another one. -/
inductive Reaches (depth : Nat) : Node → Machine → Node → Machine → Prop where
  | grouping {body : Expr} {m : Machine} : Reaches depth (.expr (.grouping body)) m (.expr body) m
  | unary {op : Token} {right : Expr} {m : Machine} :
      Reaches depth (.expr (.unary op right)) m (.expr right) m
  | binaryLeft {left right : Expr} {op : Token} {m : Machine} :
      Reaches depth (.expr (.binary left op right)) m (.expr left) m
  | binaryRight {left right : Expr} {op : Token} {m m' : Machine} {v : Value}
      (h : run depth (.expr left) m = .ok v m') :
      Reaches depth (.expr (.binary left op right)) m (.expr right) m'
  | logicalLeft {left right : Expr} {op : Token} {m : Machine} :
      Reaches depth (.expr (.logical left op right)) m (.expr left) m
  | logicalRight {left right : Expr} {op : Token} {m m' : Machine} {v : Value}
      (h : run depth (.expr left) m = .ok v m')
      (hv : (v.isTruthy == decide (op.kind = .kwOr)) = false) :
      Reaches depth (.expr (.logical left op right)) m (.expr right) m'
  | assigned {name : Token} {address : Address} {value : Expr} {m : Machine} :
      Reaches depth (.expr (.assign name address value)) m (.expr value) m
  | callee {callee : Expr} {paren : Token} {arguments : List Expr} {m : Machine} :
      Reaches depth (.expr (.call callee paren arguments)) m (.expr callee) m
  | argument {callee e : Expr} {paren : Token} {arguments before after : List Expr}
      {m m₁ m₂ : Machine} {v : Value} {vs : List Value} (he : arguments = before ++ e :: after)
      (hc : run depth (.expr callee) m = .ok v m₁)
      (ha : evalAll (run depth) before m₁ = .ok vs m₂) :
      Reaches depth (.expr (.call callee paren arguments)) m (.expr e) m₂
  | getObject {object : Expr} {name : Token} {m : Machine} :
      Reaches depth (.expr (.get object name)) m (.expr object) m
  | setObject {object value : Expr} {name : Token} {m : Machine} :
      Reaches depth (.expr (.set object name value)) m (.expr object) m
  | setValue {object value : Expr} {name : Token} {m m' : Machine} {o : Object}
      (h : run depth (.expr object) m = .ok (.object o) m') :
      Reaches depth (.expr (.set object name value)) m (.expr value) m'
  | bare {value : Expr} {m : Machine} : Reaches depth (.stmt (.bare value)) m (.expr value) m
  | expression {value : Expr} {m : Machine} :
      Reaches depth (.stmt (.expression value)) m (.expr value) m
  | print {value : Expr} {m : Machine} : Reaches depth (.stmt (.print value)) m (.expr value) m
  | initializer {name : Token} {init : Expr} {m : Machine} :
      Reaches depth (.stmt (.varDecl name (some init))) m (.expr init) m
  | condition {condition : Expr} {onTrue : Stmt} {onFalse? : Option Stmt} {m : Machine} :
      Reaches depth (.stmt (.ifStmt condition onTrue onFalse?)) m (.expr condition) m
  | onTrue {condition : Expr} {onTrue : Stmt} {onFalse? : Option Stmt} {m m' : Machine} {v : Value}
      (h : run depth (.expr condition) m = .ok v m') (hv : v.isTruthy = true) :
      Reaches depth (.stmt (.ifStmt condition onTrue onFalse?)) m (.stmt onTrue) m'
  | onFalse {condition : Expr} {onTrue onFalse : Stmt} {m m' : Machine} {v : Value}
      (h : run depth (.expr condition) m = .ok v m') (hv : v.isTruthy = false) :
      Reaches depth (.stmt (.ifStmt condition onTrue (some onFalse))) m (.stmt onFalse) m'
  | loopCondition {condition : Expr} {body : Stmt} {m m' : Machine}
      (hr : Rounds depth condition body m m') :
      Reaches depth (.stmt (.whileStmt condition body)) m (.expr condition) m'
  | loopBody {condition : Expr} {body : Stmt} {m m' m'' : Machine} {v : Value}
      (hr : Rounds depth condition body m m') (h : run depth (.expr condition) m' = .ok v m'')
      (hv : v.isTruthy = true) :
      Reaches depth (.stmt (.whileStmt condition body)) m (.stmt body) m''
  | returned {keyword : Token} {value : Expr} {m : Machine} :
      Reaches depth (.stmt (.returnStmt keyword (some value))) m (.expr value) m
  | block {body before after : List Stmt} {s : Stmt} {m m' : Machine} {u : Unit}
      (hb : body = before ++ s :: after)
      (hr : execAll (run depth) before (m.enter m.env .empty) = .ok u m') :
      Reaches depth (.stmt (.block body)) m (.stmt s) m'
  | call {node : Node} {f : Closure} {args : List Value} {vars : Table Value}
      {before after : List Stmt} {s : Stmt} {m m₁ m' : Machine} {u : Unit}
      (ha : Applies depth node m f args m₁) (hs : Starts f args m₁ vars)
      (hb : f.body = before ++ s :: after)
      (hr : execAll (run depth) before (m₁.enter f.env vars) = .ok u m') :
      Reaches depth node m (.stmt s) m'

/-- A node reads or writes a variable by its address, in the given machine. A class reads its
superclass. -/
inductive Accesses (depth : Nat) : Node → Machine → Token → Address → Machine → Prop where
  | «variable» {name : Token} {address : Address} {m : Machine} :
      Accesses depth (.expr (.variable name address)) m name address m
  | this {keyword : Token} {address : Address} {m : Machine} :
      Accesses depth (.expr (.this keyword address)) m keyword address m
  | assign {name : Token} {address : Address} {value : Expr} {m m' : Machine} {v : Value}
      (h : run depth (.expr value) m = .ok v m') :
      Accesses depth (.expr (.assign name address value)) m name address m'
  | superclass {name parent : Token} {address : Address} {methods : List Function} {m : Machine} :
      Accesses depth (.stmt (.classDecl name (some (parent, address)) methods)) m parent address m

end Eval

open Eval

/-- A node that is about to be run, with the bound on the computations nested in it. -/
structure Moment where
  depth : Nat
  node : Node
  machine : Machine

/-- The moments that running some nodes comes to, innermost first: each of them is reached from the
next. -/
inductive Visited (roots : Moment → Prop) : List Moment → Prop where
  | root {v : Moment} (h : roots v) : Visited roots [v]
  | nested {depth : Nat} {node node' : Node} {m m' : Machine} {outer : List Moment}
      (h : Visited roots (⟨depth + 1, node, m⟩ :: outer)) (hr : Reaches depth node m node' m') :
      Visited roots (⟨depth, node', m'⟩ :: ⟨depth + 1, node, m⟩ :: outer)

section

variable (roots : Moment → Prop)

/-- A frame is opened for a scope, inside an environment. -/
inductive Opened : FrameId → Opening → Env → Prop where
  | block {depth : Nat} {body : List Stmt} {m : Machine} {outer : List Moment}
      (h : Visited roots (⟨depth + 1, .stmt (.block body), m⟩ :: outer)) :
      Opened m.frames.size (.block body) m.env
  | call {depth : Nat} {node : Node} {f : Closure} {args : List Value} {vars : Table Value}
      {m m' : Machine} {outer : List Moment}
      (h : Visited roots (⟨depth + 1, node, m⟩ :: outer))
      (ha : Applies depth node m f args m') (hs : Starts f args m' vars) :
      Opened m'.frames.size (.call f.params f.body) f.env
  | receiver {depth : Nat} {node : Node} {f : Closure} {o : Object} {args? : Option (List Value)}
      {m m' : Machine} {outer : List Moment}
      (h : Visited roots (⟨depth + 1, node, m⟩ :: outer))
      (hb : Binds depth node m f o args? m') : Opened m'.frames.size .receiver f.env
  | parent {depth : Nat} {name : Token} {superclass : Token × Address} {methods : List Function}
      {c : Class} {u : Unit} {m m₁ m₂ : Machine} {outer : List Moment}
      (h : Visited roots
        (⟨depth + 1, .stmt (.classDecl name (some superclass) methods), m⟩ :: outer))
      (hp : parentClass (some superclass) m = .ok (some c) m₁)
      (hd : Run.define name name.lexeme .nil m₁ = .ok u m₂) :
      Opened m₂.frames.size .parent m₂.env

/-- The frames of an environment are opened for the given scopes, each inside the frames after it.
The last frame holds the global variables. -/
inductive Layered : Env → List Opening → Prop where
  | globals : Layered Machine.globals []
  | cons {id : FrameId} {opening : Opening} {env : Env} {openings : List Opening}
      (ho : Opened roots id opening env) (h : Layered env openings) :
      Layered (id :: env) (opening :: openings)

end

/-- At a moment a variable with an initializer is about to be declared in a frame. -/
def Moment.Declares (v : Moment) (frame : FrameId) (name : String) : Prop :=
  ∃ token init, v.node = .stmt (.varDecl token (some init)) ∧ token.lexeme = name ∧
    v.machine.env.head? = some frame

/-- The initializer of a variable is being evaluated at one of the moments. -/
def Pending (moments : List Moment) (frame : FrameId) (name : String) : Prop :=
  ∃ v ∈ moments, v.Declares frame name

/-- The declaration of a variable was reached in a frame and ended without giving it a value. -/
def Abandoned (roots : Moment → Prop) (frame : FrameId) (name : String) : Prop :=
  ∃ v outer exit m, Visited roots (v :: outer) ∧ v.Declares frame name ∧
    run v.depth v.node v.machine = .error exit m

end Lox
