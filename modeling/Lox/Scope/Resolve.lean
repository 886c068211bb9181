import Lox.Defect
import Lox.Scope
import Lox.Tree

/-!
# Resolving names

Resolving walks a program once, keeps the stack of open scopes, and gives every reference to a local
variable its address: the number of scopes between the reference and the declaration.

## Main definitions

* `Scope.Mark`, `Scope.Row`: what is known of a declared name, and a reference with its depth.
* `Scope.Resolution`: the state of the walk.
* `Expr.resolve`, `Stmt.resolve`: the walk, which returns the tree with its addresses.
* `Scope.resolve`: resolves the statements of a program.

## Design notes

The innermost scope is the first of the stack. A class opens a scope that holds `this`, inside one
that holds `super` if it has a superclass. A function opens one scope for its parameters and the
statements of its body. How deep a host lets trees nest is not part of the model.
-/

namespace Lox

namespace Scope

/-- What is known of a name declared in a scope. -/
structure Mark where
  /-- Whether the declaration is complete. -/
  defined : Bool
  /-- Whether something refers to the name. -/
  used : Bool
deriving DecidableEq, Repr

/-- What a function is declared as. -/
inductive FunctionKind where
  | function
  | initializer
  | method
deriving DecidableEq, Repr

def FunctionKind.ofMethod (name : Token) : FunctionKind :=
  if name.lexeme = "init" then .initializer else .method

/-- A reference to a local variable: its form, its token and the number of scopes to pass. -/
structure Row where
  form : Form
  token : Token
  depth : Nat
deriving DecidableEq, Repr

/-- The state of resolving. -/
structure Resolution where
  /-- The open scopes, innermost first. -/
  scopes : List (Table Mark)
  /-- The kind of the function whose body is being resolved. -/
  function? : Option FunctionKind
  inClass : Bool
  /-- Whether the initializer of a variable is being resolved. -/
  inVariable : Bool
  /-- The variable whose initializer is being resolved. -/
  declaring? : Option String
  /-- Whether unused variables are reported. -/
  warns : Bool
  notices : List Notice
  rows : List Row
deriving DecidableEq, Repr

def Resolution.start (warns : Bool) : Resolution := ⟨[], none, false, false, none, warns, [], []⟩

def Resolution.inFunction (r : Resolution) : Bool := r.function?.isSome

abbrev Resolving := EStateM Defect Resolution

/-- Marks the nearest declaration of a name as used; yields its depth and the marked stack. -/
def markNearest (name : String) : List (Table Mark) → Option (Nat × List (Table Mark))
  | [] => none
  | scope :: outer =>
    if scope.contains name then
      some (0, scope.modify name ({ · with used := true }) :: outer)
    else
      (markNearest name outer).map fun (depth, marked) => (depth + 1, scope :: marked)

namespace Resolving

def report (notice : Notice) : Resolving Unit :=
  modify fun r => { r with notices := r.notices ++ [notice] }

def openScope (names : Table Mark) : Resolving Unit :=
  modify fun r => { r with scopes := names :: r.scopes }

/-- The notices about a scope that is closed: its complete declarations that nothing refers to. -/
def unusedIn (scope : Table Mark) : List Notice :=
  (scope.entries.filter fun entry => entry.2.defined && !entry.2.used).map fun entry =>
    .unused entry.1

def closeScope : Resolving Unit := do
  let r ← get
  match r.scopes with
  | [] => throw .noOpenScope
  | scope :: outer =>
    set { r with
      scopes := outer
      notices := if r.warns then r.notices ++ unusedIn scope else r.notices }

def declare (name : Token) : Resolving Unit := do
  match (← get).scopes with
  | [] => pure ()
  | scope :: outer =>
    if scope.contains name.lexeme then
      report (.flawed name (.alreadyDeclared name.lexeme))
    modify fun r => { r with scopes := scope.insert name.lexeme ⟨false, false⟩ :: outer }

/-- Completes the declaration of a name in the innermost scope. -/
def define (name : Token) : Resolving Unit := do
  match (← get).scopes with
  | [] => pure ()
  | scope :: outer =>
    if scope.contains name.lexeme then
      modify fun r =>
        { r with scopes := scope.modify name.lexeme ({ · with defined := true }) :: outer }
    else
      throw (.undeclared name.lexeme)

def markUsed (name : String) : Resolving Unit :=
  modify fun r =>
    match markNearest name r.scopes with
    | some (_, scopes) => { r with scopes := scopes }
    | none => r

/-- The nearest scope outside the innermost one that holds a name, counted from the outermost. -/
def outerScope? (name : String) : Resolving (Option Nat) := do
  let outer := (← get).scopes.drop 1
  return (outer.findIdx? (·.contains name)).map fun i => outer.length - 1 - i

/-- The address of a reference. A local variable is marked as used and the reference is listed. -/
def locate (form : Form) (token : Token) : Resolving Address := do
  let r ← get
  match markNearest token.lexeme r.scopes with
  | some (depth, scopes) =>
    set { r with scopes := scopes, rows := r.rows ++ [Row.mk form token depth] }
    return .hops depth
  | none => return .free

/-- The address of a reference that only a class body may hold; elsewhere the flaw is reported. -/
def locateInClass (form : Form) (keyword : Token) (flaw : Flaw) : Resolving Address := do
  if (← get).inClass then locate form keyword
  else
    report (.flawed keyword flaw)
    return .free

def locateSuper (keyword : Token) : Resolving Address := do
  let r ← get
  if r.inClass && !r.scopes.any (·.contains "super") then
    report (.flawed keyword .superWithoutParent)
    return .free
  else
    locateInClass .super keyword .superOutsideClass

def introduce : List Token → Resolving Unit
  | [] => pure ()
  | name :: names => do
    declare name
    define name
    introduce names

/-- Resolves inside a new scope that holds the given names. -/
def inScope {α : Type} (names : Table Mark) (body : Resolving α) : Resolving α := do
  openScope names
  let a ← body
  closeScope
  return a

def inFunction {α : Type} (kind : FunctionKind) (params : List Token) (body : Resolving α) : Resolving α := do
  let outer? := (← get).function?
  modify fun r => { r with function? := some kind }
  let a ← inScope .empty do
    introduce params
    body
  modify fun r => { r with function? := outer? }
  return a

def inClass {α : Type} (body : Resolving α) : Resolving α := do
  let outer := (← get).inClass
  modify fun r => { r with inClass := true }
  let a ← body
  modify fun r => { r with inClass := outer }
  return a

/-- Resolves the initializer of a variable. The registers are put back however that ends. -/
def inVariable {α : Type} (name : Token) (init : Resolving α) : Resolving α := fun r =>
  let restore (r' : Resolution) : Resolution :=
    { r' with inVariable := r.inVariable, declaring? := r.declaring? }
  match init { r with inVariable := true, declaring? := some name.lexeme } with
  | .ok a r' => .ok a (restore r')
  | .error defect r' => .error defect (restore r')

/-- The scope of a name that needs no declaration and is never reported. -/
def implicit (name : String) : Table Mark := Table.empty.insert name ⟨true, true⟩

def classBody {α : Type} (hasSuper : Bool) (methods : Resolving α) : Resolving α :=
  let receiver := inScope (implicit "this") methods
  if hasSuper then inScope (implicit "super") receiver else receiver

def superclass (name : Token) : Option (Token × Address) → Resolving (Option (Token × Address))
  | none => return none
  | some (parent, _) => do
    if name.lexeme = parent.lexeme then
      report (.flawed parent .inheritsItself)
    return some (parent, ← locate .variable parent)

end Resolving

end Scope

open Scope Scope.Resolving

mutual

def Expr.resolve : Expr → Resolving Expr
  | .gap => throw .absentNode
  | .literal value => return .literal value
  | .grouping body => return .grouping (← body.resolve)
  | .unary op right => return .unary op (← right.resolve)
  | .binary left op right => return .binary (← left.resolve) op (← right.resolve)
  | .logical left op right => return .logical (← left.resolve) op (← right.resolve)
  | .variable name _ => return .variable name (← locate .variable name)
  | .assign name _ value => do
    let value ← value.resolve
    return .assign name (← locate .assign name) value
  | .call callee paren arguments =>
    return .call (← callee.resolve) paren (← Expr.resolveAll arguments)
  | .lambda params body =>
    return .lambda params (← Resolving.inFunction .function params (Stmt.resolveAll body))
  | .get object name => return .get (← object.resolve) name
  | .set object name value => do
    let value ← value.resolve
    return .set (← object.resolve) name value
  | .this keyword _ => return .this keyword (← locateInClass .this keyword .thisOutsideClass)
  | .super keyword method _ => return .super keyword method (← locateSuper keyword)
  | .inner keyword method _ =>
    return .inner keyword method (← locateInClass .inner keyword .innerOutsideClass)

/-- Resolves expressions from left to right. -/
def Expr.resolveAll : List Expr → Resolving (List Expr)
  | [] => return []
  | e :: es => return (← e.resolve) :: (← Expr.resolveAll es)

def Stmt.resolve : Stmt → Resolving Stmt
  | .gap => throw .absentNode
  | .bare value => return .bare (← value.resolve)
  | .expression value => return .expression (← value.resolve)
  | .print value => return .print (← value.resolve)
  | .varDecl name none => do
    declare name
    define name
    return .varDecl name none
  | .varDecl name (some init) => do
    declare name
    let init ← Resolving.inVariable name init.resolve
    define name
    return .varDecl name (some init)
  | .block body => return .block (← inScope .empty (Stmt.resolveAll body))
  | .ifStmt condition onTrue none =>
    return .ifStmt (← condition.resolve) (← onTrue.resolve) none
  | .ifStmt condition onTrue (some onFalse) =>
    return .ifStmt (← condition.resolve) (← onTrue.resolve) (some (← onFalse.resolve))
  | .whileStmt condition body => return .whileStmt (← condition.resolve) (← body.resolve)
  | .breakStmt keyword => return .breakStmt keyword
  | .funDecl f => do
    declare f.name
    define f.name
    return .funDecl (← f.resolve .function)
  | .classDecl name superclass? methods => Resolving.inClass do
    declare name
    define name
    let superclass? ← superclass name superclass?
    return .classDecl name superclass?
      (← classBody superclass?.isSome (Function.resolveAll methods))
  | .returnStmt keyword none => do
    unless (← get).inFunction do report (.flawed keyword .returnOutsideFunction)
    return .returnStmt keyword none
  | .returnStmt keyword (some value) => do
    unless (← get).inFunction do report (.flawed keyword .returnOutsideFunction)
    return .returnStmt keyword (some (← value.resolve))

def Stmt.resolveAll : List Stmt → Resolving (List Stmt)
  | [] => return []
  | s :: ss => return (← s.resolve) :: (← Stmt.resolveAll ss)

def Function.resolve (kind : FunctionKind) : Function → Resolving Function
  | ⟨name, params, body, isStatic, isGetter⟩ => do
    let body ← Resolving.inFunction kind params (Stmt.resolveAll body)
    return ⟨name, params, body, isStatic, isGetter⟩

def Function.resolveAll : List Function → Resolving (List Function)
  | [] => return []
  | f :: fs => return (← f.resolve (.ofMethod f.name)) :: (← Function.resolveAll fs)

end

namespace Scope

/-- The outcome of resolving a program: the resolved statements or the defect that ended the walk, and
the state that was reached. -/
structure Resolved where
  statements : Except Defect (List Stmt)
  reached : Resolution

def resolve (warns : Bool) (statements : List Stmt) : Resolved :=
  match Stmt.resolveAll statements (.start warns) with
  | .ok resolved r => ⟨.ok resolved, r⟩
  | .error defect r => ⟨.error defect, r⟩

end Scope

end Lox
