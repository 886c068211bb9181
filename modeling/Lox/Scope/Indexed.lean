import Lox.Defect
import Lox.Scope
import Lox.Tree

/-!
# Resolving names by position

A second way to resolve names: every local declaration gets a position of its own, and the address of
a reference is the depth of the scope together with that position.

## Main definitions

* `Scope.Indexed.Mark`, `Scope.Indexed.Row`: a declared name with its position, and a reference.
* `Scope.Indexed.Resolution`: the state of the walk, with the next free position.
* `Expr.resolveIndexed`, `Stmt.resolveIndexed`: the walk.
* `Scope.Indexed.resolve`: resolves the statements of a program.

## Design notes

Classes, properties and the receiver forms have no addresses by position: a program that holds one is
refused. Unlike resolving by name, a reference to a variable inside its own initializer is a flaw when
the declaration is in the innermost scope. Positions are never given twice.
-/

namespace Lox

namespace Scope.Indexed

/-- What is known of a name declared in a scope. -/
structure Mark where
  /-- Whether the declaration is complete. -/
  defined : Bool
  /-- Whether something refers to the name. -/
  used : Bool
  /-- The position of the declaration. -/
  index : Nat
deriving DecidableEq, Repr

/-- A reference to a local variable: its form, its token, the scopes to pass and the position. -/
structure Row where
  form : Form
  token : Token
  depth : Nat
  index : Nat
deriving DecidableEq, Repr

/-- The state of resolving. -/
structure Resolution where
  /-- The open scopes, innermost first. -/
  scopes : List (Table Mark)
  inFunction : Bool
  /-- Whether unused variables are reported. -/
  warns : Bool
  /-- The next free position. -/
  nextIndex : Nat
  notices : List Notice
  rows : List Row
deriving DecidableEq, Repr

/-- The state before anything is resolved. -/
def Resolution.start (warns : Bool) : Resolution := ⟨[], false, warns, 0, [], []⟩

abbrev Resolving := EStateM Defect Resolution

/-- Marks the nearest declaration of a name as used; yields its depth, its position and the marked
stack. -/
def markNearest (name : String) : List (Table Mark) → Option (Nat × Nat × List (Table Mark))
  | [] => none
  | scope :: outer =>
    match scope.get? name with
    | some mark => some (0, mark.index, scope.insert name { mark with used := true } :: outer)
    | none =>
      (markNearest name outer).map fun (depth, index, marked) =>
        (depth + 1, index, scope :: marked)

namespace Resolving

def report (notice : Notice) : Resolving Unit :=
  modify fun r => { r with notices := r.notices ++ [notice] }

def openScope : Resolving Unit :=
  modify fun r => { r with scopes := .empty :: r.scopes }

/-- Closes the innermost scope and reports its complete declarations that nothing refers to. -/
def closeScope : Resolving Unit := do
  let r ← get
  match r.scopes with
  | [] => throw .noOpenScope
  | scope :: outer =>
    let unused := scope.entries.filterMap fun entry =>
      if entry.2.defined && !entry.2.used then some (Notice.unused entry.1) else none
    set { r with
      scopes := outer
      notices := if r.warns then r.notices ++ unused else r.notices }

def declare (name : Token) : Resolving Unit := do
  match (← get).scopes with
  | [] => pure ()
  | scope :: outer =>
    if scope.contains name.lexeme then
      report (.flawed name (.alreadyDeclared name.lexeme))
    modify fun r =>
      { r with
        scopes := scope.insert name.lexeme ⟨false, false, r.nextIndex⟩ :: outer
        nextIndex := r.nextIndex + 1 }

/-- Completes the declaration of a name in the innermost scope. -/
def define (name : Token) : Resolving Unit := do
  match (← get).scopes with
  | [] => pure ()
  | scope :: outer =>
    match scope.get? name.lexeme with
    | some mark =>
      modify fun r =>
        { r with scopes := scope.insert name.lexeme { mark with defined := true } :: outer }
    | none => throw (.undeclared name.lexeme)

/-- The position that the innermost scope gives a name. -/
def index? (name : String) : Resolving (Option Nat) := do
  match (← get).scopes with
  | [] => return none
  | scope :: _ => return (scope.get? name).map (·.index)

/-- The address of a reference. A local variable is marked as used and the reference is listed. -/
def locate (form : Form) (token : Token) : Resolving Address := do
  let r ← get
  match markNearest token.lexeme r.scopes with
  | some (depth, index, scopes) =>
    set { r with scopes := scopes, rows := r.rows ++ [Row.mk form token depth index] }
    return .slot depth index
  | none => return .free

/-- The address of a variable that is read. Reading it before its declaration is complete is a flaw
when the declaration is in the innermost scope. -/
def locateRead (name : Token) : Resolving Address := do
  match (← get).scopes with
  | scope :: _ =>
    if (scope.get? name.lexeme).any fun mark => !mark.defined then
      report (.flawed name .ownInitializer)
  | [] => pure ()
  locate .variable name

def inBlock {α : Type} (body : Resolving α) : Resolving α := do
  openScope
  let a ← body
  closeScope
  return a

def introduce : List Token → Resolving Unit
  | [] => pure ()
  | name :: names => do
    declare name
    define name
    introduce names

def inFunction {α : Type} (params : List Token) (body : Resolving α) : Resolving α := do
  let outer := (← get).inFunction
  modify fun r => { r with inFunction := true }
  openScope
  introduce params
  let a ← body
  closeScope
  modify fun r => { r with inFunction := outer }
  return a

def checkReturn (keyword : Token) : Resolving Unit := do
  unless (← get).inFunction do report (.flawed keyword .returnOutsideFunction)

end Resolving

end Scope.Indexed

open Scope.Indexed Scope.Indexed.Resolving

mutual

def Expr.resolveIndexed : Expr → Resolving Expr
  | .gap => throw .absentNode
  | .literal value => return .literal value
  | .grouping body => return .grouping (← body.resolveIndexed)
  | .unary op right => return .unary op (← right.resolveIndexed)
  | .binary left op right =>
    return .binary (← left.resolveIndexed) op (← right.resolveIndexed)
  | .logical left op right =>
    return .logical (← left.resolveIndexed) op (← right.resolveIndexed)
  | .variable name _ => return .variable name (← locateRead name)
  | .assign name _ value => do
    let value ← value.resolveIndexed
    return .assign name (← locate .assign name) value
  | .call callee paren arguments =>
    return .call (← callee.resolveIndexed) paren (← Expr.resolveAllIndexed arguments)
  | .lambda params body =>
    return .lambda params (← Resolving.inFunction params (Stmt.resolveAllIndexed body))
  | .get .. => throw (.noIndexedRule "get_expr")
  | .set .. => throw (.noIndexedRule "set_expr")
  | .this .. => throw (.noIndexedRule "this_expr")
  | .super .. => throw (.noIndexedRule "super_expr")
  | .inner .. => throw (.noIndexedRule "inner_expr")

/-- Resolves expressions from left to right. -/
def Expr.resolveAllIndexed : List Expr → Resolving (List Expr)
  | [] => return []
  | e :: es => return (← e.resolveIndexed) :: (← Expr.resolveAllIndexed es)

def Stmt.resolveIndexed : Stmt → Resolving Stmt
  | .gap => throw .absentNode
  | .bare value => return .bare (← value.resolveIndexed)
  | .expression value => return .expression (← value.resolveIndexed)
  | .print value => return .print (← value.resolveIndexed)
  | .varDecl name none => do
    declare name
    define name
    return .varDecl name none
  | .varDecl name (some init) => do
    declare name
    let init ← init.resolveIndexed
    define name
    return .varDecl name (some init)
  | .block body => return .block (← inBlock (Stmt.resolveAllIndexed body))
  | .ifStmt condition onTrue none =>
    return .ifStmt (← condition.resolveIndexed) (← onTrue.resolveIndexed) none
  | .ifStmt condition onTrue (some onFalse) =>
    return .ifStmt (← condition.resolveIndexed) (← onTrue.resolveIndexed)
      (some (← onFalse.resolveIndexed))
  | .whileStmt condition body =>
    return .whileStmt (← condition.resolveIndexed) (← body.resolveIndexed)
  | .breakStmt keyword => return .breakStmt keyword
  | .funDecl ⟨name, params, body, isStatic, isGetter⟩ => do
    declare name
    define name
    let body ← Resolving.inFunction params (Stmt.resolveAllIndexed body)
    return .funDecl ⟨name, params, body, isStatic, isGetter⟩
  | .classDecl .. => throw (.noIndexedRule "class_stmt")
  | .returnStmt keyword none => do
    checkReturn keyword
    return .returnStmt keyword none
  | .returnStmt keyword (some value) => do
    checkReturn keyword
    return .returnStmt keyword (some (← value.resolveIndexed))

def Stmt.resolveAllIndexed : List Stmt → Resolving (List Stmt)
  | [] => return []
  | s :: ss => return (← s.resolveIndexed) :: (← Stmt.resolveAllIndexed ss)

end

namespace Scope.Indexed

/-- The outcome of resolving a program: the resolved statements or the defect that ended the walk, and
the state that was reached. -/
structure Resolved where
  statements : Except Defect (List Stmt)
  reached : Resolution

/-- Resolves the statements of a program, starting from a state of the walk. -/
def resolveFrom (r : Resolution) (statements : List Stmt) : Resolved :=
  match Stmt.resolveAllIndexed statements r with
  | .ok resolved reached => ⟨.ok resolved, reached⟩
  | .error defect reached => ⟨.error defect, reached⟩

def resolve (warns : Bool) (statements : List Stmt) : Resolved :=
  resolveFrom (.start warns) statements

end Scope.Indexed

end Lox
