import Lox.Token

/-!
# Syntax trees

Expressions and statements of the language.

## Main definitions

* `Address`: where the variable of a name is found at run time.
* `Expr`, `Stmt`, `Function`: expressions, statements and named functions.

## Design notes

A node that names a variable carries its address. Trees come from the grammar with every address
`free`; resolving a program fills in the addresses of local variables. A statement list may hold
`Stmt.gap` where a declaration could not be read, a tree made by hand `Expr.gap` where an expression is
missing, and `Stmt.bare` stands for an expression in the place of a statement without a semicolon of
its own; none of them occurs in a tree that was read without complaint.
-/

namespace Lox

/-- Where the variable of a name is found. -/
inductive Address where
  /-- In no local scope: the name is looked up among the global variables. -/
  | free
  /-- By name, in the frame that is `depth` links out. -/
  | hops (depth : Nat)
  /-- By position, in the frame that is `depth` links out. -/
  | slot (depth index : Nat)
deriving DecidableEq, Repr

mutual

/-- An expression. -/
inductive Expr where
  /-- An expression that is missing. -/
  | gap
  | literal (value : Literal)
  | grouping (body : Expr)
  | unary (op : Token) (right : Expr)
  | binary (left : Expr) (op : Token) (right : Expr)
  | logical (left : Expr) (op : Token) (right : Expr)
  | variable (name : Token) (address : Address)
  | assign (name : Token) (address : Address) (value : Expr)
  | call (callee : Expr) (paren : Token) (arguments : List Expr)
  | lambda (params : List Token) (body : List Stmt)
  | get (object : Expr) (name : Token)
  | set (object : Expr) (name : Token) (value : Expr)
  | this (keyword : Token) (address : Address)
  | super (keyword method : Token) (address : Address)
  | inner (keyword method : Token) (address : Address)

/-- A statement. -/
inductive Stmt where
  /-- A declaration that could not be read. -/
  | gap
  /-- An expression in the place of a statement; its value is the value of the statement. -/
  | bare (value : Expr)
  | expression (value : Expr)
  | print (value : Expr)
  | varDecl (name : Token) (init? : Option Expr)
  | block (body : List Stmt)
  | ifStmt (condition : Expr) (onTrue : Stmt) (onFalse? : Option Stmt)
  | whileStmt (condition : Expr) (body : Stmt)
  | breakStmt (keyword : Token)
  | funDecl (declared : Function)
  | classDecl (name : Token) (superclass? : Option (Token × Address)) (methods : List Function)
  | returnStmt (keyword : Token) (value? : Option Expr)

/-- A named function: a function declaration or a method of a class. -/
structure Function where
  name : Token
  params : List Token
  body : List Stmt
  /-- Whether a method belongs to the class and not to its instances. -/
  isStatic : Bool
  /-- Whether it was declared without a parameter list; such a method runs when it is read. -/
  isGetter : Bool

end

instance : Inhabited Expr := ⟨.literal .nil⟩

instance : Inhabited Stmt := ⟨.gap⟩

instance : Inhabited Function := ⟨⟨Token.endMark 0, [], [], false, false⟩⟩

end Lox
