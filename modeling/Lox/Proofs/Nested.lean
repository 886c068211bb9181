import Lox.Machine.Eval

/-!
# What is nested in a tree
-/

namespace Lox

mutual

/-- Whether a test holds of an expression and of every node inside it. -/
def Expr.all (p : Node → Bool) : Expr → Bool
  | .gap => p (.expr .gap)
  | .literal value => p (.expr (.literal value))
  | .grouping body => p (.expr (.grouping body)) && body.all p
  | .unary op right => p (.expr (.unary op right)) && right.all p
  | .binary left op right =>
    p (.expr (.binary left op right)) && (left.all p && right.all p)
  | .logical left op right =>
    p (.expr (.logical left op right)) && (left.all p && right.all p)
  | .variable name address => p (.expr (.variable name address))
  | .assign name address value => p (.expr (.assign name address value)) && value.all p
  | .call callee paren arguments =>
    p (.expr (.call callee paren arguments)) && (callee.all p && Expr.allOf p arguments)
  | .lambda params body => p (.expr (.lambda params body)) && Stmt.allOf p body
  | .get object name => p (.expr (.get object name)) && object.all p
  | .set object name value =>
    p (.expr (.set object name value)) && (object.all p && value.all p)
  | .this keyword address => p (.expr (.this keyword address))
  | .super keyword method address => p (.expr (.super keyword method address))
  | .inner keyword method address => p (.expr (.inner keyword method address))

/-- Whether a test holds of every node in some expressions. -/
def Expr.allOf (p : Node → Bool) : List Expr → Bool
  | [] => true
  | e :: es => e.all p && Expr.allOf p es

/-- Whether a test holds of a statement and of every node inside it. -/
def Stmt.all (p : Node → Bool) : Stmt → Bool
  | .gap => p (.stmt .gap)
  | .bare value => p (.stmt (.bare value)) && value.all p
  | .expression value => p (.stmt (.expression value)) && value.all p
  | .print value => p (.stmt (.print value)) && value.all p
  | .varDecl name none => p (.stmt (.varDecl name none))
  | .varDecl name (some init) => p (.stmt (.varDecl name (some init))) && init.all p
  | .block body => p (.stmt (.block body)) && Stmt.allOf p body
  | .ifStmt condition onTrue none =>
    p (.stmt (.ifStmt condition onTrue none)) && (condition.all p && onTrue.all p)
  | .ifStmt condition onTrue (some onFalse) =>
    p (.stmt (.ifStmt condition onTrue (some onFalse))) &&
      (condition.all p && (onTrue.all p && onFalse.all p))
  | .whileStmt condition body =>
    p (.stmt (.whileStmt condition body)) && (condition.all p && body.all p)
  | .breakStmt keyword => p (.stmt (.breakStmt keyword))
  | .funDecl f => p (.stmt (.funDecl f)) && f.all p
  | .classDecl name superclass? methods =>
    p (.stmt (.classDecl name superclass? methods)) && Function.allOf p methods
  | .returnStmt keyword none => p (.stmt (.returnStmt keyword none))
  | .returnStmt keyword (some value) =>
    p (.stmt (.returnStmt keyword (some value))) && value.all p

/-- Whether a test holds of every node in some statements. -/
def Stmt.allOf (p : Node → Bool) : List Stmt → Bool
  | [] => true
  | s :: ss => s.all p && Stmt.allOf p ss

def Function.all (p : Node → Bool) : Function → Bool
  | ⟨_, _, body, _, _⟩ => Stmt.allOf p body

/-- Whether a test holds of every node in the bodies of some functions. -/
def Function.allOf (p : Node → Bool) : List Function → Bool
  | [] => true
  | f :: fs => f.all p && Function.allOf p fs

end

def Node.isPresent : Node → Bool
  | .expr .gap | .stmt .gap => false
  | _ => true

section Mono

variable {p q : Node → Bool}

mutual

theorem Expr.all_mono (h : ∀ node, p node = true → q node = true) :
    ∀ e : Expr, e.all p = true → e.all q = true
  | .gap, he | .literal _, he | .variable .., he | .this .., he | .super .., he | .inner .., he =>
    h _ he
  | .grouping body, he | .unary _ body, he | .assign _ _ body, he | .get body _, he => by
    simp only [Expr.all, Bool.and_eq_true] at he ⊢
    exact ⟨h _ he.1, Expr.all_mono h body he.2⟩
  | .binary left _ right, he | .logical left _ right, he | .set left _ right, he => by
    simp only [Expr.all, Bool.and_eq_true] at he ⊢
    exact ⟨h _ he.1, Expr.all_mono h left he.2.1, Expr.all_mono h right he.2.2⟩
  | .call callee _ arguments, he => by
    simp only [Expr.all, Bool.and_eq_true] at he ⊢
    exact ⟨h _ he.1, Expr.all_mono h callee he.2.1, Expr.allOf_mono h arguments he.2.2⟩
  | .lambda _ body, he => by
    simp only [Expr.all, Bool.and_eq_true] at he ⊢
    exact ⟨h _ he.1, Stmt.allOf_mono h body he.2⟩

theorem Expr.allOf_mono (h : ∀ node, p node = true → q node = true) :
    ∀ es : List Expr, Expr.allOf p es = true → Expr.allOf q es = true
  | [], _ => rfl
  | e :: es, he => by
    simp only [Expr.allOf, Bool.and_eq_true] at he ⊢
    exact ⟨Expr.all_mono h e he.1, Expr.allOf_mono h es he.2⟩

theorem Stmt.all_mono (h : ∀ node, p node = true → q node = true) :
    ∀ s : Stmt, s.all p = true → s.all q = true
  | .gap, hs | .varDecl _ none, hs | .breakStmt _, hs | .returnStmt _ none, hs => h _ hs
  | .bare value, hs | .expression value, hs | .print value, hs | .varDecl _ (some value), hs
  | .returnStmt _ (some value), hs => by
    simp only [Stmt.all, Bool.and_eq_true] at hs ⊢
    exact ⟨h _ hs.1, Expr.all_mono h value hs.2⟩
  | .block body, hs => by
    simp only [Stmt.all, Bool.and_eq_true] at hs ⊢
    exact ⟨h _ hs.1, Stmt.allOf_mono h body hs.2⟩
  | .ifStmt condition onTrue none, hs | .whileStmt condition onTrue, hs => by
    simp only [Stmt.all, Bool.and_eq_true] at hs ⊢
    exact ⟨h _ hs.1, Expr.all_mono h condition hs.2.1, Stmt.all_mono h onTrue hs.2.2⟩
  | .ifStmt condition onTrue (some onFalse), hs => by
    simp only [Stmt.all, Bool.and_eq_true] at hs ⊢
    exact ⟨h _ hs.1, Expr.all_mono h condition hs.2.1, Stmt.all_mono h onTrue hs.2.2.1,
      Stmt.all_mono h onFalse hs.2.2.2⟩
  | .funDecl f, hs => by
    simp only [Stmt.all, Bool.and_eq_true] at hs ⊢
    exact ⟨h _ hs.1, Function.all_mono h f hs.2⟩
  | .classDecl _ _ methods, hs => by
    simp only [Stmt.all, Bool.and_eq_true] at hs ⊢
    exact ⟨h _ hs.1, Function.allOf_mono h methods hs.2⟩

theorem Stmt.allOf_mono (h : ∀ node, p node = true → q node = true) :
    ∀ ss : List Stmt, Stmt.allOf p ss = true → Stmt.allOf q ss = true
  | [], _ => rfl
  | s :: ss, hs => by
    simp only [Stmt.allOf, Bool.and_eq_true] at hs ⊢
    exact ⟨Stmt.all_mono h s hs.1, Stmt.allOf_mono h ss hs.2⟩

theorem Function.all_mono (h : ∀ node, p node = true → q node = true) :
    ∀ f : Function, f.all p = true → f.all q = true
  | ⟨_, _, body, _, _⟩, hf => Stmt.allOf_mono h body hf

theorem Function.allOf_mono (h : ∀ node, p node = true → q node = true) :
    ∀ fs : List Function, Function.allOf p fs = true → Function.allOf q fs = true
  | [], _ => rfl
  | f :: fs, hf => by
    simp only [Function.allOf, Bool.and_eq_true] at hf ⊢
    exact ⟨Function.all_mono h f hf.1, Function.allOf_mono h fs hf.2⟩

end

end Mono

/-- The names that a statement adds to the scope it stands in. -/
def Stmt.declared : Stmt → List String
  | .varDecl name _ => [name.lexeme]
  | .funDecl f => [f.name.lexeme]
  | .classDecl name _ _ => [name.lexeme]
  | .ifStmt _ onTrue none => onTrue.declared
  | .ifStmt _ onTrue (some onFalse) => onTrue.declared ++ onFalse.declared
  | .whileStmt _ body => body.declared
  | _ => []

/-- Whether a function that is run when it is read as a property has no parameters. -/
def Function.isReadable (f : Function) : Bool := !f.isGetter || f.params.isEmpty

namespace Node

/-- Whether a node has a form that reading a text can yield: its branches declare nothing, its
getters have no parameters, and it does not name a method of the superclass. -/
def isReadable : Node → Bool
  | .stmt (.ifStmt condition onTrue onFalse?) =>
    (Stmt.ifStmt condition onTrue onFalse?).declared.isEmpty
  | .stmt (.whileStmt _ body) => body.declared.isEmpty
  | .stmt (.funDecl f) => f.isReadable
  | .stmt (.classDecl _ _ methods) => methods.all (·.isReadable)
  | .expr (.super ..) => false
  | _ => true

def isInstanceOnly : Node → Bool
  | .stmt (.classDecl _ _ methods) => methods.all (!·.isStatic)
  | _ => true

/-- The variable that a node itself reads, gives a value or declares. -/
def name? : Node → Option Token
  | .expr (.variable name _) => some name
  | .expr (.assign name _ _) => some name
  | .stmt (.varDecl name _) => some name
  | .stmt (.funDecl f) => some f.name
  | .stmt (.classDecl name _ _) => some name
  | _ => none

end Node

end Lox
