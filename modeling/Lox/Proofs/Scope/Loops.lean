import Lox.Proofs.Scope.Forms

/-!
# Breaks and the loops around them

A break belongs to the innermost loop around it in the body of its function. Whether there is one can be
read off the tree, and resolving does not change it.
-/

namespace Lox

mutual

/-- Whether every break in an expression belongs to a loop of its own function. -/
def Expr.isConfined : Expr → Bool
  | .grouping body => body.isConfined
  | .unary _ right => right.isConfined
  | .binary left _ right => left.isConfined && right.isConfined
  | .logical left _ right => left.isConfined && right.isConfined
  | .assign _ _ value => value.isConfined
  | .call callee _ arguments => callee.isConfined && Expr.areConfined arguments
  | .lambda _ body => Stmt.areConfined false body
  | .get object _ => object.isConfined
  | .set object _ value => object.isConfined && value.isConfined
  | _ => true

/-- Whether every break in some expressions belongs to a loop of its own function. -/
def Expr.areConfined : List Expr → Bool
  | [] => true
  | e :: es => e.isConfined && Expr.areConfined es

/-- Whether every break in a statement belongs to a loop of its own function, the statement itself
standing in a loop or not. -/
def Stmt.isConfined (inLoop : Bool) : Stmt → Bool
  | .bare value => value.isConfined
  | .expression value => value.isConfined
  | .print value => value.isConfined
  | .varDecl _ (some init) => init.isConfined
  | .block body => Stmt.areConfined inLoop body
  | .ifStmt condition onTrue none => condition.isConfined && onTrue.isConfined inLoop
  | .ifStmt condition onTrue (some onFalse) =>
    condition.isConfined && (onTrue.isConfined inLoop && onFalse.isConfined inLoop)
  | .whileStmt condition body => condition.isConfined && body.isConfined true
  | .breakStmt _ => inLoop
  | .funDecl f => f.isConfined
  | .classDecl _ _ methods => Function.areConfined methods
  | .returnStmt _ (some value) => value.isConfined
  | _ => true

/-- Whether every break in some statements belongs to a loop of its own function. -/
def Stmt.areConfined (inLoop : Bool) : List Stmt → Bool
  | [] => true
  | s :: ss => s.isConfined inLoop && Stmt.areConfined inLoop ss

def Function.isConfined : Function → Bool
  | ⟨_, _, body, _, _⟩ => Stmt.areConfined false body

/-- Whether every break in the bodies of some functions belongs to a loop of its own function. -/
def Function.areConfined : List Function → Bool
  | [] => true
  | f :: fs => f.isConfined && Function.areConfined fs

end

theorem Expr.areConfined_iff {es : List Expr} :
    Expr.areConfined es = true ↔ ∀ e ∈ es, e.isConfined = true := by
  induction es with
  | nil => simp [Expr.areConfined]
  | cons e es ih => simp [Expr.areConfined, ih]

theorem Stmt.areConfined_iff {inLoop : Bool} {ss : List Stmt} :
    Stmt.areConfined inLoop ss = true ↔ ∀ s ∈ ss, s.isConfined inLoop = true := by
  induction ss with
  | nil => simp [Stmt.areConfined]
  | cons s ss ih => simp [Stmt.areConfined, ih]

theorem Function.isConfined_eq (f : Function) : f.isConfined = Stmt.areConfined false f.body := by
  cases f
  rfl

theorem Function.areConfined_iff {fs : List Function} :
    Function.areConfined fs = true ↔ ∀ f ∈ fs, Stmt.areConfined false f.body = true := by
  induction fs with
  | nil => simp [Function.areConfined]
  | cons f fs ih => simp [Function.areConfined, Function.isConfined_eq, ih]

mutual

theorem Expr.isConfined_unaddressed : ∀ e : Expr, e.unaddressed.isConfined = e.isConfined
  | .gap | .literal _ | .variable .. | .this .. | .super .. | .inner .. => rfl
  | .grouping body | .unary _ body | .assign _ _ body | .get body _ => body.isConfined_unaddressed
  | .binary left _ right | .logical left _ right | .set left _ right =>
    congrArg₂ and left.isConfined_unaddressed right.isConfined_unaddressed
  | .call callee _ arguments =>
    congrArg₂ and callee.isConfined_unaddressed (Expr.areConfined_unaddressed arguments)
  | .lambda _ body => Stmt.areConfined_unaddressed body false

theorem Expr.areConfined_unaddressed : ∀ es : List Expr,
    Expr.areConfined (Expr.unaddressedAll es) = Expr.areConfined es
  | [] => rfl
  | e :: es => congrArg₂ and e.isConfined_unaddressed (Expr.areConfined_unaddressed es)

theorem Stmt.isConfined_unaddressed : ∀ (s : Stmt) (inLoop : Bool),
    s.unaddressed.isConfined inLoop = s.isConfined inLoop
  | .gap, _ | .varDecl _ none, _ | .breakStmt _, _ | .returnStmt _ none, _ => rfl
  | .bare value, _ | .expression value, _ | .print value, _ | .varDecl _ (some value), _
  | .returnStmt _ (some value), _ => value.isConfined_unaddressed
  | .block body, inLoop => Stmt.areConfined_unaddressed body inLoop
  | .ifStmt condition onTrue none, inLoop =>
    congrArg₂ and condition.isConfined_unaddressed (onTrue.isConfined_unaddressed inLoop)
  | .ifStmt condition onTrue (some onFalse), inLoop =>
    congrArg₂ and condition.isConfined_unaddressed
      (congrArg₂ and (onTrue.isConfined_unaddressed inLoop) (onFalse.isConfined_unaddressed inLoop))
  | .whileStmt condition body, _ =>
    congrArg₂ and condition.isConfined_unaddressed (body.isConfined_unaddressed true)
  | .funDecl f, _ => f.isConfined_unaddressed
  | .classDecl _ _ methods, _ => Function.areConfined_unaddressed methods

theorem Stmt.areConfined_unaddressed : ∀ (ss : List Stmt) (inLoop : Bool),
    Stmt.areConfined inLoop (Stmt.unaddressedAll ss) = Stmt.areConfined inLoop ss
  | [], _ => rfl
  | s :: ss, inLoop =>
    congrArg₂ and (s.isConfined_unaddressed inLoop) (Stmt.areConfined_unaddressed ss inLoop)

theorem Function.isConfined_unaddressed : ∀ f : Function, f.unaddressed.isConfined = f.isConfined
  | ⟨_, _, body, _, _⟩ => Stmt.areConfined_unaddressed body false

theorem Function.areConfined_unaddressed : ∀ fs : List Function,
    Function.areConfined (Function.unaddressedAll fs) = Function.areConfined fs
  | [] => rfl
  | f :: fs => congrArg₂ and f.isConfined_unaddressed (Function.areConfined_unaddressed fs)

end

/-- Resolving a program keeps its breaks in their loops. -/
theorem Scope.resolve_isConfined {warns : Bool} {statements program : List Stmt}
    (hr : (Scope.resolve warns statements).statements = .ok program) (inLoop : Bool) :
    Stmt.areConfined inLoop program = Stmt.areConfined inLoop statements := by
  rw [← Stmt.areConfined_unaddressed program, Scope.resolve_unaddressed hr,
    Stmt.areConfined_unaddressed statements]

end Lox
