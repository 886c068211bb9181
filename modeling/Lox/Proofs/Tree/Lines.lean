import Lox.Tree
import Mathlib.Logic.Function.Defs

/-!
# Trees on other lines

The line of a token says where it stands in its text. Trees are compared up to lines by giving all
their tokens other ones.
-/

namespace Lox

def Token.relined (f : Nat → Nat) (t : Token) : Token := { t with line := f t.line }

mutual

def Expr.relined (f : Nat → Nat) : Expr → Expr
  | .gap => .gap
  | .literal value => .literal value
  | .grouping body => .grouping (body.relined f)
  | .unary op right => .unary (op.relined f) (right.relined f)
  | .binary left op right => .binary (left.relined f) (op.relined f) (right.relined f)
  | .logical left op right => .logical (left.relined f) (op.relined f) (right.relined f)
  | .variable name address => .variable (name.relined f) address
  | .assign name address value => .assign (name.relined f) address (value.relined f)
  | .call callee paren arguments =>
    .call (callee.relined f) (paren.relined f) (Expr.relinedAll f arguments)
  | .lambda params body => .lambda (params.map (Token.relined f)) (Stmt.relinedAll f body)
  | .get object name => .get (object.relined f) (name.relined f)
  | .set object name value => .set (object.relined f) (name.relined f) (value.relined f)
  | .this keyword address => .this (keyword.relined f) address
  | .super keyword method address => .super (keyword.relined f) (method.relined f) address
  | .inner keyword method address => .inner (keyword.relined f) (method.relined f) address

def Expr.relinedAll (f : Nat → Nat) : List Expr → List Expr
  | [] => []
  | e :: es => e.relined f :: Expr.relinedAll f es

def Stmt.relined (f : Nat → Nat) : Stmt → Stmt
  | .gap => .gap
  | .bare value => .bare (value.relined f)
  | .expression value => .expression (value.relined f)
  | .print value => .print (value.relined f)
  | .varDecl name none => .varDecl (name.relined f) none
  | .varDecl name (some init) => .varDecl (name.relined f) (some (init.relined f))
  | .block body => .block (Stmt.relinedAll f body)
  | .ifStmt condition onTrue none => .ifStmt (condition.relined f) (onTrue.relined f) none
  | .ifStmt condition onTrue (some onFalse) =>
    .ifStmt (condition.relined f) (onTrue.relined f) (some (onFalse.relined f))
  | .whileStmt condition body => .whileStmt (condition.relined f) (body.relined f)
  | .breakStmt keyword => .breakStmt (keyword.relined f)
  | .funDecl declared => .funDecl (declared.relined f)
  | .classDecl name superclass? methods =>
    .classDecl (name.relined f) (superclass?.map fun (parent, address) => (parent.relined f, address))
      (Function.relinedAll f methods)
  | .returnStmt keyword none => .returnStmt (keyword.relined f) none
  | .returnStmt keyword (some value) => .returnStmt (keyword.relined f) (some (value.relined f))

def Stmt.relinedAll (f : Nat → Nat) : List Stmt → List Stmt
  | [] => []
  | s :: ss => s.relined f :: Stmt.relinedAll f ss

def Function.relined (f : Nat → Nat) : Function → Function
  | ⟨name, params, body, isStatic, isGetter⟩ =>
    ⟨name.relined f, params.map (Token.relined f), Stmt.relinedAll f body, isStatic, isGetter⟩

def Function.relinedAll (f : Nat → Nat) : List Function → List Function
  | [] => []
  | d :: ds => d.relined f :: Function.relinedAll f ds

end

@[simp] theorem Token.lexeme_relined (f : Nat → Nat) (t : Token) :
    (t.relined f).lexeme = t.lexeme := rfl

@[simp] theorem Token.kind_relined (f : Nat → Nat) (t : Token) : (t.relined f).kind = t.kind := rfl

@[simp] theorem Token.relined_id : Token.relined id = id := rfl

@[simp] theorem Token.relined_relined (f g : Nat → Nat) (t : Token) :
    (t.relined f).relined g = t.relined (g ∘ f) := rfl

theorem Token.map_relined_relined (f g : Nat → Nat) (ts : List Token) :
    (ts.map (Token.relined f)).map (Token.relined g) = ts.map (Token.relined (g ∘ f)) := by
  rw [List.map_map]
  rfl

/-! ### Lines that stay -/

mutual

@[simp] theorem Expr.relined_id : ∀ e : Expr, e.relined id = e
  | .gap | .literal _ | .variable .. | .this .. | .super .. | .inner .. => rfl
  | .grouping body => congrArg Expr.grouping body.relined_id
  | .unary op right => congrArg (Expr.unary op) right.relined_id
  | .binary left _ right | .logical left _ right | .set left _ right => by
    simp only [Expr.relined, left.relined_id, right.relined_id, Token.relined_id, id_eq]
  | .assign name address value => congrArg (Expr.assign name address) value.relined_id
  | .call callee paren arguments => by
    simp only [Expr.relined, callee.relined_id, Expr.relinedAll_id arguments, Token.relined_id, id_eq]
  | .lambda params body => by
    simp only [Expr.relined, Stmt.relinedAll_id body, Token.relined_id, List.map_id]
  | .get object name => by
    simp only [Expr.relined, object.relined_id, Token.relined_id, id_eq]

@[simp] theorem Expr.relinedAll_id : ∀ es : List Expr, Expr.relinedAll id es = es
  | [] => rfl
  | e :: es => by rw [Expr.relinedAll, e.relined_id, Expr.relinedAll_id es]

@[simp] theorem Stmt.relined_id : ∀ s : Stmt, s.relined id = s
  | .gap | .varDecl _ none | .breakStmt _ | .returnStmt _ none => rfl
  | .bare value => congrArg Stmt.bare value.relined_id
  | .expression value => congrArg Stmt.expression value.relined_id
  | .print value => congrArg Stmt.print value.relined_id
  | .varDecl name (some init) => by
    simp only [Stmt.relined, init.relined_id, Token.relined_id, id_eq]
  | .block body => congrArg Stmt.block (Stmt.relinedAll_id body)
  | .ifStmt condition onTrue none => by
    simp only [Stmt.relined, condition.relined_id, onTrue.relined_id]
  | .ifStmt condition onTrue (some onFalse) => by
    simp only [Stmt.relined, condition.relined_id, onTrue.relined_id, onFalse.relined_id]
  | .whileStmt condition body => by
    simp only [Stmt.relined, condition.relined_id, body.relined_id]
  | .funDecl declared => congrArg Stmt.funDecl declared.relined_id
  | .classDecl name superclass? methods => by
    cases superclass? <;>
      simp only [Stmt.relined, Function.relinedAll_id methods, Token.relined_id, id_eq,
        Option.map_some, Option.map_none]
  | .returnStmt keyword (some value) => by
    simp only [Stmt.relined, value.relined_id, Token.relined_id, id_eq]

@[simp] theorem Stmt.relinedAll_id : ∀ ss : List Stmt, Stmt.relinedAll id ss = ss
  | [] => rfl
  | s :: ss => by rw [Stmt.relinedAll, s.relined_id, Stmt.relinedAll_id ss]

@[simp] theorem Function.relined_id : ∀ d : Function, d.relined id = d
  | ⟨name, params, body, isStatic, isGetter⟩ => by
    simp only [Function.relined, Stmt.relinedAll_id body, Token.relined_id, id_eq, List.map_id]

@[simp] theorem Function.relinedAll_id : ∀ ds : List Function, Function.relinedAll id ds = ds
  | [] => rfl
  | d :: ds => by rw [Function.relinedAll, d.relined_id, Function.relinedAll_id ds]

end

/-! ### Lines that are changed twice -/

section Twice

variable (f g : Nat → Nat)

mutual

theorem Expr.relined_relined : ∀ e : Expr, (e.relined f).relined g = e.relined (g ∘ f)
  | .gap | .literal _ | .variable .. | .this .. | .super .. | .inner .. => rfl
  | .grouping body => congrArg Expr.grouping body.relined_relined
  | .unary op right => congrArg (Expr.unary (op.relined (g ∘ f))) right.relined_relined
  | .binary left _ right | .logical left _ right | .set left _ right => by
    simp only [Expr.relined, left.relined_relined, right.relined_relined, Token.relined_relined]
  | .assign name address value => by
    simp only [Expr.relined, value.relined_relined, Token.relined_relined]
  | .call callee paren arguments => by
    simp only [Expr.relined, callee.relined_relined, Expr.relinedAll_relinedAll arguments,
      Token.relined_relined]
  | .lambda params body => by
    simp only [Expr.relined, Stmt.relinedAll_relinedAll body, Token.map_relined_relined]
  | .get object name => by
    simp only [Expr.relined, object.relined_relined, Token.relined_relined]

theorem Expr.relinedAll_relinedAll : ∀ es : List Expr,
    Expr.relinedAll g (Expr.relinedAll f es) = Expr.relinedAll (g ∘ f) es
  | [] => rfl
  | e :: es => by
    simp only [Expr.relinedAll, e.relined_relined, Expr.relinedAll_relinedAll es]

theorem Stmt.relined_relined : ∀ s : Stmt, (s.relined f).relined g = s.relined (g ∘ f)
  | .gap | .varDecl _ none | .breakStmt _ | .returnStmt _ none => rfl
  | .bare value => congrArg Stmt.bare value.relined_relined
  | .expression value => congrArg Stmt.expression value.relined_relined
  | .print value => congrArg Stmt.print value.relined_relined
  | .varDecl name (some init) => by
    simp only [Stmt.relined, init.relined_relined, Token.relined_relined]
  | .block body => congrArg Stmt.block (Stmt.relinedAll_relinedAll body)
  | .ifStmt condition onTrue none => by
    simp only [Stmt.relined, condition.relined_relined, onTrue.relined_relined]
  | .ifStmt condition onTrue (some onFalse) => by
    simp only [Stmt.relined, condition.relined_relined, onTrue.relined_relined,
      onFalse.relined_relined]
  | .whileStmt condition body => by
    simp only [Stmt.relined, condition.relined_relined, body.relined_relined]
  | .funDecl declared => congrArg Stmt.funDecl declared.relined_relined
  | .classDecl name superclass? methods => by
    cases superclass? <;>
      simp only [Stmt.relined, Function.relinedAll_relinedAll methods, Token.relined_relined,
        Option.map_some, Option.map_none]
  | .returnStmt keyword (some value) => by
    simp only [Stmt.relined, value.relined_relined, Token.relined_relined]

theorem Stmt.relinedAll_relinedAll : ∀ ss : List Stmt,
    Stmt.relinedAll g (Stmt.relinedAll f ss) = Stmt.relinedAll (g ∘ f) ss
  | [] => rfl
  | s :: ss => by
    simp only [Stmt.relinedAll, s.relined_relined, Stmt.relinedAll_relinedAll ss]

theorem Function.relined_relined : ∀ d : Function, (d.relined f).relined g = d.relined (g ∘ f)
  | ⟨name, params, body, isStatic, isGetter⟩ => by
    simp only [Function.relined, Stmt.relinedAll_relinedAll body, Token.relined_relined,
      Token.map_relined_relined]

theorem Function.relinedAll_relinedAll : ∀ ds : List Function,
    Function.relinedAll g (Function.relinedAll f ds) = Function.relinedAll (g ∘ f) ds
  | [] => rfl
  | d :: ds => by
    simp only [Function.relinedAll, d.relined_relined, Function.relinedAll_relinedAll ds]

end

end Twice

end Lox
