import Lox.Defect
import Lox.Tree

/-!
# Outlines of trees

A tree written as one line of nested parentheses, the head of each form first.

## Main definitions

* `Expr.outline`, `Stmt.outline`: the line of a tree.

## Design notes

Classes, properties and the receiver forms have no outline; a tree that holds one is refused with the
leftmost such form.
-/

namespace Lox

namespace Outline

/-- A head and its parts in parentheses, with single spaces between. -/
def form (head : String) (parts : List String) : String :=
  "(" ++ " ".intercalate (head :: parts) ++ ")"

end Outline

open Outline in
mutual

/-- The outline of an expression. Of an anonymous function only the parameters are shown. -/
def Expr.outline : Expr → Except Defect String
  | .gap => throw .absentNode
  | .literal .nil => return "nil"
  | .literal value => return value.display
  | .grouping body => return form "group" [← body.outline]
  | .unary op right => return form op.lexeme [← right.outline]
  | .binary left op right => return form op.lexeme [← left.outline, ← right.outline]
  | .logical left op right => return form op.lexeme [← left.outline, ← right.outline]
  | .variable name _ => return name.lexeme
  | .assign name _ value => return form "=" [name.lexeme, ← value.outline]
  | .call callee _ arguments =>
    return form "call" ((← callee.outline) :: (← Expr.outlines arguments))
  | .lambda params _ => return form "lambda" (params.map (·.lexeme))
  | .get .. => throw (.noOutline "get_expr")
  | .set .. => throw (.noOutline "set_expr")
  | .this .. => throw (.noOutline "this_expr")
  | .super .. => throw (.noOutline "super_expr")
  | .inner .. => throw (.noOutline "inner_expr")

/-- The outlines of expressions, from left to right. -/
def Expr.outlines : List Expr → Except Defect (List String)
  | [] => return []
  | e :: es => return (← e.outline) :: (← Expr.outlines es)

def Stmt.outline : Stmt → Except Defect String
  | .gap => throw .absentNode
  | .bare value => value.outline
  | .expression value => return form "expr" [← value.outline]
  | .print value => return form "print" [← value.outline]
  | .varDecl name none => return form "var" [name.lexeme]
  | .varDecl name (some init) => return form "var" [name.lexeme, ← init.outline]
  | .block body => return form "block" (← Stmt.outlines body)
  | .ifStmt condition onTrue none =>
    return form "if" [← condition.outline, ← onTrue.outline]
  | .ifStmt condition onTrue (some onFalse) =>
    return form "if-else" [← condition.outline, ← onTrue.outline, ← onFalse.outline]
  | .whileStmt condition body => return form "while" [← condition.outline, ← body.outline]
  | .breakStmt _ => return form "break" []
  | .funDecl ⟨name, params, body, _, _⟩ =>
    return form ("fun " ++ name.lexeme) (params.map (·.lexeme)) ++ " " ++
      form "block" (← Stmt.outlines body)
  | .classDecl .. => throw (.noOutline "class_stmt")
  | .returnStmt _ none => return form "return" []
  | .returnStmt _ (some value) => return form "return" [← value.outline]

/-- The outlines of statements, from left to right. -/
def Stmt.outlines : List Stmt → Except Defect (List String)
  | [] => return []
  | s :: ss => return (← s.outline) :: (← Stmt.outlines ss)

end

end Lox
