import Lox.Defect
import Lox.Tree

/-!
# Equality of trees

Whether two trees are equal can be computed. What is read from a fixed text is compared with a tree that
way.
-/

namespace Lox

mutual

/-- Whether two expressions are equal. -/
def Expr.same : Expr → Expr → Bool
  | .gap, .gap => true
  | .literal v, .literal v' => v = v'
  | .grouping e, .grouping e' => e.same e'
  | .unary op e, .unary op' e' => op = op' && e.same e'
  | .binary l op r, .binary l' op' r' => l.same l' && op = op' && r.same r'
  | .logical l op r, .logical l' op' r' => l.same l' && op = op' && r.same r'
  | .variable x a, .variable x' a' => x = x' && a = a'
  | .assign x a e, .assign x' a' e' => x = x' && a = a' && e.same e'
  | .call e p es, .call e' p' es' => e.same e' && p = p' && Expr.sameAll es es'
  | .lambda ps b, .lambda ps' b' => ps = ps' && Stmt.sameAll b b'
  | .get e x, .get e' x' => e.same e' && x = x'
  | .set e x v, .set e' x' v' => e.same e' && x = x' && v.same v'
  | .this k a, .this k' a' => k = k' && a = a'
  | .super k x a, .super k' x' a' => k = k' && x = x' && a = a'
  | .inner k x a, .inner k' x' a' => k = k' && x = x' && a = a'
  | _, _ => false

def Expr.sameAll : List Expr → List Expr → Bool
  | [], [] => true
  | e :: es, e' :: es' => e.same e' && Expr.sameAll es es'
  | _, _ => false

/-- Whether two statements are equal. -/
def Stmt.same : Stmt → Stmt → Bool
  | .gap, .gap => true
  | .bare e, .bare e' => e.same e'
  | .expression e, .expression e' => e.same e'
  | .print e, .print e' => e.same e'
  | .varDecl x none, .varDecl x' none => x = x'
  | .varDecl x (some e), .varDecl x' (some e') => x = x' && e.same e'
  | .block b, .block b' => Stmt.sameAll b b'
  | .ifStmt c t none, .ifStmt c' t' none => c.same c' && t.same t'
  | .ifStmt c t (some f), .ifStmt c' t' (some f') => c.same c' && t.same t' && f.same f'
  | .whileStmt c b, .whileStmt c' b' => c.same c' && b.same b'
  | .breakStmt k, .breakStmt k' => k = k'
  | .funDecl f, .funDecl f' => f.same f'
  | .classDecl x p fs, .classDecl x' p' fs' => x = x' && p = p' && Function.sameAll fs fs'
  | .returnStmt k none, .returnStmt k' none => k = k'
  | .returnStmt k (some e), .returnStmt k' (some e') => k = k' && e.same e'
  | _, _ => false

def Stmt.sameAll : List Stmt → List Stmt → Bool
  | [], [] => true
  | s :: ss, s' :: ss' => s.same s' && Stmt.sameAll ss ss'
  | _, _ => false

/-- Whether two functions are equal. -/
def Function.same : Function → Function → Bool
  | ⟨x, ps, b, s, g⟩, ⟨x', ps', b', s', g'⟩ =>
    x = x' && ps = ps' && Stmt.sameAll b b' && s == s' && g == g'

def Function.sameAll : List Function → List Function → Bool
  | [], [] => true
  | f :: fs, f' :: fs' => f.same f' && Function.sameAll fs fs'
  | _, _ => false

end

/-- What is found to be the same is equal. The conjunction has the order of the induction principle. -/
theorem same_sound : (∀ e e' : Expr, e.same e' = true → e = e') ∧
    (∀ ss ss' : List Stmt, Stmt.sameAll ss ss' = true → ss = ss') ∧
    (∀ s s' : Stmt, s.same s' = true → s = s') ∧
    (∀ fs fs' : List Function, Function.sameAll fs fs' = true → fs = fs') ∧
    (∀ f f' : Function, f.same f' = true → f = f') ∧
    ∀ es es' : List Expr, Expr.sameAll es es' = true → es = es' := by
  apply Expr.same.mutual_induct
  all_goals
    intros
    simp_all [Expr.same, Expr.sameAll, Stmt.same, Stmt.sameAll, Function.same, Function.sameAll]

theorem Expr.eq_of_same {e e' : Expr} (h : e.same e' = true) : e = e' := same_sound.1 e e' h

theorem Stmt.eq_of_sameAll {ss ss' : List Stmt} (h : Stmt.sameAll ss ss' = true) : ss = ss' :=
  same_sound.2.1 ss ss' h

/-- Whether something yields the given statements. -/
def Stmt.areYielded (program : List Stmt) : Except Defect (List Stmt) → Bool
  | .ok ss => Stmt.sameAll ss program
  | .error _ => false

theorem Stmt.eq_of_areYielded {program : List Stmt} {r : Except Defect (List Stmt)}
    (h : Stmt.areYielded program r = true) : r = .ok program := by
  cases r with
  | ok ss => exact congrArg Except.ok (Stmt.eq_of_sameAll h)
  | error d => cases h

end Lox
