import Lox.Proofs.Scope.Walk
import Lox.Proofs.Tree.Join
import Lox.Proofs.Tree.Readable
import Lox.Token.Scan

/-!
# Resolving what was read

Whatever is wrong with the names in a program that was read without complaint, resolving it comes to its
end from every state, and it leaves that state as it was, but for the names that the statements of the
program declare themselves.
-/

namespace Lox

def Stmt.declaredName? : Stmt → Option String
  | .varDecl name _ | .classDecl name _ _ => some name.lexeme
  | .funDecl f => some f.name.lexeme
  | _ => none

theorem Stmt.declared_of_isReadable {s : Stmt} (h : s.all Node.isReadable = true) :
    s.declared = s.declaredName?.toList := by
  cases s with
  | ifStmt condition onTrue onFalse? =>
    cases onFalse? <;>
      · simp only [Stmt.all, Bool.and_eq_true] at h
        exact List.isEmpty_iff.1 h.1
  | whileStmt condition body =>
    simp only [Stmt.all, Bool.and_eq_true] at h
    exact List.isEmpty_iff.1 h.1
  | _ => rfl

theorem Stmt.flatMap_declared_of_isReadable {ss : List Stmt} (h : Stmt.allOf Node.isReadable ss = true) :
    ss.flatMap Stmt.declared = ss.filterMap Stmt.declaredName? := by
  induction ss with
  | nil => rfl
  | cons s ss ih =>
    obtain ⟨hs, hss⟩ := Bool.and_eq_true_iff.1 h
    rw [List.flatMap_cons, ih hss, Stmt.declared_of_isReadable hs, List.filterMap_cons]
    cases s.declaredName? <;> rfl

namespace Scope

/-- Resolving is balanced and cannot break down. The statements of a program that was read without
complaint are resolved from every state, whatever is reported about them. The registers are put back; the
open scopes are the same, with the same names and the same incomplete declarations, apart from the names
that the statements declare in the innermost one; so none is open at the end if none was at the start. -/
theorem resolve_balanced {tokens : List Token} (h : (Tree.parse tokens).complaints = [])
    (r : Resolution) :
    ∃ program r', Stmt.resolveAll (Tree.parse tokens).statements r = .ok program r' ∧
      Balanced r r' ∧
      Kept ((Tree.parse tokens).statements.filterMap Stmt.declaredName?) r.scopes r'.scopes ∧
      r'.held = extend ((Tree.parse tokens).statements.filterMap Stmt.declaredName?) r.held ∧
      ∀ warns, (Scope.resolve warns (Tree.parse tokens).statements).reached.scopes = [] := by
  have hpresent := (Tree.program_of_complaints h).2
  have hnames := Stmt.flatMap_declared_of_isReadable (Tree.parse_readable tokens)
  obtain ⟨program, r', hr⟩ := Stmt.resolveAll_of_present hpresent r
  have hleads := Stmt.resolveAll_leads _ hr
  rw [hnames] at hleads
  refine ⟨program, r', hr, hleads.toBalanced, hleads.kept, hleads.held, fun warns => ?_⟩
  obtain ⟨started, r₀, hr₀⟩ := Stmt.resolveAll_of_present hpresent (.start warns)
  rw [Scope.resolve_of_ok hr₀]
  exact List.map_eq_nil_iff.1 (Stmt.resolveAll_leads _ hr₀).held

/-- A variable that is read in its own initializer and declared twice, and a class that is its own
superclass. -/
private def flawedText : String := "{ var a = a; var a; } class B < B { }"

/-- A method of a class is being resolved, in the initializer of its variable. -/
private def halfway : Resolution :=
  ⟨[Table.empty.insert "a" ⟨false, false⟩], some .method, true, true, some "a", true, [], []⟩

/-- Flaws are reported, and the scope that was open holds the new class beside the variable that is not
complete. -/
theorem resolve_balanced_flawed :
    (Tree.parse (Token.scan flawedText).tokens).complaints = [] ∧
    ∃ program r', Stmt.resolveAll (Tree.parse (Token.scan flawedText).tokens).statements halfway =
        .ok program r' ∧
      Balanced halfway r' ∧ Kept ["B"] halfway.scopes r'.scopes ∧
      r'.held = extend ["B"] halfway.held ∧
      ∀ warns, (Scope.resolve warns (Tree.parse (Token.scan flawedText).tokens).statements).reached.scopes =
        [] := by
  have hread : (Tree.parse (Token.scan flawedText).tokens).complaints = [] := by decide +kernel
  have hnames : (Tree.parse (Token.scan flawedText).tokens).statements.filterMap Stmt.declaredName? =
      ["B"] := by decide +kernel
  refine ⟨hread, ?_⟩
  have h := resolve_balanced hread halfway
  rwa [hnames] at h

end Scope

end Lox
