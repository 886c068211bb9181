import Lox.Proofs.Machine.Origins

/-!
# Exits that unwind

A return or a break leaves the statement that it stands in and the statements around it, until something
takes it. A loop takes the breaks of its body, and a call the returns of the body that it runs.
-/

namespace Lox

open Eval Outcome

def Stmt.isLoop : Stmt → Bool
  | .whileStmt .. => true
  | _ => false

/-- From a machine, the computation does not end with an exit that has the property. -/
def Run.AvoidsAt {α : Type} (p : Exit → Prop) (x : Run α) (m : Machine) : Prop :=
  ∀ e m', x m = .error e m' → ¬p e

namespace Eval

variable {depth : Nat} {m m' : Machine} {e : Exit}

/-- A statement whose expressions do not end with a return or a break ends with it only if it is a return
or a break itself, or has come to a statement that ends so. A loop does not hand on a break. -/
theorem exists_reaches_of_unwinds {s : Stmt} (he : e = .broke ∨ ∃ v, e = .returned v)
    (hexpr : ∀ x m₁, Reaches depth (.stmt s) m (.expr x) m₁ →
      (run depth (.expr x)).AvoidsAt (· = e) m₁)
    (h : run (depth + 1) (.stmt s) m = .error e m') :
    (∃ keyword, s = .breakStmt keyword ∧ e = .broke) ∨
      (∃ keyword value? v, s = .returnStmt keyword value? ∧ e = .returned v) ∨
      (s.isLoop = true → e ≠ .broke) ∧ ∃ t m₁ m₂, Reaches depth (.stmt s) m (.stmt t) m₁ ∧
        run depth (.stmt t) m₁ = .error e m₂ := by
  by_cases hloop : s.isLoop = true
  · cases s with
    | whileStmt condition body =>
      obtain rfl | ⟨m₁, hm, hc⟩ | ⟨hne, m₁, hr, hb⟩ := loop_eq_error .none h
      · simp at he
      · exact absurd rfl (hexpr condition m₁ (.loopCondition hm) e m' hc)
      · exact .inr (.inr ⟨fun _ => hne, body, m₁, m', hr, hb⟩)
    | _ => cases hloop
  · obtain hraises | ⟨n, m₁, m₂, hr, hn⟩ := traced_stmt s e m' h
    · cases hraises with
      | fault | missing => simp at he
      | broke hs => exact .inl ⟨_, Node.stmt.inj hs, rfl⟩
      | returned hs => exact .inr (.inl ⟨_, _, _, Node.stmt.inj hs, rfl⟩)
      | other hother => rcases he with rfl | ⟨v, rfl⟩ <;> cases hother
    · cases n with
      | expr x => exact absurd rfl (hexpr x m₁ hr e m₂ hn)
      | stmt t => exact .inr (.inr ⟨fun hs => absurd hs hloop, t, m₁, m₂, hr, hn⟩)

end Eval

end Lox
