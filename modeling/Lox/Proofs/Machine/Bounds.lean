import Lox.Proofs.Machine.Recast

/-!
# Bounds on nested computations

A larger bound changes nothing but the runs that reach the smaller one.
-/

namespace Lox

open Eval

/-- How running a node ends. -/
abbrev Eval.Ending := EStateM.Result Exit Machine Value

/-- The second computation ends as the first does, unless the first reaches its bound. -/
def Run.Extends {α : Type} (x y : Run α) : Prop :=
  ∀ m, y m = x m ∨ ∃ m', x m = .error .exhausted m'

/-- The same machines, until the first run reaches its bound. -/
def Comparison.bounded : Comparison := .relining id (fun b o b' o' => b' = b ∧ o' = o) (· = .exhausted)

theorem Machine.like_bounded {m m' : Machine} : m.Like Comparison.bounded m' ↔ m' = m := by
  refine Comparison.machine_relining.trans ?_
  rw [Frame.relined_id, Value.map_relined_id, Array.map_id, Array.map_id]
  constructor
  · rintro ⟨hm, ht, ho⟩
    rw [hm, ht, ho]
  · rintro rfl
    exact ⟨rfl, rfl, rfl⟩

theorem Eval.run_mono {depth depth' : Nat} (hle : depth ≤ depth') (node : Node) :
    Run.Extends (run depth node) (run depth' node) := by
  have hlawful : Comparison.bounded.Lawful := Comparison.relining_lawful fun _ he => he ▸ trivial
  have hplain : Comparison.bounded.Plain :=
    ⟨And.left, fun line h => ⟨h.1, congrArg (Array.push · line) h.2⟩⟩
  have hnode : Node.Like Comparison.bounded node node := by
    cases node with
    | expr e => exact .expr e.relined_id.symm
    | stmt s => exact .stmt s.relined_id.symm
  intro m
  have h := relates_run hlawful hplain (.inr (.inl ⟨hle, rfl⟩)) False.elim hnode m m (Machine.like_bounded.2 rfl)
  generalize run depth node m = r at h ⊢
  generalize run depth' node m = r' at h ⊢
  cases h with
  | ok hv hm =>
    rw [Comparison.bounded, Comparison.value_relining, Value.relined_id] at hv
    rw [hv, Machine.like_bounded.1 hm]
    exact .inl rfl
  | error he hm =>
    rw [Comparison.exit_relining he, Exit.relined_id, Machine.like_bounded.1 hm]
    exact .inl rfl
  | spared m₁ _ he => exact .inr ⟨m₁, by rw [show _ = Exit.exhausted from he]⟩
  | broken _ _ he => exact he.elim

end Lox
