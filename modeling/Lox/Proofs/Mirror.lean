import Lox.Proofs.Outcome

/-!
# Computations that mirror each other

A change of states is mirrored by a pair of computations if they do the same up to the change: from a
state and from the changed state they end in the same way, in a state and in its changed form. Two
runs are compared by changing what does not matter in both of them.
-/

namespace Lox

open Outcome

variable {ε δ σ τ α β α' β' : Type}

def Outcome.recast (state : σ → τ) (exit : ε → δ) (value : α → β) :
    EStateM.Result ε σ α → EStateM.Result δ τ β
  | .ok a s => .ok (value a) (state s)
  | .error e s => .error (exit e) (state s)

def Mirrors (state : σ → τ) (exit : ε → δ) (value : α → β) (x : EStateM ε σ α)
    (y : EStateM δ τ β) (s : σ) : Prop :=
  y (state s) = Outcome.recast state exit value (x s)

namespace Mirrors

variable {state : σ → τ} {exit : ε → δ} {value : α → β} {value' : α' → β'}
  {x : EStateM ε σ α} {y : EStateM δ τ β} {f : α → EStateM ε σ α'} {g : β → EStateM δ τ β'} {s : σ}

theorem ok (h : Mirrors state exit value x y s) {a : α} {s' : σ} (hx : x s = .ok a s') :
    y (state s) = .ok (value a) (state s') := by
  have heq : y (state s) = _ := h
  rw [heq, hx]
  rfl

theorem error (h : Mirrors state exit value x y s) {e : ε} {s' : σ} (hx : x s = .error e s') :
    y (state s) = .error (exit e) (state s') := by
  have heq : y (state s) = _ := h
  rw [heq, hx]
  rfl

theorem pure {a : α} {b : β} (h : b = value a) :
    Mirrors state exit value (Pure.pure a) (Pure.pure b) s := by
  subst h
  rfl

theorem throw {e : ε} {e' : δ} (h : e' = exit e) :
    Mirrors state exit value (MonadExcept.throw e : EStateM ε σ α) (MonadExcept.throw e') s := by
  subst h
  rfl

theorem bind_of {p : α → σ → Prop} (hx : Mirrors state exit value x y s)
    (hp : ∀ a s', x s = .ok a s' → p a s')
    (hf : ∀ a s', p a s' → Mirrors state exit value' (f a) (g (value a)) s') :
    Mirrors state exit value' (x >>= f) (y >>= g) s := by
  unfold Mirrors
  cases hrun : x s with
  | ok a s' =>
    rw [bind_of_ok hrun, bind_of_ok (hx.ok hrun)]
    exact hf a s' (hp a s' hrun)
  | error e s' =>
    rw [bind_of_error hrun, bind_of_error (hx.error hrun)]
    rfl

theorem bind (hx : Mirrors state exit value x y s)
    (hf : ∀ a s', Mirrors state exit value' (f a) (g (value a)) s') :
    Mirrors state exit value' (x >>= f) (y >>= g) s :=
  hx.bind_of (fun _ _ _ => trivial) fun a s' _ => hf a s'

theorem get_bind {f : σ → EStateM ε σ α'} {g : τ → EStateM δ τ β'}
    (h : Mirrors state exit value' (f s) (g (state s)) s) :
    Mirrors state exit value' (get >>= f) (get >>= g) s := h

theorem modify {p : σ → σ} {q : τ → τ} (h : q (state s) = state (p s)) :
    Mirrors state exit id (MonadStateOf.modifyGet fun s => (PUnit.unit, p s) : EStateM ε σ PUnit)
      (MonadStateOf.modifyGet fun s => (PUnit.unit, q s)) s := by
  change EStateM.Result.ok PUnit.unit (q (state s)) = _
  rw [h]
  rfl

theorem ite {c c' : Prop} [Decidable c] [Decidable c'] {x₂ : EStateM ε σ α} {y₂ : EStateM δ τ β}
    (hc : c' ↔ c) (hx : Mirrors state exit value x y s) (hy : Mirrors state exit value x₂ y₂ s) :
    Mirrors state exit value (if c then x else x₂) (if c' then y else y₂) s := by
  by_cases h : c
  · rwa [if_pos h, if_pos (hc.2 h)]
  · rwa [if_neg h, if_neg (mt hc.1 h)]

end Mirrors

end Lox
