import Lox.Proofs.Machine.Fulfilment

/-!
# Running nodes under a policy

A policy is a covenant that asks the same of functions whatever the frames are, and changes no frames.
So running a node that a lawful policy allows keeps the machine obeying it, and comes to nothing but
nodes that the policy allows.
-/

namespace Lox

open Eval Outcome

namespace Policy

variable {P : Policy}

def covenant (P : Policy) : Covenant where
  callable _ := P.callable
  waiting _ := P.waiting
  runs := P.runs
  frames := P.frames
  grows _ _ := True
  alter := id
  plain _ := True

theorem Lawful.covenant (hl : P.Lawful) : P.covenant.Lawful where
  refl _ := trivial
  trans _ _ := trivial
  callable_mono _ hf := hf
  waiting_mono _ hf := hf
  alike _ := .refl _ _
  part h hr hp ha := hl.part h hr hp ha.env
  initializer h := hl.initializer h
  block h _ hb hr ha := hl.block h hb hr ha.env
  call h ha hs _ hf hb hr hm := hl.call h ha hs hf hb hr hm.env
  bind h hb hf := hl.bind h hb hf
  inherit h _ _ _ _ hf := hl.inherit h hf
  lambda h := hl.lambda h
  function h _ _ _ := hl.function h
  method h hf hp hd ha := hl.method h hf hp hd ha.env
  push {_ vars} h _ := ⟨hl.push vars h.frames, trivial, rfl⟩
  write h hn hm id _ v := ⟨hl.write h (Node.name?_of_given? hn) id v hm.frames, trivial, rfl⟩
  search _ _ := trivial

/-! ### Computations -/

variable {α β : Type} {m m' : Machine} {x y : Run α} {post post' : α → Machine → Prop}

/-- Two computations do the same on a machine. Afterwards the environment is the same and the machine
obeys the policy, as does the exit; a result has a property. -/
def Keeps (P : Policy) (x y : Run α) (m : Machine) (post : α → Machine → Prop) : Prop :=
  x m = y m ∧
    match y m with
    | .ok a m' => m'.env = m.env ∧ m'.Obeys P ∧ post a m'
    | .error e m' => m'.env = m.env ∧ m'.Obeys P ∧ e.Obeys P

theorem eq_of_mirrors (h : Mirrors P.covenant.image id id y x m) : x m = y m := by
  change x m = recast P.covenant.image id id (y m) at h
  rw [h]
  cases y m <;> rfl

theorem mirrors_of_eq (h : x m = y m) : Mirrors P.covenant.image id id y x m := by
  change x m = recast P.covenant.image id id (y m)
  rw [h]
  cases y m <;> rfl

namespace Keeps

theorem of_covenant (h : P.covenant.Keeps x y m post) : P.Keeps x y m post := by
  refine ⟨eq_of_mirrors h.1, ?_⟩
  cases hy : y m with
  | ok a m' => exact ⟨(h.ok hy).1.env, (h.ok hy).1.honours, (h.ok hy).2⟩
  | error e m' => exact ⟨(h.error hy).1.env, (h.error hy).1.honours, (h.error hy).2⟩

theorem covenant (h : P.Keeps x y m post) : P.covenant.Keeps x y m post := by
  refine ⟨mirrors_of_eq h.1, ?_⟩
  have hpost := h.2
  cases hy : y m with
  | ok a m' =>
    rw [hy] at hpost
    exact ⟨⟨hpost.1, trivial, hpost.2.1⟩, hpost.2.2⟩
  | error e m' =>
    rw [hy] at hpost
    exact ⟨⟨hpost.1, trivial, hpost.2.1⟩, hpost.2.2⟩

theorem ok {a : α} (h : P.Keeps x y m post) (hy : y m = .ok a m') :
    m'.env = m.env ∧ m'.Obeys P ∧ post a m' := by
  have := h.2
  rwa [hy] at this

theorem error {e : Exit} (h : P.Keeps x y m post) (hy : y m = .error e m') :
    m'.env = m.env ∧ m'.Obeys P ∧ e.Obeys P := by
  have := h.2
  rwa [hy] at this

theorem pure {a : α} (ho : m.Obeys P) (hp : post a m) :
    P.Keeps (Pure.pure a : Run α) (Pure.pure a) m post :=
  ⟨rfl, rfl, ho, hp⟩

theorem bind {f g : α → Run β} {post' : β → Machine → Prop} (h : P.Keeps x y m post)
    (hf : ∀ a m', y m = .ok a m' → m'.env = m.env → m'.Obeys P → post a m' →
      P.Keeps (f a) (g a) m' post') :
    P.Keeps (x >>= f) (y >>= g) m post' := by
  unfold Keeps
  cases hy : y m with
  | error e m' =>
    rw [bind_of_error hy, bind_of_error (h.1.trans hy)]
    exact ⟨rfl, h.error hy⟩
  | ok a m' =>
    obtain ⟨he, ho, hp⟩ := h.ok hy
    have hk := hf a m' hy he ho hp
    rw [bind_of_ok hy, bind_of_ok (h.1.trans hy)]
    refine ⟨hk.1, ?_⟩
    cases hg : g a m' with
    | ok b m'' => exact ⟨(hk.ok hg).1.trans he, (hk.ok hg).2⟩
    | error e m'' => exact ⟨(hk.error hg).1.trans he, (hk.error hg).2⟩

theorem catchReturn {x y : Run Value} (h : P.Keeps x y m fun v _ => v.Obeys P) :
    P.Keeps (Run.catchReturn x) (Run.catchReturn y) m fun v _ => v.Obeys P :=
  of_covenant h.covenant.catchReturn

end Keeps

/-! ### Whole runs -/

namespace Lawful

variable (hl : P.Lawful) {depth : Nat} {node : Node} {rec : Recur}

include hl

/-- Running a node that may be run keeps the machine obeying. -/
theorem run_keeps (depth : Nat) {node : Node} {m : Machine} (hr : P.runs ⟨depth, node, m⟩)
    (ho : m.Obeys P) : P.Keeps (run depth node) (run depth node) m fun v _ => v.Obeys P :=
  .of_covenant (hl.covenant.run_keeps depth hr ho)

/-- A function that is applied keeps the machine obeying. -/
theorem keeps_apply (hr : P.runs ⟨depth + 1, node, m⟩) {f : Closure} {args : List Value}
    {m₁ : Machine} (ha : Applies depth node m f args m₁) (hf : P.callable f)
    (hargs : ∀ a ∈ args, Value.Obeys P a) (ho : m₁.Obeys P) :
    P.Keeps (apply (run depth) f args) (apply (run depth) f args) m₁ fun v _ => v.Obeys P :=
  .of_covenant ((hl.covenant.stage hr).keeps_apply ha hf hargs ho)

/-! ### What a node reaches -/

theorem after_rounds {condition : Expr} {body : Stmt}
    (hr : P.runs ⟨depth + 1, .stmt (.whileStmt condition body), m⟩) (ho : m.Obeys P)
    (hrounds : Rounds depth condition body m m') : m'.env = m.env ∧ m'.Obeys P := by
  have ha := (hl.covenant.stage hr).after_rounds ho hrounds
  exact ⟨ha.env, ha.honours⟩

/-- A function that is applied may be called. -/
theorem after_applies (hr : P.runs ⟨depth + 1, node, m⟩) (ho : m.Obeys P) {f : Closure}
    {args : List Value} {m₁ : Machine} (ha : Applies depth node m f args m₁) :
    m₁.Obeys P ∧ P.callable f ∧ ∀ a ∈ args, Value.Obeys P a :=
  (hl.covenant.stage hr).after_applies ho ha

theorem reaches (hr : P.runs ⟨depth + 1, node, m⟩) (ho : m.Obeys P) {n : Node} {s : Machine}
    (h : Reaches depth node m n s) : P.runs ⟨depth, n, s⟩ ∧ s.Obeys P :=
  hl.covenant.reaches hr ho h

theorem visited {roots : Moment → Prop} {v : Moment} {outer : List Moment}
    (hroots : ∀ v, roots v → P.runs v ∧ v.machine.Obeys P) (h : Visited roots (v :: outer)) :
    P.runs v ∧ v.machine.Obeys P :=
  hl.covenant.visited hroots h

end Lawful

end Policy

end Lox
