import Lox.Proofs.Scope.Nest

/-!
# What stands directly inside a node

The places of a program are reached from its statements one level at a time. A property that is said of
a node in terms of the nodes directly inside it is therefore said in terms of all nodes of the program.
-/

namespace Lox

/-- A node that stands in the scopes `nest` holds, directly inside it, a node that stands in `inner`. -/
inductive Inside (nest : Nest) (node : Node) : Nest → Node → Prop where
  | part {part : Node} (hp : part ∈ node.parts) : Inside nest node nest part
  | initializer {name : Token} {init : Expr} (hn : node = .stmt (.varDecl name (some init))) :
      Inside nest node (Nest.declare [name.lexeme] nest) (.expr init)
  | body {inner : Nest} {before after : List Stmt} {s : Stmt}
      (he : Encloses nest node inner (before ++ s :: after)) :
      Inside nest node (Nest.declare (before.flatMap Stmt.declared) inner) (.stmt s)

variable {nest inner : Nest} {node part : Node}

theorem Located.inside {programs : List Stmt → Prop} (h : Located programs nest node)
    (hi : Inside nest node inner part) : Located programs inner part := by
  cases hi with
  | part hp => exact .part h hp
  | initializer hn =>
    subst hn
    exact .initializer h
  | body he => exact .body h he

/-! ### A part is smaller -/

theorem sizeOf_part (hp : part ∈ node.parts) : sizeOf part < sizeOf node := by
  cases node with
  | expr e =>
    cases e with
    | call callee paren arguments =>
      simp only [Node.parts, List.mem_cons, List.mem_map] at hp
      rcases hp with rfl | ⟨argument, ha, rfl⟩
      · simp
        omega
      · have hsize := List.sizeOf_lt_of_mem ha
        simp
        omega
    | _ =>
      simp only [Node.parts, List.mem_cons, List.not_mem_nil, or_false] at hp <;>
        rcases hp with rfl | rfl <;> simp <;> omega
  | stmt s =>
    cases s with
    | ifStmt condition onTrue onFalse? =>
      simp only [Node.parts, List.mem_cons, Option.mem_toList, Option.map_eq_some_iff] at hp
      rcases hp with rfl | rfl | ⟨onFalse, rfl, rfl⟩ <;> simp <;> omega
    | returnStmt keyword value? =>
      cases value? with
      | none => cases hp
      | some value =>
        rw [Node.parts, List.mem_singleton] at hp
        subst hp
        simp
        omega
    | _ =>
      simp only [Node.parts, List.mem_cons, List.not_mem_nil, or_false] at hp <;>
        rcases hp with rfl | rfl <;> simp <;> omega

theorem sizeOf_enclosed {body : List Stmt} (he : Encloses nest node inner body) {s : Stmt}
    (hs : s ∈ body) : sizeOf (Node.stmt s) < sizeOf node := by
  have hsize := List.sizeOf_lt_of_mem hs
  cases he with
  | block body =>
    simp
    omega
  | lambda params body =>
    simp
    omega
  | function f =>
    cases f
    simp at hsize ⊢
    omega
  | @method name superclass? methods f hf =>
    have hf' := List.sizeOf_lt_of_mem hf
    cases f
    simp at hsize hf' ⊢
    omega

theorem Inside.sizeOf_lt (h : Inside nest node inner part) : sizeOf part < sizeOf node := by
  cases h with
  | part hp => exact sizeOf_part hp
  | initializer hn =>
    subst hn
    simp
    omega
  | body he => exact sizeOf_enclosed he (by simp)

/-! ### Everything inside a node -/

variable {p q : Nest → Node → Prop} {programs : List Stmt → Prop}

theorem Located.exists_of_step
    (step : ∀ nest node, q nest node → p nest node ∨ ∃ inner part, Inside nest node inner part ∧ q inner part)
    (h : Located programs nest node) (hq : q nest node) :
    ∃ nest' node', Located programs nest' node' ∧ p nest' node' := by
  -- By induction on the size of the node: each step goes to a smaller one.
  induction hsize : sizeOf node using Nat.strong_induction_on generalizing nest node with
  | _ size ih =>
    subst hsize
    rcases step nest node hq with hp | ⟨inner, part, hi, hq'⟩
    · exact ⟨nest, node, h, hp⟩
    · exact ih (sizeOf part) hi.sizeOf_lt (h.inside hi) hq' rfl

theorem Located.exists_top
    (step : ∀ nest node inner part, Inside nest node inner part → q inner part → q nest node)
    (h : Located programs nest node) (hq : q nest node) :
    ∃ before s after, programs (before ++ s :: after) ∧ q [] (.stmt s) := by
  induction h with
  | @top before after s hs => exact ⟨before, s, after, hs, hq⟩
  | part _ hp ih => exact ih (step _ _ _ _ (.part hp) hq)
  | initializer _ ih => exact ih (step _ _ _ _ (.initializer rfl) hq)
  | body _ he ih => exact ih (step _ _ _ _ (.body he) hq)

/-! ### What holds directly inside a node -/

@[simp] theorem Nest.openings_cons (layer : Layer) (nest : Nest) :
    openings (layer :: nest) = layer.opening :: openings nest := rfl

@[simp] theorem Nest.openings_declare (names : List String) (nest : Nest) :
    (declare names nest).openings = nest.openings := by
  cases nest <;> rfl

@[simp] theorem Nest.openings_around (hasSuper : Bool) (nest : Nest) :
    (around hasSuper nest).openings =
      .receiver :: if hasSuper then .parent :: nest.openings else nest.openings := by
  cases hasSuper <;> rfl

/-- The initializer of a node or a statement of one of its bodies has a property, whatever the names are
that were declared so far. -/
def Node.HoldsWithin (q : Nest → Node → Prop) (nest : Nest) : Node → Prop
  | .expr (.lambda params body) => ∃ s ∈ body, q (⟨.call params body, ∅⟩ :: nest) (.stmt s)
  | .stmt (.varDecl _ (some init)) => q nest (.expr init)
  | .stmt (.block body) => ∃ s ∈ body, q (⟨.block body, ∅⟩ :: nest) (.stmt s)
  | .stmt (.funDecl f) => ∃ s ∈ f.body, q (⟨.call f.params f.body, ∅⟩ :: nest) (.stmt s)
  | .stmt (.classDecl _ superclass? methods) =>
    ∃ f ∈ methods, ∃ s ∈ f.body,
      q (⟨.call f.params f.body, ∅⟩ :: Nest.around superclass?.isSome nest) (.stmt s)
  | _ => False

/-- A property that depends only on what the scopes around a node are opened for. -/
abbrev OpeningsOnly (q : Nest → Node → Prop) : Prop :=
  ∀ ⦃nest nest' : Nest⦄ ⦃node⦄, nest.openings = nest'.openings → q nest node → q nest' node

theorem exists_inside_iff (hq : OpeningsOnly q) :
    (∃ inner part, Inside nest node inner part ∧ q inner part) ↔
      (∃ part ∈ node.parts, q nest part) ∨ node.HoldsWithin q nest := by
  constructor
  · rintro ⟨_, _, hi, h⟩
    cases hi with
    | part hp => exact .inl ⟨_, hp, h⟩
    | initializer hn =>
      subst hn
      exact .inr (hq (by simp) h)
    | @body _ before after s he =>
      right
      have hs : s ∈ before ++ s :: after := by simp
      generalize before ++ s :: after = body at he hs
      cases he with
      | block | lambda | function => exact ⟨s, hs, hq (by simp) h⟩
      | method hf => exact ⟨_, hf, s, hs, hq (by simp) h⟩
  · have hbody : ∀ {inner nest' : Nest} {body : List Stmt} {s : Stmt}, Encloses nest node inner body →
        s ∈ body → q nest' (.stmt s) → nest'.openings = inner.openings →
          ∃ inner part, Inside nest node inner part ∧ q inner part := by
      intro inner nest' body s he hs h ho
      obtain ⟨before, after, rfl⟩ := List.append_of_mem hs
      exact ⟨_, _, .body he, hq (by simp [ho]) h⟩
    rintro (⟨part, hp, h⟩ | h)
    · exact ⟨nest, part, .part hp, h⟩
    · unfold Node.HoldsWithin at h
      split at h
      · obtain ⟨s, hs, h⟩ := h
        exact hbody (.lambda _ _) hs h (by simp)
      · exact ⟨_, _, .initializer rfl, hq (by simp) h⟩
      · obtain ⟨s, hs, h⟩ := h
        exact hbody (.block _) hs h (by simp)
      · obtain ⟨s, hs, h⟩ := h
        exact hbody (.function _) hs h (by simp)
      · obtain ⟨f, hf, s, hs, h⟩ := h
        exact hbody (.method hf) hs h (by simp)
      · cases h

/-- A property of a node that holds if `p` holds of the node or the property holds directly inside it
holds of a statement of the program if `p` holds somewhere in the program. -/
theorem located_iff {ss : List Stmt} (honly : OpeningsOnly q)
    (hq : ∀ nest node, q nest node ↔
      p nest node ∨ (∃ part ∈ node.parts, q nest part) ∨ node.HoldsWithin q nest) :
    (∃ nest node, Located (· = ss) nest node ∧ p nest node) ↔ ∃ s ∈ ss, q [] (.stmt s) := by
  simp only [← exists_inside_iff honly] at hq
  constructor
  · rintro ⟨nest, node, hl, hp⟩
    have step : ∀ nest node inner part, Inside nest node inner part → q inner part → q nest node :=
      fun nest node inner part hi hpart => (hq nest node).2 (.inr ⟨inner, part, hi, hpart⟩)
    obtain ⟨before, s, after, rfl, hs⟩ := hl.exists_top step ((hq nest node).2 (.inl hp))
    exact ⟨s, by simp, hs⟩
  · rintro ⟨s, hs, hqs⟩
    obtain ⟨before, after, rfl⟩ := List.append_of_mem hs
    have htop : Located (· = before ++ s :: after) [] (.stmt s) := .top rfl
    exact htop.exists_of_step (fun nest node => (hq nest node).1) hqs

/-! ### Scopes that a node opens -/

/-- A node that stands in some scopes opens a scope. -/
def Opens (scope : Opening) (nest : Nest) (node : Node) : Prop :=
  ∃ names outer body, Encloses nest node (⟨scope, names⟩ :: outer) body

/-- The scopes that a node opens for its bodies. -/
def Node.opened : Node → List Opening
  | .expr (.lambda params body) => [.call params body]
  | .stmt (.block body) => [.block body]
  | .stmt (.funDecl f) => [.call f.params f.body]
  | .stmt (.classDecl _ _ methods) => methods.map fun f => .call f.params f.body
  | _ => []

theorem opens_iff {scope : Opening} : Opens scope nest node ↔ scope ∈ node.opened := by
  constructor
  · rintro ⟨names, outer, body, he⟩
    cases he with
    | method hf => exact List.mem_map.2 ⟨_, hf, rfl⟩
    | _ => exact List.mem_singleton.2 rfl
  · intro h
    unfold Node.opened at h
    split at h
    · cases List.mem_singleton.1 h
      exact ⟨_, _, _, .lambda _ _⟩
    · cases List.mem_singleton.1 h
      exact ⟨_, _, _, .block _⟩
    · cases List.mem_singleton.1 h
      exact ⟨_, _, _, .function _⟩
    · obtain ⟨f, hf, rfl⟩ := List.mem_map.1 h
      exact ⟨_, _, _, .method hf⟩
    · cases h

end Lox
