import Lox.Proofs.Scope.Resolved

/-!
# Where a node stands

The rules of lexical scoping, stated apart from the walk that resolves a program: which scopes are
around a node, and which names each of them has declared before the node is reached.
-/

namespace Lox

open Scope Scope.Resolving Outcome

variable {statics : Bool} {nest : Nest} {node : Node}

/-- What a scope is opened for: a block, the call of a function, the receiver of a method, the
superclass of a class. -/
inductive Opening where
  | block (body : List Stmt)
  | call (params : List Token) (body : List Stmt)
  | receiver
  | parent

def Opening.names : Opening → Set String
  | block body => {x | x ∈ body.flatMap Stmt.declared}
  | call params body => paramScope params ∪ {x | x ∈ body.flatMap Stmt.declared}
  | receiver => {"this"}
  | parent => {"super"}

/-- A scope and the names that it has declared so far. -/
structure Layer where
  opening : Opening
  names : Set String

/-- The scopes around a node, innermost first. -/
abbrev Nest := List Layer

namespace Nest

/-- The names that each scope has declared so far. -/
def held (nest : Nest) : List (Set String) := nest.map Layer.names

def openings (nest : Nest) : List Opening := nest.map Layer.opening

def declare (names : List String) : Nest → Nest
  | [] => []
  | layer :: outer => ⟨layer.opening, {x | x ∈ names} ∪ layer.names⟩ :: outer

@[simp] theorem held_declare (names : List String) (nest : Nest) :
    held (declare names nest) = extend names (held nest) := by
  cases nest <;> rfl

/-- The scopes around the methods of a class that stands inside the given ones. -/
def around (hasSuper : Bool) (nest : Nest) : Nest :=
  ⟨.receiver, {"this"}⟩ :: if hasSuper then ⟨.parent, {"super"}⟩ :: nest else nest

theorem held_around (hasSuper : Bool) (nest : Nest) :
    held (around hasSuper nest) = Resolving.around hasSuper (held nest) := by
  cases hasSuper <;> rfl

end Nest

namespace Node

/-- The names that a node adds to the scope it stands in. -/
def declared : Node → List String
  | .expr _ => []
  | .stmt s => s.declared

def parts : Node → List Node
  | .expr (.grouping body) => [.expr body]
  | .expr (.unary _ right) => [.expr right]
  | .expr (.binary left _ right) | .expr (.logical left _ right) => [.expr left, .expr right]
  | .expr (.assign _ _ value) => [.expr value]
  | .expr (.call callee _ arguments) => .expr callee :: arguments.map .expr
  | .expr (.get object _) => [.expr object]
  | .expr (.set object _ value) => [.expr object, .expr value]
  | .stmt (.bare value) | .stmt (.expression value) | .stmt (.print value)
  | .stmt (.returnStmt _ (some value)) => [.expr value]
  | .stmt (.ifStmt condition onTrue onFalse?) =>
    .expr condition :: .stmt onTrue :: (onFalse?.map .stmt).toList
  | .stmt (.whileStmt condition body) => [.expr condition, .stmt body]
  | _ => []

/-- A node is the outcome of resolving while the given scopes are open. -/
def ResolvedIn (statics : Bool) (scopes : List (Set String)) : Node → Prop
  | .expr e => e.ResolvedIn statics scopes
  | .stmt s => s.ResolvedIn statics scopes

theorem ResolvedIn.part {statics : Bool} {scopes : List (Set String)} {node part : Node}
    (h : node.ResolvedIn statics scopes) (hp : part ∈ node.parts) :
    part.ResolvedIn statics scopes := by
  cases node with
  | expr e =>
    have hs := Expr.ResolvedIn.scoped h
    cases e <;> simp only [parts, List.mem_cons, List.mem_map, List.not_mem_nil, or_false] at hp <;>
      simp only [Expr.Scoped] at hs <;> grind [ResolvedIn]
  | stmt s =>
    have hs := Stmt.ResolvedIn.scoped h
    cases s with
    | returnStmt keyword value? => cases value? <;> grind [parts, Stmt.Scoped, ResolvedIn]
    | ifStmt condition onTrue onFalse? =>
      cases onFalse? <;> grind [parts, Stmt.Scoped, ResolvedIn]
    | _ => grind [parts, Stmt.Scoped, ResolvedIn]

theorem declared_part {node part : Node} (hp : part ∈ node.parts) :
    part.declared ⊆ node.declared := by
  cases node with
  | expr e => cases e <;> grind [parts, declared]
  | stmt s =>
    cases s with
    | returnStmt keyword value? => cases value? <;> grind [parts, declared]
    | ifStmt condition onTrue onFalse? =>
      cases onFalse? <;> grind [parts, declared, Stmt.declared]
    | _ => grind [parts, declared, Stmt.declared]

end Node

/-- A node that stands in some scopes holds a list of statements that stands in the given scopes. -/
inductive Encloses (nest : Nest) : Node → Nest → List Stmt → Prop where
  | block (body : List Stmt) :
      Encloses nest (.stmt (.block body)) (⟨.block body, ∅⟩ :: nest) body
  | lambda (params : List Token) (body : List Stmt) :
      Encloses nest (.expr (.lambda params body))
        (⟨.call params body, paramScope params⟩ :: nest) body
  | function (f : Function) :
      Encloses nest (.stmt (.funDecl f))
        (⟨.call f.params f.body, paramScope f.params⟩ :: Nest.declare [f.name.lexeme] nest) f.body
  | method {name : Token} {superclass? : Option (Token × Address)} {methods : List Function}
      {f : Function} (h : f ∈ methods) :
      Encloses nest (.stmt (.classDecl name superclass? methods))
        (⟨.call f.params f.body, paramScope f.params⟩ ::
          Nest.around superclass?.isSome (Nest.declare [name.lexeme] nest)) f.body

/-- A node stands in one of some programs, inside the given scopes. The statements before it in its
list have been declared, and in an initializer the variable itself. -/
inductive Located (programs : List Stmt → Prop) : Nest → Node → Prop where
  | top {before after : List Stmt} {s : Stmt} (h : programs (before ++ s :: after)) :
      Located programs [] (.stmt s)
  | part {nest : Nest} {node part : Node} (h : Located programs nest node)
      (hp : part ∈ node.parts) : Located programs nest part
  | initializer {nest : Nest} {name : Token} {init : Expr}
      (h : Located programs nest (.stmt (.varDecl name (some init)))) :
      Located programs (Nest.declare [name.lexeme] nest) (.expr init)
  | body {nest inner : Nest} {node : Node} {before after : List Stmt} {s : Stmt}
      (h : Located programs nest node) (he : Encloses nest node inner (before ++ s :: after)) :
      Located programs (Nest.declare (before.flatMap Stmt.declared) inner) (.stmt s)

theorem Stmt.AllResolvedIn.mid {scopes : List (Set String)} {before after : List Stmt} {s : Stmt}
    (h : Stmt.AllResolvedIn statics scopes (before ++ s :: after)) :
    s.ResolvedIn statics (extend (before.flatMap Stmt.declared) scopes) := by
  induction before generalizing scopes with
  | nil => simpa using h.cons.1
  | cons t before ih =>
    have := ih h.cons.2
    rwa [extend_extend] at this

theorem Encloses.allResolvedIn {inner : Nest} {body : List Stmt} (he : Encloses nest node inner body)
    (h : node.ResolvedIn statics nest.held) :
    Stmt.AllResolvedIn statics inner.held body := by
  cases he with
  | block body => exact Stmt.ResolvedIn.scoped h
  | lambda params body => exact Expr.ResolvedIn.scoped h
  | function f =>
    have := (Stmt.ResolvedIn.scoped h).2
    rwa [← Nest.held_declare] at this
  | method hf =>
    have := ((Stmt.ResolvedIn.scoped h).2 _ hf).2.2
    rwa [← Nest.held_declare, ← Nest.held_around] at this

theorem Located.resolvedIn {programs : List Stmt → Prop}
    (hr : ∀ program, programs program → Stmt.AllResolvedIn statics [] program)
    (h : Located programs nest node) : node.ResolvedIn statics nest.held := by
  induction h with
  | top hp => exact (hr _ hp).mid
  | part _ hp ih => exact ih.part hp
  | initializer _ ih =>
    have := Stmt.ResolvedIn.scoped ih
    rwa [Stmt.Scoped, ← Nest.held_declare] at this
  | body _ he ih =>
    have := (he.allResolvedIn ih).mid
    rwa [← Nest.held_declare] at this

namespace Nest

variable {nest : Nest}

/-- No scope has names other than those that it declares. -/
def Proper (nest : Nest) : Prop := ∀ layer ∈ nest, layer.names ⊆ layer.opening.names

/-- The innermost scope, if there is one, declares some names. -/
def Admits (nest : Nest) (names : List String) : Prop :=
  ∀ layer ∈ nest.head?, ∀ x ∈ names, x ∈ layer.opening.names

theorem Proper.declare {names : List String} (h : nest.Proper) (ha : nest.Admits names) :
    Proper (Nest.declare names nest) := by
  cases nest with
  | nil => exact h
  | cons layer outer =>
    intro l hl
    rcases List.mem_cons.1 hl with rfl | hl
    · rintro x (hx | hx)
      · exact ha layer rfl x hx
      · exact h layer (by simp) hx
    · exact h l (by simp [hl])

theorem Proper.around (h : nest.Proper) (hasSuper : Bool) : Proper (Nest.around hasSuper nest) := by
  intro l hl
  cases hasSuper <;> simp only [Nest.around, List.mem_cons, if_true, if_false,
    Bool.false_eq_true] at hl
  · rcases hl with rfl | hl
    · exact fun _ hx => hx
    · exact h l hl
  · rcases hl with rfl | rfl | hl
    · exact fun _ hx => hx
    · exact fun _ hx => hx
    · exact h l hl

theorem Proper.cons {layer : Layer} (h : nest.Proper) (hl : layer.names ⊆ layer.opening.names) :
    Proper (layer :: nest) := by
  intro l hm
  rcases List.mem_cons.1 hm with rfl | hm
  · exact hl
  · exact h l hm

end Nest

theorem Encloses.proper {inner : Nest} {body : List Stmt} (he : Encloses nest node inner body)
    (h : nest.Proper) (ha : nest.Admits node.declared) :
    inner.Proper ∧ inner.Admits (body.flatMap Stmt.declared) := by
  cases he with
  | block body =>
    refine ⟨h.cons (Set.empty_subset _), ?_⟩
    rintro _ ⟨⟩ x hx
    exact hx
  | lambda params body =>
    refine ⟨h.cons Set.subset_union_left, ?_⟩
    rintro _ ⟨⟩ x hx
    exact Or.inr hx
  | function f =>
    refine ⟨(h.declare ha).cons Set.subset_union_left, ?_⟩
    rintro _ ⟨⟩ x hx
    exact Or.inr hx
  | method hf =>
    refine ⟨((h.declare ha).around _).cons Set.subset_union_left, ?_⟩
    rintro _ ⟨⟩ x hx
    exact Or.inr hx

theorem Located.names_subset {programs : List Stmt → Prop} (h : Located programs nest node) :
    nest.Proper ∧ nest.Admits node.declared := by
  induction h with
  | top => exact ⟨by simp [Nest.Proper], by simp [Nest.Admits]⟩
  | part _ hp ih => exact ⟨ih.1, fun l hl x hx => ih.2 l hl x (Node.declared_part hp hx)⟩
  | initializer _ ih => exact ⟨ih.1.declare ih.2, by simp [Nest.Admits, Node.declared]⟩
  | @body nest inner node before after s _ he ih =>
    obtain ⟨hp, ha⟩ := he.proper ih.1 ih.2
    have hsplit : ∀ x, x ∈ before.flatMap Stmt.declared ∨ x ∈ s.declared →
        x ∈ (before ++ s :: after).flatMap Stmt.declared := by
      intro x hx
      simp only [List.flatMap_append, List.flatMap_cons, List.mem_append]
      grind
    refine ⟨hp.declare fun l hl x hx => ha l hl x (hsplit x (.inl hx)), ?_⟩
    intro l hl x hx
    cases inner with
    | nil => simp [Nest.declare] at hl
    | cons layer outer =>
      obtain rfl : _ = l := by simpa [Nest.declare] using hl
      exact ha layer rfl x (hsplit x (.inr hx))

end Lox
