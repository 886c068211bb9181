import Lox.Proofs.Scope.Checks

/-!
# Which declarations are used

In a resolved program every reference to a local variable tells how many scopes lie between it and the
declaration. So the references to what a scope declares are found inside the scope.
-/

namespace Lox

/-! ### References -/

/-- A node is a variable, an assignment or a class with a superclass, and the name it refers to is found
`depth` scopes further out. -/
inductive Refers (x : String) (depth : Nat) : Node → Prop where
  | read {name : Token} (h : name.lexeme = x) : Refers x depth (.expr (.variable name (.hops depth)))
  | write {name : Token} {value : Expr} (h : name.lexeme = x) :
      Refers x depth (.expr (.assign name (.hops depth) value))
  | superclass {name parent : Token} {methods : List Function} (h : parent.lexeme = x) :
      Refers x depth (.stmt (.classDecl name (some (parent, .hops depth)) methods))

def Opening.body : Opening → List Stmt
  | block body | call _ body => body
  | receiver | parent => []

/-- Something inside a scope refers to a name in it. Inside as many scopes as the reference passes, it
leads to the scope itself. -/
def Opening.Uses (scope : Opening) (x : String) : Prop :=
  ∃ nest node, Located (· = scope.body) nest node ∧ Refers x nest.length node

/-- The reference of a name with an address, if it is to a local variable. -/
def Address.use (x : String) : Address → List (Nat × String)
  | hops depth => [(depth, x)]
  | free | slot .. => []

/-- The references that lead out of a scope, seen from outside. -/
def outward (uses : List (Nat × String)) : List (Nat × String) :=
  uses.filterMap fun use =>
    match use with
    | (0, _) => none
    | (depth + 1, x) => some (depth, x)

@[simp] theorem mem_outward {uses : List (Nat × String)} {depth : Nat} {x : String} :
    (depth, x) ∈ outward uses ↔ (depth + 1, x) ∈ uses := by
  unfold outward
  rw [List.mem_filterMap]
  constructor
  · rintro ⟨⟨_ | k, y⟩, hm, h⟩
    · cases h
    · cases h
      exact hm
  · intro hm
    exact ⟨_, hm, rfl⟩

/-- The references that lead out of the scopes around the methods of a class. -/
def outOfClass (hasSuper : Bool) (uses : List (Nat × String)) : List (Nat × String) :=
  if hasSuper then outward (outward uses) else outward uses

def superclassUse : Option (Token × Address) → List (Nat × String)
  | none => []
  | some (parent, address) => address.use parent.lexeme

mutual

/-- The references in an expression that lead out of it. -/
def Expr.uses : Expr → List (Nat × String)
  | .gap | .literal _ | .this .. | .super .. | .inner .. => []
  | .grouping body => body.uses
  | .unary _ right => right.uses
  | .binary left _ right | .logical left _ right => left.uses ++ right.uses
  | .variable name address => address.use name.lexeme
  | .assign name address value => value.uses ++ address.use name.lexeme
  | .call callee _ arguments => callee.uses ++ Expr.usesOf arguments
  | .lambda _ body => outward (Stmt.usesOf body)
  | .get object _ => object.uses
  | .set object _ value => value.uses ++ object.uses

def Expr.usesOf : List Expr → List (Nat × String)
  | [] => []
  | e :: es => e.uses ++ Expr.usesOf es

/-- The references in a statement that lead out of it. -/
def Stmt.uses : Stmt → List (Nat × String)
  | .gap | .varDecl _ none | .breakStmt _ | .returnStmt _ none => []
  | .bare value | .expression value | .print value | .varDecl _ (some value)
  | .returnStmt _ (some value) => value.uses
  | .block body => outward (Stmt.usesOf body)
  | .ifStmt condition onTrue none => condition.uses ++ onTrue.uses
  | .ifStmt condition onTrue (some onFalse) => condition.uses ++ (onTrue.uses ++ onFalse.uses)
  | .whileStmt condition body => condition.uses ++ body.uses
  | .funDecl f => f.uses
  | .classDecl _ superclass? methods =>
    superclassUse superclass? ++ outOfClass superclass?.isSome (Function.usesOf methods)

def Stmt.usesOf : List Stmt → List (Nat × String)
  | [] => []
  | s :: ss => s.uses ++ Stmt.usesOf ss

def Function.uses : Function → List (Nat × String)
  | ⟨_, _, body, _, _⟩ => outward (Stmt.usesOf body)

def Function.usesOf : List Function → List (Nat × String)
  | [] => []
  | f :: fs => f.uses ++ Function.usesOf fs

end

def Node.uses : Node → List (Nat × String)
  | .expr e => e.uses
  | .stmt s => s.uses

theorem Expr.mem_usesOf_iff {use : Nat × String} {es : List Expr} :
    use ∈ Expr.usesOf es ↔ ∃ e ∈ es, use ∈ e.uses := by
  induction es with
  | nil => simp [Expr.usesOf]
  | cons e es ih => simp [Expr.usesOf, ih]

theorem Stmt.mem_usesOf_iff {use : Nat × String} {ss : List Stmt} :
    use ∈ Stmt.usesOf ss ↔ ∃ s ∈ ss, use ∈ s.uses := by
  induction ss with
  | nil => simp [Stmt.usesOf]
  | cons s ss ih => simp [Stmt.usesOf, ih]

theorem Function.mem_uses_iff {depth : Nat} {x : String} {f : Function} :
    (depth, x) ∈ f.uses ↔ ∃ s ∈ f.body, (depth + 1, x) ∈ s.uses := by
  cases f
  simp [Function.uses, Stmt.mem_usesOf_iff]

theorem Function.mem_usesOf_iff {use : Nat × String} {fs : List Function} :
    use ∈ Function.usesOf fs ↔ ∃ f ∈ fs, use ∈ f.uses := by
  induction fs with
  | nil => simp [Function.usesOf]
  | cons f fs ih => simp [Function.usesOf, ih]

theorem Address.mem_use {x y : String} {depth : Nat} {address : Address} :
    (depth, x) ∈ address.use y ↔ address = .hops depth ∧ y = x := by
  cases address <;> simp [Address.use, eq_comm]

/-! ### References and the nodes that make them -/

variable {nest inner : Nest} {node part : Node} {x : String}

/-- The reference that a node makes itself. -/
def Node.reference : Node → List (Nat × String)
  | .expr (.variable name address) | .expr (.assign name address _) => address.use name.lexeme
  | .stmt (.classDecl _ superclass? _) => superclassUse superclass?
  | _ => []

theorem refers_iff {depth : Nat} : Refers x depth node ↔ (depth, x) ∈ node.reference := by
  constructor
  · rintro (h | h | h) <;> simp [Node.reference, superclassUse, Address.use, h]
  · intro h
    unfold Node.reference at h
    split at h
    · obtain ⟨rfl, hx⟩ := Address.mem_use.1 h
      exact .read hx
    · obtain ⟨rfl, hx⟩ := Address.mem_use.1 h
      exact .write hx
    · unfold superclassUse at h
      split at h
      · cases h
      · obtain ⟨rfl, hx⟩ := Address.mem_use.1 h
        exact .superclass hx
    · cases h

theorem Nest.length_eq (nest : Nest) : nest.length = nest.openings.length := (List.length_map ..).symm

/-- A node is a reference, or holds it directly inside. -/
theorem Node.mem_uses_iff : (nest.length, x) ∈ node.uses ↔
    Refers x nest.length node ∨ (∃ part ∈ node.parts, (nest.length, x) ∈ part.uses) ∨
      node.HoldsWithin (fun nest part => (nest.length, x) ∈ part.uses) nest := by
  rw [refers_iff]
  cases node with
  | expr e =>
    cases e <;> simp [Node.uses, Expr.uses, Expr.mem_usesOf_iff, Stmt.mem_usesOf_iff, reference, parts,
      HoldsWithin, or_comm]
  | stmt s =>
    cases s with
    | varDecl name init? => cases init? <;> simp [Node.uses, Stmt.uses, reference, parts, HoldsWithin]
    | ifStmt condition onTrue onFalse? =>
      cases onFalse? <;> simp [Node.uses, Stmt.uses, reference, parts, HoldsWithin]
    | returnStmt keyword value? => cases value? <;> simp [Node.uses, Stmt.uses, reference, parts, HoldsWithin]
    | classDecl name superclass? methods =>
      cases superclass? <;>
        simp [Node.uses, Stmt.uses, superclassUse, outOfClass, Function.mem_usesOf_iff, Function.mem_uses_iff,
          reference, parts, HoldsWithin, Nest.around]
    | _ =>
      simp [Node.uses, Stmt.uses, Stmt.mem_usesOf_iff, Function.mem_uses_iff, reference, parts, HoldsWithin]

theorem Stmt.mem_usesOf {ss : List Stmt} :
    (0, x) ∈ Stmt.usesOf ss ↔ ∃ nest node, Located (· = ss) nest node ∧ Refers x nest.length node := by
  have honly : OpeningsOnly fun nest node => (nest.length, x) ∈ node.uses := by
    intro nest nest' node ho h
    rwa [Nest.length_eq, ho, ← Nest.length_eq] at h
  rw [located_iff honly fun _ _ => Node.mem_uses_iff, Stmt.mem_usesOf_iff]
  rfl

theorem Opening.uses_iff {scope : Opening} : scope.Uses x ↔ (0, x) ∈ Stmt.usesOf scope.body :=
  Stmt.mem_usesOf.symm

instance (scope : Opening) (x : String) : Decidable (scope.Uses x) :=
  decidable_of_iff _ Opening.uses_iff.symm

/-! ### Scopes in the order in which they are closed -/

mutual

def Expr.closings : Expr → List Opening
  | .gap | .literal _ | .variable .. | .this .. | .super .. | .inner .. => []
  | .grouping body => body.closings
  | .unary _ right => right.closings
  | .binary left _ right | .logical left _ right => left.closings ++ right.closings
  | .assign _ _ value => value.closings
  | .call callee _ arguments => callee.closings ++ Expr.closingsOf arguments
  | .lambda params body => Stmt.closingsOf body ++ [.call params body]
  | .get object _ => object.closings
  | .set object _ value => value.closings ++ object.closings

def Expr.closingsOf : List Expr → List Opening
  | [] => []
  | e :: es => e.closings ++ Expr.closingsOf es

def Stmt.closings : Stmt → List Opening
  | .gap | .varDecl _ none | .breakStmt _ | .returnStmt _ none => []
  | .bare value | .expression value | .print value | .varDecl _ (some value)
  | .returnStmt _ (some value) => value.closings
  | .block body => Stmt.closingsOf body ++ [.block body]
  | .ifStmt condition onTrue none => condition.closings ++ onTrue.closings
  | .ifStmt condition onTrue (some onFalse) => condition.closings ++ (onTrue.closings ++ onFalse.closings)
  | .whileStmt condition body => condition.closings ++ body.closings
  | .funDecl f => f.closings
  | .classDecl _ _ methods => Function.closingsOf methods

def Stmt.closingsOf : List Stmt → List Opening
  | [] => []
  | s :: ss => s.closings ++ Stmt.closingsOf ss

def Function.closings : Function → List Opening
  | ⟨_, params, body, _, _⟩ => Stmt.closingsOf body ++ [.call params body]

def Function.closingsOf : List Function → List Opening
  | [] => []
  | f :: fs => f.closings ++ Function.closingsOf fs

end

def Node.closings : Node → List Opening
  | .expr e => e.closings
  | .stmt s => s.closings

theorem Expr.mem_closingsOf_iff {scope : Opening} {es : List Expr} :
    scope ∈ Expr.closingsOf es ↔ ∃ e ∈ es, scope ∈ e.closings := by
  induction es with
  | nil => simp [Expr.closingsOf]
  | cons e es ih => simp [Expr.closingsOf, ih]

theorem Stmt.mem_closingsOf_iff {scope : Opening} {ss : List Stmt} :
    scope ∈ Stmt.closingsOf ss ↔ ∃ s ∈ ss, scope ∈ s.closings := by
  induction ss with
  | nil => simp [Stmt.closingsOf]
  | cons s ss ih => simp [Stmt.closingsOf, ih]

theorem Function.mem_closings_iff {scope : Opening} {f : Function} :
    scope ∈ f.closings ↔ (∃ s ∈ f.body, scope ∈ s.closings) ∨ scope = .call f.params f.body := by
  cases f
  simp [Function.closings, Stmt.mem_closingsOf_iff]

theorem Function.mem_closingsOf_iff {scope : Opening} {fs : List Function} :
    scope ∈ Function.closingsOf fs ↔ ∃ f ∈ fs, scope ∈ f.closings := by
  induction fs with
  | nil => simp [Function.closingsOf]
  | cons f fs ih => simp [Function.closingsOf, ih]

variable {scope : Opening}

/-- A scope is opened by a node, or directly inside it. -/
theorem Node.mem_closings_iff : scope ∈ node.closings ↔
    Opens scope nest node ∨ (∃ part ∈ node.parts, scope ∈ part.closings) ∨
      node.HoldsWithin (fun _ part => scope ∈ part.closings) nest := by
  rw [opens_iff]
  cases node with
  | expr e =>
    cases e <;> simp [Node.closings, Expr.closings, Expr.mem_closingsOf_iff, Stmt.mem_closingsOf_iff, opened,
      parts, HoldsWithin, or_comm]
  | stmt s =>
    cases s with
    | varDecl name init? => cases init? <;> simp [Node.closings, Stmt.closings, opened, parts, HoldsWithin]
    | ifStmt condition onTrue onFalse? =>
      cases onFalse? <;> simp [Node.closings, Stmt.closings, opened, parts, HoldsWithin]
    | returnStmt keyword value? =>
      cases value? <;> simp [Node.closings, Stmt.closings, opened, parts, HoldsWithin]
    | classDecl name superclass? methods =>
      simp [Node.closings, Stmt.closings, Function.mem_closingsOf_iff, Function.mem_closings_iff, opened, parts,
        HoldsWithin, and_or_left, exists_or, or_comm, eq_comm]
    | _ =>
      simp [Node.closings, Stmt.closings, Stmt.mem_closingsOf_iff, Function.mem_closings_iff, opened, parts,
        HoldsWithin, or_comm]

theorem Stmt.mem_closingsOf {ss : List Stmt} :
    scope ∈ Stmt.closingsOf ss ↔ ∃ nest node, Located (· = ss) nest node ∧ Opens scope nest node := by
  rw [located_iff (fun _ _ _ _ h => h) fun _ _ => Node.mem_closings_iff, Stmt.mem_closingsOf_iff]
  rfl

/-- The names that a scope declares and nothing refers to, in the order of their declarations. -/
def Opening.unused (scope : Opening) : List String := scope.declarations.filter (¬scope.Uses ·)

end Lox
