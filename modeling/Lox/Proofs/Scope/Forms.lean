import Lox.Proofs.Tree.Readable
import Lox.Scope.Resolve
import Mathlib.Logic.Basic

/-!
# Resolving keeps the forms

Resolving changes nothing but addresses. So a test of the nodes of a tree that does not look at addresses
has the same outcome before and after.
-/

namespace Lox

open Outcome Scope Scope.Resolving Lox.Tree

variable {warns : Bool} {statements program : List Stmt}

namespace Scope.Resolving

variable {α β : Type} {x : Resolving α} {f : α → Resolving β} {p : α → Prop} {q : β → Prop}

/-- Every result of a step of resolving has a property. -/
def Gives (x : Resolving α) (p : α → Prop) : Prop := ∀ r a r', x r = .ok a r' → p a

namespace Gives

theorem pure {a : α} (h : p a) : Gives (Pure.pure a) p := by
  intro r a' r' hr
  rw [← (pure_eq_ok.1 hr).1]
  exact h

theorem throw {d : Defect} : Gives (MonadExcept.throw d : Resolving α) p :=
  fun _ _ _ hr => (throw_eq_ok.1 hr).elim

theorem bind (hx : Gives x p) (hf : ∀ a, p a → Gives (f a) q) : Gives (x >>= f) q := by
  intro r b r'' hr
  obtain ⟨a, r', ha, hb⟩ := bind_eq_ok.1 hr
  exact hf a (hx r a r' ha) r' b r'' hb

theorem next (hf : ∀ a, Gives (f a) q) : Gives (x >>= f) q := by
  intro r b r'' hr
  obtain ⟨a, r', -, hb⟩ := bind_eq_ok.1 hr
  exact hf a r' b r'' hb

theorem inScope (hx : Gives x p) (names : Table Mark) : Gives (inScope names x) p :=
  next fun _ => hx.bind fun _ ha => next fun _ => pure ha

theorem inFunction (hx : Gives x p) (kind : FunctionKind) (params : List Token) :
    Gives (inFunction kind params x) p := by
  have hbody : Gives (do introduce params; x) p := next fun _ => hx
  exact next fun _ => next fun _ => (hbody.inScope .empty).bind fun _ ha => next fun _ => pure ha

theorem inClass (hx : Gives x p) : Gives (inClass x) p :=
  next fun _ => next fun _ => hx.bind fun _ ha => next fun _ => pure ha

theorem inVariable (hx : Gives x p) (name : Token) : Gives (inVariable name x) p := by
  intro r a r' h
  unfold Resolving.inVariable at h
  split at h
  · next hr =>
    cases h
    exact hx _ _ _ hr
  · cases h

theorem classBody (hx : Gives x p) (hasSuper : Bool) : Gives (classBody hasSuper x) p := by
  have hreceiver := hx.inScope (implicit "this")
  cases hasSuper with
  | false => exact hreceiver
  | true => exact hreceiver.inScope (implicit "super")

end Gives

end Scope.Resolving

/-! ### Trees without addresses -/

mutual

def Expr.unaddressed : Expr → Expr
  | .grouping body => .grouping body.unaddressed
  | .unary op right => .unary op right.unaddressed
  | .binary left op right => .binary left.unaddressed op right.unaddressed
  | .logical left op right => .logical left.unaddressed op right.unaddressed
  | .variable name _ => .variable name .free
  | .assign name _ value => .assign name .free value.unaddressed
  | .call callee paren arguments => .call callee.unaddressed paren (Expr.unaddressedAll arguments)
  | .lambda params body => .lambda params (Stmt.unaddressedAll body)
  | .get object name => .get object.unaddressed name
  | .set object name value => .set object.unaddressed name value.unaddressed
  | .this keyword _ => .this keyword .free
  | .super keyword method _ => .super keyword method .free
  | .inner keyword method _ => .inner keyword method .free
  | e => e

/-- The expressions with every address free. -/
def Expr.unaddressedAll : List Expr → List Expr
  | [] => []
  | e :: es => e.unaddressed :: Expr.unaddressedAll es

/-- The statement with every address free. -/
def Stmt.unaddressed : Stmt → Stmt
  | .bare value => .bare value.unaddressed
  | .expression value => .expression value.unaddressed
  | .print value => .print value.unaddressed
  | .varDecl name (some init) => .varDecl name (some init.unaddressed)
  | .block body => .block (Stmt.unaddressedAll body)
  | .ifStmt condition onTrue none => .ifStmt condition.unaddressed onTrue.unaddressed none
  | .ifStmt condition onTrue (some onFalse) =>
    .ifStmt condition.unaddressed onTrue.unaddressed (some onFalse.unaddressed)
  | .whileStmt condition body => .whileStmt condition.unaddressed body.unaddressed
  | .funDecl f => .funDecl f.unaddressed
  | .classDecl name superclass? methods =>
    .classDecl name (superclass?.map fun parent => (parent.1, .free)) (Function.unaddressedAll methods)
  | .returnStmt keyword (some value) => .returnStmt keyword (some value.unaddressed)
  | s => s

/-- The statements with every address free. -/
def Stmt.unaddressedAll : List Stmt → List Stmt
  | [] => []
  | s :: ss => s.unaddressed :: Stmt.unaddressedAll ss

def Function.unaddressed : Function → Function
  | ⟨name, params, body, isStatic, isGetter⟩ =>
    ⟨name, params, Stmt.unaddressedAll body, isStatic, isGetter⟩

def Function.unaddressedAll : List Function → List Function
  | [] => []
  | f :: fs => f.unaddressed :: Function.unaddressedAll fs

end

theorem Function.unaddressed_eq (f : Function) :
    f.unaddressed = { f with body := Stmt.unaddressedAll f.body } := by
  cases f
  rfl

theorem Function.name_unaddressed (f : Function) : f.unaddressed.name = f.name := by
  rw [unaddressed_eq]

theorem Function.unaddressedAll_eq (fs : List Function) :
    Function.unaddressedAll fs = fs.map Function.unaddressed := by
  induction fs with
  | nil => rfl
  | cons f fs ih => simp only [Function.unaddressedAll, List.map_cons, ih]

def Node.unaddressed : Node → Node
  | .expr e => .expr e.unaddressed
  | .stmt s => .stmt s.unaddressed

theorem Scope.Resolving.superclass_unaddressed (name : Token) (superclass? : Option (Token × Address)) :
    Gives (Resolving.superclass name superclass?) fun parent? =>
      (parent?.map fun parent => (parent.1, Address.free)) =
        superclass?.map fun parent => (parent.1, .free) := by
  cases superclass? with
  | none => exact .pure rfl
  | some parent =>
    obtain ⟨token, address⟩ := parent
    unfold Resolving.superclass
    dsimp only
    split
    · exact .next fun _ => .next fun _ => .pure rfl
    · exact .next fun _ => .pure rfl

mutual

theorem Expr.resolve_unaddressed : ∀ e : Expr,
    Gives e.resolve fun e' => e'.unaddressed = e.unaddressed
  | .gap => .throw
  | .literal _ => .pure rfl
  | .grouping body => body.resolve_unaddressed.bind fun _ hb =>
      .pure (by simp only [Expr.unaddressed, hb])
  | .unary _ right => right.resolve_unaddressed.bind fun _ hr =>
      .pure (by simp only [Expr.unaddressed, hr])
  | .binary left _ right | .logical left _ right =>
    left.resolve_unaddressed.bind fun _ hl => right.resolve_unaddressed.bind fun _ hr =>
      .pure (by simp only [Expr.unaddressed, hl, hr])
  | .variable _ _ => .next fun _ => .pure rfl
  | .assign _ _ value => value.resolve_unaddressed.bind fun _ hv => .next fun _ =>
      .pure (by simp only [Expr.unaddressed, hv])
  | .call callee _ arguments =>
    callee.resolve_unaddressed.bind fun _ hc => (Expr.resolveAll_unaddressed arguments).bind fun _ ha =>
      .pure (by simp only [Expr.unaddressed, hc, ha])
  | .lambda params body =>
    ((Stmt.resolveAll_unaddressed body).inFunction _ params).bind fun _ hb =>
      .pure (by simp only [Expr.unaddressed, hb])
  | .get object _ => object.resolve_unaddressed.bind fun _ ho =>
      .pure (by simp only [Expr.unaddressed, ho])
  | .set object _ value =>
    value.resolve_unaddressed.bind fun _ hv => object.resolve_unaddressed.bind fun _ ho =>
      .pure (by simp only [Expr.unaddressed, ho, hv])
  | .this .. => .next fun _ => .pure rfl
  | .super .. => .next fun _ => .pure rfl
  | .inner .. => .next fun _ => .pure rfl

theorem Expr.resolveAll_unaddressed : ∀ es : List Expr,
    Gives (Expr.resolveAll es) fun es' => Expr.unaddressedAll es' = Expr.unaddressedAll es
  | [] => .pure rfl
  | e :: es =>
    e.resolve_unaddressed.bind fun _ he => (Expr.resolveAll_unaddressed es).bind fun _ hes =>
      .pure (by simp only [Expr.unaddressedAll, he, hes])

theorem Stmt.resolve_unaddressed : ∀ s : Stmt,
    Gives s.resolve fun s' => s'.unaddressed = s.unaddressed
  | .gap => .throw
  | .bare value | .expression value | .print value =>
    value.resolve_unaddressed.bind fun _ hv => .pure (by simp only [Stmt.unaddressed, hv])
  | .varDecl _ none => .next fun _ => .next fun _ => .pure rfl
  | .varDecl name (some init) =>
    .next fun _ => (init.resolve_unaddressed.inVariable name).bind fun _ hi => .next fun _ =>
      .pure (by simp only [Stmt.unaddressed, hi])
  | .block body =>
    ((Stmt.resolveAll_unaddressed body).inScope .empty).bind fun _ hb =>
      .pure (by simp only [Stmt.unaddressed, hb])
  | .ifStmt condition onTrue none | .whileStmt condition onTrue =>
    condition.resolve_unaddressed.bind fun _ hc => onTrue.resolve_unaddressed.bind fun _ ht =>
      .pure (by simp only [Stmt.unaddressed, hc, ht])
  | .ifStmt condition onTrue (some onFalse) =>
    condition.resolve_unaddressed.bind fun _ hc => onTrue.resolve_unaddressed.bind fun _ ht =>
      onFalse.resolve_unaddressed.bind fun _ hf =>
        .pure (by simp only [Stmt.unaddressed, hc, ht, hf])
  | .breakStmt _ => .pure rfl
  | .funDecl f => .next fun _ => .next fun _ => (f.resolve_unaddressed _).bind fun _ hf =>
      .pure (by simp only [Stmt.unaddressed, hf])
  | .classDecl name superclass? methods => by
    refine Gives.inClass (.next fun _ => .next fun _ => ?_)
    refine (superclass_unaddressed name superclass?).bind fun parent? hp => ?_
    exact ((Function.resolveAll_unaddressed methods).classBody _).bind fun _ hm =>
      .pure (by simp only [Stmt.unaddressed, hm, hp])
  | .returnStmt keyword none => .next fun _ => by
    dsimp only
    split
    · exact .pure rfl
    · exact .next fun _ => .pure rfl
  | .returnStmt keyword (some value) => .next fun _ => by
    have hvalue : Gives (do return Stmt.returnStmt keyword (some (← value.resolve)))
        fun s' => s'.unaddressed = (Stmt.returnStmt keyword (some value)).unaddressed :=
      value.resolve_unaddressed.bind fun _ hv => .pure (by simp only [Stmt.unaddressed, hv])
    dsimp only
    split
    · exact hvalue
    · exact .next fun _ => hvalue

theorem Stmt.resolveAll_unaddressed : ∀ ss : List Stmt,
    Gives (Stmt.resolveAll ss) fun ss' => Stmt.unaddressedAll ss' = Stmt.unaddressedAll ss
  | [] => .pure rfl
  | s :: ss =>
    s.resolve_unaddressed.bind fun _ hs => (Stmt.resolveAll_unaddressed ss).bind fun _ hss =>
      .pure (by simp only [Stmt.unaddressedAll, hs, hss])

theorem Function.resolve_unaddressed : ∀ (f : Function) (kind : FunctionKind),
    Gives (f.resolve kind) fun f' => f'.unaddressed = f.unaddressed
  | ⟨_, params, body, _, _⟩, kind =>
    ((Stmt.resolveAll_unaddressed body).inFunction _ params).bind fun _ hb =>
      .pure (by simp only [Function.unaddressed, hb])

theorem Function.resolveAll_unaddressed : ∀ fs : List Function,
    Gives (Function.resolveAll fs) fun fs' =>
      Function.unaddressedAll fs' = Function.unaddressedAll fs
  | [] => .pure rfl
  | f :: fs =>
    (f.resolve_unaddressed _).bind fun _ hf => (Function.resolveAll_unaddressed fs).bind fun _ hfs =>
      .pure (by simp only [Function.unaddressedAll, hf, hfs])

end

theorem Scope.resolve_unaddressed (hr : (Scope.resolve warns statements).statements = .ok program) :
    Stmt.unaddressedAll program = Stmt.unaddressedAll statements := by
  unfold Scope.resolve at hr
  split at hr
  · next resolved r hrun =>
    cases hr
    exact Stmt.resolveAll_unaddressed statements _ _ _ hrun
  · cases hr

/-! ### Tests that do not look at addresses -/

section Tests

variable {p : Node → Bool}

mutual

theorem Expr.all_unaddressed (h : ∀ node : Node, p node.unaddressed = p node) :
    ∀ e : Expr, e.unaddressed.all p = e.all p
  | .gap | .literal _ => rfl
  | .variable name address => h (.expr (.variable name address))
  | .this keyword address => h (.expr (.this keyword address))
  | .super keyword method address => h (.expr (.super keyword method address))
  | .inner keyword method address => h (.expr (.inner keyword method address))
  | .grouping body => congrArg₂ and (h (.expr (.grouping body))) (body.all_unaddressed h)
  | .unary op right => congrArg₂ and (h (.expr (.unary op right))) (right.all_unaddressed h)
  | .binary left op right =>
    congrArg₂ and (h (.expr (.binary left op right)))
      (congrArg₂ and (left.all_unaddressed h) (right.all_unaddressed h))
  | .logical left op right =>
    congrArg₂ and (h (.expr (.logical left op right)))
      (congrArg₂ and (left.all_unaddressed h) (right.all_unaddressed h))
  | .assign name address value =>
    congrArg₂ and (h (.expr (.assign name address value))) (value.all_unaddressed h)
  | .call callee paren arguments =>
    congrArg₂ and (h (.expr (.call callee paren arguments)))
      (congrArg₂ and (callee.all_unaddressed h) (Expr.allOf_unaddressed h arguments))
  | .lambda params body =>
    congrArg₂ and (h (.expr (.lambda params body))) (Stmt.allOf_unaddressed h body)
  | .get object name => congrArg₂ and (h (.expr (.get object name))) (object.all_unaddressed h)
  | .set object name value =>
    congrArg₂ and (h (.expr (.set object name value)))
      (congrArg₂ and (object.all_unaddressed h) (value.all_unaddressed h))

theorem Expr.allOf_unaddressed (h : ∀ node : Node, p node.unaddressed = p node) : ∀ es : List Expr,
    Expr.allOf p (Expr.unaddressedAll es) = Expr.allOf p es
  | [] => rfl
  | e :: es => congrArg₂ and (e.all_unaddressed h) (Expr.allOf_unaddressed h es)

theorem Stmt.all_unaddressed (h : ∀ node : Node, p node.unaddressed = p node) :
    ∀ s : Stmt, s.unaddressed.all p = s.all p
  | .gap | .varDecl _ none | .breakStmt _ | .returnStmt _ none => rfl
  | .bare value => congrArg₂ and (h (.stmt (.bare value))) (value.all_unaddressed h)
  | .expression value => congrArg₂ and (h (.stmt (.expression value))) (value.all_unaddressed h)
  | .print value => congrArg₂ and (h (.stmt (.print value))) (value.all_unaddressed h)
  | .varDecl name (some init) =>
    congrArg₂ and (h (.stmt (.varDecl name (some init)))) (init.all_unaddressed h)
  | .block body => congrArg₂ and (h (.stmt (.block body))) (Stmt.allOf_unaddressed h body)
  | .ifStmt condition onTrue none =>
    congrArg₂ and (h (.stmt (.ifStmt condition onTrue none)))
      (congrArg₂ and (condition.all_unaddressed h) (onTrue.all_unaddressed h))
  | .ifStmt condition onTrue (some onFalse) =>
    congrArg₂ and (h (.stmt (.ifStmt condition onTrue (some onFalse))))
      (congrArg₂ and (condition.all_unaddressed h)
        (congrArg₂ and (onTrue.all_unaddressed h) (onFalse.all_unaddressed h)))
  | .whileStmt condition body =>
    congrArg₂ and (h (.stmt (.whileStmt condition body)))
      (congrArg₂ and (condition.all_unaddressed h) (body.all_unaddressed h))
  | .funDecl f => congrArg₂ and (h (.stmt (.funDecl f))) (f.all_unaddressed h)
  | .classDecl name superclass? methods =>
    congrArg₂ and (h (.stmt (.classDecl name superclass? methods))) (Function.allOf_unaddressed h methods)
  | .returnStmt keyword (some value) =>
    congrArg₂ and (h (.stmt (.returnStmt keyword (some value)))) (value.all_unaddressed h)

theorem Stmt.allOf_unaddressed (h : ∀ node : Node, p node.unaddressed = p node) : ∀ ss : List Stmt,
    Stmt.allOf p (Stmt.unaddressedAll ss) = Stmt.allOf p ss
  | [] => rfl
  | s :: ss => congrArg₂ and (s.all_unaddressed h) (Stmt.allOf_unaddressed h ss)

theorem Function.all_unaddressed (h : ∀ node : Node, p node.unaddressed = p node) :
    ∀ f : Function, f.unaddressed.all p = f.all p
  | ⟨_, _, body, _, _⟩ => Stmt.allOf_unaddressed h body

theorem Function.allOf_unaddressed (h : ∀ node : Node, p node.unaddressed = p node) :
    ∀ fs : List Function, Function.allOf p (Function.unaddressedAll fs) = Function.allOf p fs
  | [] => rfl
  | f :: fs => congrArg₂ and (f.all_unaddressed h) (Function.allOf_unaddressed h fs)

end

theorem Scope.resolve_allOf (h : ∀ node : Node, p node.unaddressed = p node) {warns : Bool}
    {statements program : List Stmt}
    (hr : (Scope.resolve warns statements).statements = .ok program) :
    Stmt.allOf p program = Stmt.allOf p statements := by
  rw [← Stmt.allOf_unaddressed h program, Scope.resolve_unaddressed hr,
    Stmt.allOf_unaddressed h statements]

end Tests

/-! ### Forms and words -/

theorem Stmt.declared_unaddressed : ∀ s : Stmt, s.unaddressed.declared = s.declared
  | .ifStmt _ onTrue none => onTrue.declared_unaddressed
  | .ifStmt _ onTrue (some onFalse) =>
    congrArg₂ _ onTrue.declared_unaddressed onFalse.declared_unaddressed
  | .whileStmt _ body => body.declared_unaddressed
  | .funDecl f => congrArg (fun name : Token => [name.lexeme]) f.name_unaddressed
  | .gap | .bare _ | .expression _ | .print _ | .varDecl _ none | .varDecl _ (some _) | .block _
  | .breakStmt _ | .classDecl .. | .returnStmt _ none | .returnStmt _ (some _) => rfl

theorem Stmt.declared_resolve {s s' : Stmt} {r r' : Resolution} (h : s.resolve r = .ok s' r') :
    s'.declared = s.declared := by
  rw [← s'.declared_unaddressed, s.resolve_unaddressed _ _ _ h, s.declared_unaddressed]

theorem Function.name_resolve {kind : FunctionKind} {f f' : Function} {r r' : Resolution}
    (h : f.resolve kind r = .ok f' r') : f'.name = f.name := by
  rw [← f'.name_unaddressed, f.resolve_unaddressed kind _ _ _ h, f.name_unaddressed]

theorem Function.isReadable_unaddressed (f : Function) : f.unaddressed.isReadable = f.isReadable := by
  rw [unaddressed_eq]
  rfl

namespace Node

theorem isReadable_unaddressed (node : Node) : node.unaddressed.isReadable = node.isReadable := by
  cases node with
  | expr e => cases e <;> rfl
  | stmt s =>
    cases s with
    | ifStmt condition onTrue onFalse? =>
      have hdeclared := (Stmt.ifStmt condition onTrue onFalse?).declared_unaddressed
      cases onFalse? <;> exact congrArg List.isEmpty hdeclared
    | whileStmt condition body => exact congrArg List.isEmpty body.declared_unaddressed
    | funDecl f => exact f.isReadable_unaddressed
    | classDecl name superclass? methods =>
      simp only [unaddressed, Stmt.unaddressed, isReadable, Function.unaddressedAll_eq, List.all_map,
        Function.comp_def, Function.isReadable_unaddressed]
    | varDecl name init? => cases init? <;> rfl
    | returnStmt keyword value? => cases value? <;> rfl
    | _ => rfl

theorem words_unaddressed (node : Node) : node.unaddressed.words = node.words := by
  cases node with
  | expr e => cases e <;> rfl
  | stmt s =>
    cases s with
    | funDecl f => simp only [unaddressed, Stmt.unaddressed, words, Function.unaddressed_eq]
    | classDecl name superclass? methods =>
      simp only [unaddressed, Stmt.unaddressed, words, Function.unaddressedAll_eq, List.flatMap_map,
        Function.unaddressed_eq]
      cases superclass? <;> rfl
    | ifStmt condition onTrue onFalse? => cases onFalse? <;> rfl
    | varDecl name init? => cases init? <;> rfl
    | returnStmt keyword value? => cases value? <;> rfl
    | _ => rfl

theorem isWorded_unaddressed (good : Token → Bool) (node : Node) :
    node.unaddressed.isWorded good = node.isWorded good := by
  unfold isWorded
  rw [isReadable_unaddressed, words_unaddressed]

end Node

theorem Scope.resolve_worded {good : Token → Bool} (h : WordedBody good statements)
    (hr : (Scope.resolve warns statements).statements = .ok program) : WordedBody good program :=
  (Scope.resolve_allOf (Node.isWorded_unaddressed good) hr).trans h

/-! ### Variables -/

/-- The variables that a node gives a value, or that a function in it has as parameters. -/
def Node.bound : Node → List Token
  | .expr (.assign name _ _) | .stmt (.varDecl name _) => [name]
  | .expr (.lambda params _) => params
  | .stmt (.funDecl f) => f.name :: f.params
  | .stmt (.classDecl name _ methods) => name :: methods.flatMap Function.params
  | _ => []

/-- Whether none of these has one of the given names. -/
def Node.spares (names : List String) (node : Node) : Bool :=
  node.bound.all fun name => !names.contains name.lexeme

namespace Node

variable {names : List String} {node : Node}

theorem ne_of_spares (h : node.spares names = true) {x : String} (hx : x ∈ names) {name : Token}
    (hn : name ∈ node.bound) : name.lexeme ≠ x := by
  have hname : name.lexeme ∉ names := by simpa using List.all_eq_true.1 h name hn
  exact fun heq => hname (heq ▸ hx)

theorem spares_mono {names' : List String} (hs : names' ⊆ names) (h : node.spares names = true) :
    node.spares names' = true := by
  refine List.all_eq_true.2 fun name hn => ?_
  have hne : ∀ x ∈ names', name.lexeme ≠ x := fun x hx => ne_of_spares h (hs hx) hn
  simpa using fun hmem => hne _ hmem rfl

theorem bound_unaddressed (node : Node) : node.unaddressed.bound = node.bound := by
  cases node with
  | expr e => cases e <;> rfl
  | stmt s =>
    cases s with
    | funDecl f => simp only [unaddressed, Stmt.unaddressed, bound, Function.unaddressed_eq]
    | classDecl name superclass? methods =>
      simp only [unaddressed, Stmt.unaddressed, bound, Function.unaddressedAll_eq, List.flatMap_map,
        Function.unaddressed_eq]
    | ifStmt condition onTrue onFalse? => cases onFalse? <;> rfl
    | varDecl name init? => cases init? <;> rfl
    | returnStmt keyword value? => cases value? <;> rfl
    | _ => rfl

end Node

/-- Resolving changes no names. -/
theorem Scope.resolve_spares {names : List String} (h : Stmt.allOf (Node.spares names) statements = true)
    (hr : (Scope.resolve warns statements).statements = .ok program) :
    Stmt.allOf (Node.spares names) program = true := by
  refine (Scope.resolve_allOf (fun node => ?_) hr).trans h
  unfold Node.spares
  rw [Node.bound_unaddressed]

end Lox
