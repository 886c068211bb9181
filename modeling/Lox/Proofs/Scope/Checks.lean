import Lox.Proofs.Scope.Walk
import Lox.Proofs.Scope.Inside

/-!
# What resolving finds to be wrong

The flaws that resolving reports are the offences of a program, each at its token and in its order.
-/

namespace Lox

open Scope Scope.Resolving Outcome

variable {body : List Stmt} {s : Stmt}

/-! ### Offences -/

namespace Opening

/-- Whether a scope is opened for the call of a function, a method or a lambda. -/
def isCall : Opening → Bool
  | call .. => true
  | _ => false

/-- Whether a scope is opened for the receiver of the methods of a class. -/
def isReceiver : Opening → Bool
  | receiver => true
  | _ => false

/-- The names that a program declares in a scope, in order. -/
def declarations : Opening → List String
  | block body => body.flatMap Stmt.declared
  | call params body => params.map (·.lexeme) ++ body.flatMap Stmt.declared
  | receiver | parent => []

end Opening

namespace Nest

/-- Whether a place is inside the body of a function, a method or a lambda. -/
def inFunction (nest : Nest) : Bool := nest.any (·.opening.isCall)

def inClass (nest : Nest) : Bool := nest.any (·.opening.isReceiver)

theorem inFunction_eq (nest : Nest) : nest.inFunction = nest.openings.any Opening.isCall := by
  rw [openings, List.any_map]
  rfl

theorem inClass_eq (nest : Nest) : nest.inClass = nest.openings.any Opening.isReceiver := by
  rw [openings, List.any_map]
  rfl

end Nest

/-- What can be wrong with a node that stands in some scopes. -/
inductive Offence (nest : Nest) : Node → Prop where
  /-- A return outside of every function, method and lambda. -/
  | looseReturn {keyword : Token} {value? : Option Expr} (h : nest.inFunction = false) :
      Offence nest (.stmt (.returnStmt keyword value?))
  /-- A `this` outside of every class. -/
  | looseThis {keyword : Token} {address : Address} (h : nest.inClass = false) :
      Offence nest (.expr (.this keyword address))
  /-- An `inner` outside of every class. -/
  | looseInner {keyword method : Token} {address : Address} (h : nest.inClass = false) :
      Offence nest (.expr (.inner keyword method address))
  /-- A scope that is opened for a node in which a name is declared twice. -/
  | repetition {node : Node} {scope : Layer} {outer : Nest} {body : List Stmt}
      (he : Encloses nest node (scope :: outer) body) (h : ¬scope.opening.declarations.Nodup) :
      Offence nest node
  /-- A class that names itself as its superclass. -/
  | ownParent {name parent : Token} {address : Address} {methods : List Function}
      (h : name.lexeme = parent.lexeme) :
      Offence nest (.stmt (.classDecl name (some (parent, address)) methods))

def repeats (names : List String) : Bool := !decide names.Nodup

theorem repeats_iff {names : List String} : repeats names = true ↔ ¬names.Nodup := by
  simp [repeats]

/-- Whether a class has its own name as its superclass. -/
def namesItself (name : Token) : Option (Token × Address) → Bool
  | none => false
  | some (parent, _) => name.lexeme = parent.lexeme

mutual

/-- Whether an expression is wrong somewhere. -/
def Expr.offends (inFunction inClass : Bool) : Expr → Bool
  | .gap | .literal _ | .variable .. | .super .. => false
  | .grouping body => body.offends inFunction inClass
  | .unary _ right => right.offends inFunction inClass
  | .binary left _ right | .logical left _ right =>
    left.offends inFunction inClass || right.offends inFunction inClass
  | .assign _ _ value => value.offends inFunction inClass
  | .call callee _ arguments =>
    callee.offends inFunction inClass || Expr.offendsAny inFunction inClass arguments
  | .lambda params body =>
    repeats (Opening.call params body).declarations || Stmt.offendsAny true inClass body
  | .get object _ => object.offends inFunction inClass
  | .set object _ value => value.offends inFunction inClass || object.offends inFunction inClass
  | .this .. | .inner .. => !inClass

/-- Whether one of some expressions is wrong somewhere. -/
def Expr.offendsAny (inFunction inClass : Bool) : List Expr → Bool
  | [] => false
  | e :: es => e.offends inFunction inClass || Expr.offendsAny inFunction inClass es

/-- Whether a statement is wrong somewhere. -/
def Stmt.offends (inFunction inClass : Bool) : Stmt → Bool
  | .gap | .varDecl _ none | .breakStmt _ => false
  | .bare value | .expression value | .print value | .varDecl _ (some value) =>
    value.offends inFunction inClass
  | .block body =>
    repeats (Opening.block body).declarations || Stmt.offendsAny inFunction inClass body
  | .ifStmt condition onTrue none =>
    condition.offends inFunction inClass || onTrue.offends inFunction inClass
  | .ifStmt condition onTrue (some onFalse) =>
    condition.offends inFunction inClass ||
      (onTrue.offends inFunction inClass || onFalse.offends inFunction inClass)
  | .whileStmt condition body => condition.offends inFunction inClass || body.offends inFunction inClass
  | .funDecl f => f.offends inClass
  | .classDecl name superclass? methods =>
    namesItself name superclass? || Function.offendsAny true methods
  | .returnStmt _ none => !inFunction
  | .returnStmt _ (some value) => !inFunction || value.offends inFunction inClass

/-- Whether one of some statements is wrong somewhere. -/
def Stmt.offendsAny (inFunction inClass : Bool) : List Stmt → Bool
  | [] => false
  | s :: ss => s.offends inFunction inClass || Stmt.offendsAny inFunction inClass ss

def Function.offends (inClass : Bool) : Function → Bool
  | ⟨_, params, body, _, _⟩ =>
    repeats (Opening.call params body).declarations || Stmt.offendsAny true inClass body

def Function.offendsAny (inClass : Bool) : List Function → Bool
  | [] => false
  | f :: fs => f.offends inClass || Function.offendsAny inClass fs

end

def Node.offends (inFunction inClass : Bool) : Node → Bool
  | .expr e => e.offends inFunction inClass
  | .stmt s => s.offends inFunction inClass

theorem Expr.offendsAny_eq (inFunction inClass : Bool) (es : List Expr) :
    Expr.offendsAny inFunction inClass es = es.any (Expr.offends inFunction inClass) := by
  induction es with
  | nil => rfl
  | cons e es ih => rw [Expr.offendsAny, ih, List.any_cons]

theorem Stmt.offendsAny_eq (inFunction inClass : Bool) (ss : List Stmt) :
    Stmt.offendsAny inFunction inClass ss = ss.any (Stmt.offends inFunction inClass) := by
  induction ss with
  | nil => rfl
  | cons s ss ih => rw [Stmt.offendsAny, ih, List.any_cons]

theorem Function.offendsAny_eq (inClass : Bool) (fs : List Function) :
    Function.offendsAny inClass fs = fs.any (Function.offends inClass) := by
  induction fs with
  | nil => rfl
  | cons f fs ih => rw [Function.offendsAny, ih, List.any_cons]

theorem Function.offends_eq (inClass : Bool) (f : Function) :
    f.offends inClass = (repeats (Opening.call f.params f.body).declarations ||
      f.body.any (Stmt.offends true inClass)) := by
  obtain ⟨name, params, body, isStatic, isGetter⟩ := f
  rw [Function.offends, Stmt.offendsAny_eq]

/-! ### The check and the offences -/

variable {nest inner : Nest} {node part : Node}

/-- What can be wrong with a node apart from the scopes that it opens. -/
def Node.Misplaced (nest : Nest) : Node → Prop
  | .stmt (.returnStmt ..) => nest.inFunction = false
  | .expr (.this ..) | .expr (.inner ..) => nest.inClass = false
  | .stmt (.classDecl name superclass? _) => namesItself name superclass? = true
  | _ => False

theorem offence_iff : Offence nest node ↔
    node.Misplaced nest ∨ ∃ scope ∈ node.opened, repeats scope.declarations = true := by
  constructor
  · intro h
    cases h with
    | looseReturn h | looseThis h | looseInner h => exact .inl h
    | @repetition _ scope outer body he h =>
      exact .inr ⟨scope.opening, opens_iff.1 ⟨scope.names, outer, body, he⟩, repeats_iff.2 h⟩
    | ownParent h => exact .inl (decide_eq_true h)
  · rintro (h | ⟨scope, hs, h⟩)
    · unfold Node.Misplaced at h
      split at h
      · exact .looseReturn h
      · exact .looseThis h
      · exact .looseInner h
      · unfold namesItself at h
        split at h
        · cases h
        · exact .ownParent (of_decide_eq_true h)
      · cases h
    · obtain ⟨names, outer, body, he⟩ := opens_iff.2 hs
      exact .repetition he (repeats_iff.1 h)

/-- What is wrong with a node is an offence there, or it is wrong with something directly inside. -/
theorem Node.offends_iff : node.offends nest.inFunction nest.inClass = true ↔
    Offence nest node ∨ (∃ part ∈ node.parts, part.offends nest.inFunction nest.inClass = true) ∨
      node.HoldsWithin (fun nest part => part.offends nest.inFunction nest.inClass = true) nest := by
  rw [offence_iff]
  cases node with
  | expr e =>
    cases e <;> simp [Node.offends, Expr.offends, Expr.offendsAny_eq, Stmt.offendsAny_eq, Misplaced, opened,
      parts, HoldsWithin, Nest.inFunction_eq, Nest.inClass_eq, Opening.isCall, Opening.isReceiver, or_comm]
  | stmt s =>
    cases s with
    | varDecl name init? =>
      cases init? <;> simp [Node.offends, Stmt.offends, Misplaced, opened, parts, HoldsWithin]
    | ifStmt condition onTrue onFalse? =>
      cases onFalse? <;> simp [Node.offends, Stmt.offends, Misplaced, opened, parts, HoldsWithin]
    | returnStmt keyword value? =>
      cases value? <;> simp [Node.offends, Stmt.offends, Misplaced, opened, parts, HoldsWithin]
    | classDecl name superclass? methods =>
      simp [Node.offends, Stmt.offends, Function.offendsAny_eq, Function.offends_eq, Misplaced, opened, parts,
        HoldsWithin, Nest.inFunction_eq, Nest.inClass_eq, Opening.isCall, Opening.isReceiver, and_or_left,
        exists_or, or_assoc]
    | _ =>
      simp [Node.offends, Stmt.offends, Stmt.offendsAny_eq, Function.offends_eq, Misplaced, opened, parts,
        HoldsWithin, Nest.inFunction_eq, Nest.inClass_eq, Opening.isCall, Opening.isReceiver]

theorem Stmt.offendsAny_iff {ss : List Stmt} :
    Stmt.offendsAny false false ss = true ↔
      ∃ nest node, Located (· = ss) nest node ∧ Offence nest node := by
  have honly : OpeningsOnly fun nest node => node.offends nest.inFunction nest.inClass = true := by
    intro nest nest' node ho h
    rwa [Nest.inFunction_eq, Nest.inClass_eq, ho, ← Nest.inFunction_eq, ← Nest.inClass_eq] at h
  rw [located_iff honly fun _ _ => Node.offends_iff, Stmt.offendsAny_eq, List.any_eq_true]
  rfl

/-! ### What a step of resolving finds -/

namespace Scope

def Resolution.Flawed (r : Resolution) : Prop := ∃ token flaw, Notice.flawed token flaw ∈ r.notices

/-- A name is declared in the innermost of some scopes that holds it already. -/
def Clash (names : List String) : List (Set String) → Prop
  | [] => False
  | scope :: _ => ¬names.Nodup ∨ ∃ x ∈ names, x ∈ scope

@[simp] theorem clash_nil (scopes : List (Set String)) : ¬Clash [] scopes := by
  cases scopes <;> simp [Clash]

@[simp] theorem clash_empty (names : List String) (scopes : List (Set String)) :
    Clash names (∅ :: scopes) ↔ ¬names.Nodup := by
  simp [Clash]

theorem clash_append (xs ys : List String) (scopes : List (Set String)) :
    Clash (xs ++ ys) scopes ↔ Clash xs scopes ∨ Clash ys (extend xs scopes) := by
  cases scopes with
  | nil => simp [Clash, extend]
  | cons scope outer =>
    simp only [Clash, extend, List.nodup_append, List.mem_append, Set.mem_union, Set.mem_ofPred_eq]
    grind

theorem Leads.held_eq {r r' : Resolution} (h : Leads r r' []) : r'.held = r.held := by
  rw [h.held, extend_nil]

/-- A step of resolving finds something wrong under a condition, and nothing else. -/
def Finds {α : Type} (wrong : Prop) (x : Resolving α) (r : Resolution) : Prop :=
  ∀ a r', x r = .ok a r' → (r'.Flawed ↔ r.Flawed ∨ wrong)

namespace Finds

variable {α β : Type} {x : Resolving α} {f : α → Resolving β} {P Q : Prop} {r : Resolution}

theorem congr (h : Finds P x r) (hpq : P ↔ Q) : Finds Q x r := fun a r' hx => by
  rw [h a r' hx, hpq]

theorem none (h : ∀ a r', x r = .ok a r' → (r'.Flawed ↔ r.Flawed)) : Finds False x r :=
  fun a r' hx => by rw [h a r' hx, or_false]

theorem pure (a : α) : Finds False (Pure.pure a) r := by
  refine none fun b r' hx => ?_
  obtain ⟨-, rfl⟩ := pure_eq_ok.1 hx
  rfl

theorem bind (hx : Finds P x r) (hf : ∀ a r', x r = .ok a r' → Finds Q (f a) r') :
    Finds (P ∨ Q) (x >>= f) r := by
  intro b r'' h
  obtain ⟨a, r', ha, hb⟩ := bind_eq_ok.1 h
  rw [hf a r' ha b r'' hb, hx a r' ha, or_assoc]

theorem get_bind {f : Resolution → Resolving β} (h : Finds P (f r) r) : Finds P (get >>= f) r := h

theorem after (hx : Finds False x r) (hf : ∀ a r', x r = .ok a r' → Finds Q (f a) r') :
    Finds Q (x >>= f) r :=
  (hx.bind hf).congr (iff_of_eq (false_or Q))

theorem before (hx : Finds P x r) (hf : ∀ a r', x r = .ok a r' → Finds False (f a) r') :
    Finds P (x >>= f) r :=
  (hx.bind hf).congr (iff_of_eq (or_false P))

end Finds

namespace Resolving

variable {r : Resolution}

variable {α : Type} {P : Prop}

theorem finds_report (token : Token) (flaw : Flaw) : Finds True (report (.flawed token flaw)) r := by
  intro _ r' h
  obtain rfl := modify_eq_ok.1 h
  exact ⟨fun _ => .inr trivial, fun _ => ⟨token, flaw, by simp⟩⟩

theorem flawed_congr {r' : Resolution} (h : r'.notices = r.notices) : r'.Flawed ↔ r.Flawed := by
  unfold Resolution.Flawed
  rw [h]

theorem finds_modify {change : Resolution → Resolution} (h : ∀ r, (change r).notices = r.notices) :
    Finds False (modify change : Resolving PUnit) r := by
  refine .none fun a r' hr => flawed_congr ?_
  rw [← modify_eq_ok.1 hr]
  exact h r

theorem finds_locate (form : Form) (token : Token) : Finds False (locate form token) r := by
  refine .none fun a r' h => flawed_congr ?_
  obtain ⟨-, -, rfl⟩ | ⟨_, _, -, -, rfl⟩ := locate_eq_ok.1 h <;> rfl

theorem finds_locateInClass (form : Form) (keyword : Token) (flaw : Flaw) :
    Finds ((!r.inClass) = true) (locateInClass form keyword flaw) r := by
  refine .get_bind ?_
  by_cases hc : r.inClass = true
  · rw [if_pos hc]
    exact (finds_locate form keyword).congr (by simp [hc])
  · rw [if_neg hc]
    exact ((finds_report keyword flaw).before fun _ _ _ => .pure _).congr (by simp [hc])

theorem finds_declare (name : Token) : Finds (Clash [name.lexeme] r.held) (declare name) r := by
  intro _ r' h
  obtain ⟨hs, rfl⟩ | ⟨scope, outer, hs, rfl⟩ := declare_eq_ok.1 h
  · simp [Resolution.held, hs, Clash]
  · have hclash : Clash [name.lexeme] r.held ↔ scope.contains name.lexeme = true := by
      simp [Resolution.held, hs, Clash, Table.domain]
    rw [hclash]
    unfold Resolution.Flawed
    cases scope.contains name.lexeme with
    | false => simp
    | true => exact ⟨fun _ => .inr rfl, fun _ => ⟨name, _, List.mem_append_right _ (.head _)⟩⟩

theorem finds_define (name : Token) : Finds False (define name) r := by
  refine .none fun a r' h => flawed_congr ?_
  obtain ⟨-, rfl⟩ | ⟨_, _, -, -, rfl⟩ := define_eq_ok.1 h <;> rfl

theorem finds_introduce (names : List Token) :
    Finds (Clash (names.map (·.lexeme)) r.held) (introduce names) r := by
  induction names generalizing r with
  | nil => exact (Finds.pure ()).congr (by simp)
  | cons name names ih =>
    have hrest : ∀ u r₁, declare name r = .ok u r₁ →
        Finds (Clash (names.map (·.lexeme)) (extend [name.lexeme] r.held))
          (do define name; introduce names) r₁ := by
      intro u r₁ hd
      refine (finds_define name).after fun v r₂ hd' => ?_
      rw [← (declare_define_leads hd hd').held]
      exact ih
    refine ((finds_declare name).bind hrest).congr ?_
    rw [← clash_append]
    rfl

theorem finds_closeScope : Finds False closeScope r := by
  refine .none fun a r' h => ?_
  obtain ⟨scope, outer, -, rfl⟩ := closeScope_eq_ok.1 h
  simp only [Resolution.Flawed]
  split
  · simp [unusedIn]
  · rfl

theorem finds_inScope {names : Table Mark} {body : Resolving α}
    (hb : ∀ r₁, r₁.held = names.domain :: r.held → Balanced r r₁ → Finds P body r₁) :
    Finds P (inScope names body) r := by
  have hopen : Finds False (openScope names) r := finds_modify (by exact fun _ => rfl)
  refine hopen.after fun _ r₁ ho => Finds.before (hb r₁ ?_ ?_) fun _ _ _ =>
    finds_closeScope.after fun _ _ _ => .pure _
  · rw [← modify_eq_ok.1 ho]
    rfl
  · rw [← modify_eq_ok.1 ho]
    exact ⟨rfl, rfl, rfl, rfl, rfl⟩

/-- The body of a function, in one scope with the parameters. -/
theorem finds_inFunction {kind : FunctionKind} {params : List Token} {body : Resolving α}
    (hb : ∀ r₁, r₁.held = paramScope params :: r.held → r₁.inFunction = true → r₁.inClass = r.inClass →
      Finds P body r₁) :
    Finds (Clash (params.map (·.lexeme)) (∅ :: r.held) ∨ P) (inFunction kind params body) r := by
  refine .get_bind (Finds.after (finds_modify (by exact fun _ => rfl)) fun _ r₁ h₁ => ?_)
  obtain rfl := modify_eq_ok.1 h₁
  refine Finds.before (finds_inScope fun r₂ hheld hbalanced => ?_) fun _ _ _ =>
    (finds_modify (by exact fun _ => rfl)).after fun _ _ _ => .pure _
  rw [Table.domain_empty] at hheld
  have hintroduce := finds_introduce params (r := r₂)
  rw [hheld] at hintroduce
  refine hintroduce.bind fun _ r₃ h₃ => ?_
  have hleads := introduce_leads h₃
  refine hb r₃ ?_ (hleads.inFunction.trans hbalanced.inFunction)
    (hleads.inClass.trans hbalanced.inClass)
  rw [hleads.held, hheld]
  simp [extend, paramScope, Resolution.held]

theorem finds_inClass {body : Resolving α}
    (hb : ∀ r₁, r₁.held = r.held → r₁.inFunction = r.inFunction → r₁.inClass = true → Finds P body r₁) :
    Finds P (inClass body) r := by
  refine .get_bind (Finds.after (finds_modify (by exact fun _ => rfl)) fun _ r₁ h₁ => ?_)
  obtain rfl := modify_eq_ok.1 h₁
  exact Finds.before (hb _ rfl rfl rfl) fun _ _ _ =>
    (finds_modify (by exact fun _ => rfl)).after fun _ _ _ => .pure _

theorem finds_inVariable {name : Token} {init : Resolving α}
    (hi : ∀ r₁, r₁.inFunction = r.inFunction → r₁.inClass = r.inClass → Finds P init r₁) :
    Finds P (inVariable name init) r := by
  intro a r' h
  obtain ⟨r₁, hr, rfl⟩ := inVariable_eq_ok.1 h
  exact hi { r with inVariable := true, declaring? := some name.lexeme } rfl rfl a r₁ hr

theorem finds_classBody {hasSuper : Bool} {methods : Resolving α}
    (hm : ∀ r₁, r₁.inFunction = r.inFunction → r₁.inClass = r.inClass → Finds P methods r₁) :
    Finds P (classBody hasSuper methods) r := by
  cases hasSuper with
  | false => exact finds_inScope fun r₁ _ hb => hm r₁ hb.inFunction hb.inClass
  | true =>
    exact finds_inScope fun r₁ _ hb => finds_inScope fun r₂ _ hb' =>
      hm r₂ (hb'.inFunction.trans hb.inFunction) (hb'.inClass.trans hb.inClass)

theorem finds_superclass (name : Token) (superclass? : Option (Token × Address)) :
    Finds (namesItself name superclass? = true) (superclass name superclass?) r := by
  cases superclass? with
  | none => exact (Finds.pure _).congr (by simp [namesItself])
  | some entry =>
    obtain ⟨parent, old⟩ := entry
    have hlocate : ∀ r, Finds False (do return some (parent, ← locate .variable parent)) r :=
      fun r => (finds_locate _ _).after fun _ _ _ => .pure _
    unfold superclass
    dsimp only
    by_cases hname : name.lexeme = parent.lexeme
    · rw [if_pos hname]
      exact ((finds_report _ _).before fun _ r₁ _ => hlocate r₁).congr (by simp [namesItself, hname])
    · rw [if_neg hname]
      exact (hlocate r).congr (by simp [namesItself, hname])

theorem finds_checked (keyword : Token) {body : Resolving α}
    (hb : ∀ r₁, Balanced r r₁ → Finds P body r₁) :
    Finds ((!r.inFunction) = true ∨ P) (do
      unless (← get).inFunction do report (.flawed keyword .returnOutsideFunction)
      body) r := by
  refine .get_bind ?_
  dsimp only
  by_cases hf : r.inFunction = true
  · rw [if_pos hf]
    exact (hb r (Leads.refl r).toBalanced).congr (by simp [hf])
  · rw [if_neg hf]
    refine ((finds_report _ _).bind fun _ r₁ h₁ => hb r₁ ?_).congr (by simp [hf])
    exact (report_leads h₁).1.toBalanced

end Resolving

/-- Whether the walk is in a function and whether it is in a class. -/
structure Resolution.At (inFunction inClass : Bool) (r : Resolution) : Prop where
  inFunction_eq : r.inFunction = inFunction
  inClass_eq : r.inClass = inClass

theorem Resolution.At.after {inFunction inClass : Bool} {r r' : Resolution} (h : r.At inFunction inClass)
    (hb : Balanced r r') : r'.At inFunction inClass :=
  ⟨hb.inFunction.trans h.inFunction_eq, hb.inClass.trans h.inClass_eq⟩

end Scope

theorem finds_function {α : Type} {inClass : Bool} {r : Resolution} {kind : FunctionKind}
    {params : List Token} {x : Resolving α}
    (h : r.inClass = inClass)
    (hb : ∀ r₁ : Resolution, r₁.At true inClass →
      Finds (Stmt.offendsAny true inClass body = true ∨ Clash (body.flatMap Stmt.declared) r₁.held) x r₁) :
    Finds ((repeats (Opening.call params body).declarations ||
      Stmt.offendsAny true inClass body) = true) (Resolving.inFunction kind params x) r := by
  have hbody : ∀ r₁ : Resolution, r₁.held = paramScope params :: r.held → r₁.inFunction = true →
      r₁.inClass = r.inClass → Finds (Stmt.offendsAny true inClass body = true ∨
        Clash (body.flatMap Stmt.declared) (paramScope params :: r.held)) x r₁ := by
    intro r₁ hheld hf hc
    rw [← hheld]
    exact hb r₁ ⟨hf, hc.trans h⟩
  refine (finds_inFunction hbody).congr ?_
  have hextend : paramScope params :: r.held = extend (params.map (·.lexeme)) (∅ :: r.held) := by
    simp [extend, paramScope]
  rw [or_left_comm, hextend, ← clash_append, Bool.or_eq_true, repeats_iff, or_comm]
  rw [clash_empty]
  rfl

mutual

theorem Expr.resolve_finds : ∀ (e : Expr) {inFunction inClass : Bool} {r : Resolution},
    r.At inFunction inClass → e.all Node.isReadable = true →
      Finds (e.offends inFunction inClass = true) e.resolve r
  | .gap, _, _, _, _, _ => fun _ _ h => (throw_eq_ok.1 h).elim
  | .literal _, _, _, _, _, _ => (Finds.pure _).congr (by simp [Expr.offends])
  | .grouping body, _, _, _, h, hr | .unary _ body, _, _, _, h, hr | .get body _, _, _, _, h, hr => by
    simp only [Expr.all, Bool.and_eq_true] at hr
    exact (body.resolve_finds h hr.2).before fun _ _ _ => .pure _
  | .binary left _ right, _, _, r, h, hr | .logical left _ right, _, _, r, h, hr => by
    simp only [Expr.all, Bool.and_eq_true] at hr
    refine ((left.resolve_finds h hr.2.1).bind fun _ r₁ h₁ => ?_).congr (Bool.or_eq_true_iff).symm
    exact (right.resolve_finds (h.after (left.resolve_leads h₁).toBalanced) hr.2.2).before
      fun _ _ _ => .pure _
  | .variable name _, _, _, _, _, _ =>
    ((finds_locate _ name).after fun _ _ _ => .pure _).congr (by simp [Expr.offends])
  | .assign name _ value, _, _, _, h, hr => by
    simp only [Expr.all, Bool.and_eq_true] at hr
    exact (value.resolve_finds h hr.2).before fun _ _ _ =>
      (finds_locate _ name).after fun _ _ _ => .pure _
  | .call callee _ arguments, _, _, r, h, hr => by
    simp only [Expr.all, Bool.and_eq_true] at hr
    refine ((callee.resolve_finds h hr.2.1).bind fun _ r₁ h₁ => ?_).congr (Bool.or_eq_true_iff).symm
    have hat := h.after (callee.resolve_leads h₁).toBalanced
    exact (Expr.resolveAll_finds arguments hat hr.2.2).before fun _ _ _ => .pure _
  | .lambda params body, _, _, r, h, hr => by
    simp only [Expr.all, Bool.and_eq_true] at hr
    exact (finds_function h.inClass_eq fun r₁ h₁ => Stmt.resolveAll_finds body h₁ hr.2).before
      fun _ _ _ => .pure _
  | .set object _ value, _, _, r, h, hr => by
    simp only [Expr.all, Bool.and_eq_true] at hr
    refine ((value.resolve_finds h hr.2.2).bind fun _ r₁ h₁ => ?_).congr (Bool.or_eq_true_iff).symm
    exact (object.resolve_finds (h.after (value.resolve_leads h₁).toBalanced) hr.2.1).before
      fun _ _ _ => .pure _
  | .this keyword _, _, _, r, h, _ => by
    have hfinds := (finds_locateInClass .this keyword .thisOutsideClass (r := r)).before
      fun address _ _ => .pure (Expr.this keyword address)
    rw [h.inClass_eq] at hfinds
    exact hfinds
  | .super _ _ _, _, _, _, _, hr => by
    simp [Expr.all, Node.isReadable] at hr
  | .inner keyword method _, _, _, r, h, _ => by
    have hfinds := (finds_locateInClass .inner keyword .innerOutsideClass (r := r)).before
      fun address _ _ => .pure (Expr.inner keyword method address)
    rw [h.inClass_eq] at hfinds
    exact hfinds

theorem Expr.resolveAll_finds : ∀ (es : List Expr) {inFunction inClass : Bool} {r : Resolution},
    r.At inFunction inClass → Expr.allOf Node.isReadable es = true →
      Finds (Expr.offendsAny inFunction inClass es = true) (Expr.resolveAll es) r
  | [], _, _, _, _, _ => (Finds.pure _).congr (by simp [Expr.offendsAny])
  | e :: es, _, _, r, h, hr => by
    simp only [Expr.allOf, Bool.and_eq_true] at hr
    refine ((e.resolve_finds h hr.1).bind fun _ r₁ h₁ => ?_).congr (Bool.or_eq_true_iff).symm
    exact (Expr.resolveAll_finds es (h.after (e.resolve_leads h₁).toBalanced) hr.2).before
      fun _ _ _ => .pure _

theorem Stmt.resolve_finds : ∀ (s : Stmt) {inFunction inClass : Bool} {r : Resolution},
    r.At inFunction inClass → s.all Node.isReadable = true →
      Finds (s.offends inFunction inClass = true ∨ Clash s.declared r.held) s.resolve r
  | .gap, _, _, _, _, _ => fun _ _ h => (throw_eq_ok.1 h).elim
  | .bare value, _, _, _, h, hr | .expression value, _, _, _, h, hr | .print value, _, _, _, h, hr => by
    simp only [Stmt.all, Bool.and_eq_true] at hr
    exact ((value.resolve_finds h hr.2).before fun _ _ _ => .pure _).congr
      (by simp [Stmt.offends, Stmt.declared])
  | .varDecl name none, _, _, _, _, _ =>
    ((finds_declare name).before fun _ _ _ => (finds_define name).after fun _ _ _ => .pure _).congr
      (by simp [Stmt.offends, Stmt.declared])
  | .varDecl name (some init), _, _, r, h, hr => by
    simp only [Stmt.all, Bool.and_eq_true] at hr
    refine ((finds_declare name).bind fun _ r₁ h₁ => ?_).congr or_comm
    have hat := h.after (declare_leads h₁).toBalanced
    refine Finds.before (finds_inVariable fun r₂ hf hc => ?_) fun _ _ _ =>
      (finds_define name).after fun _ _ _ => .pure _
    exact init.resolve_finds ⟨hf.trans hat.inFunction_eq, hc.trans hat.inClass_eq⟩ hr.2
  | .block body, inFunction, inClass, r, h, hr => by
    simp only [Stmt.all, Bool.and_eq_true] at hr
    have hbody : Finds (Stmt.offendsAny inFunction inClass body = true ∨
        Clash (body.flatMap Stmt.declared) (∅ :: r.held)) (inScope .empty (Stmt.resolveAll body)) r := by
      refine finds_inScope fun r₁ hheld hb => ?_
      rw [Table.domain_empty] at hheld
      rw [← hheld]
      exact Stmt.resolveAll_finds body (h.after hb) hr.2
    refine (hbody.before fun _ _ _ => .pure _).congr ?_
    simp [Stmt.offends, Stmt.declared, repeats_iff, Opening.declarations, or_comm]
  | .ifStmt condition onTrue none, inFunction, inClass, r, h, hr
  | .whileStmt condition onTrue, inFunction, inClass, r, h, hr => by
    simp only [Stmt.all, Bool.and_eq_true] at hr
    refine (Finds.bind (Q := onTrue.offends inFunction inClass = true ∨ Clash onTrue.declared r.held)
      (condition.resolve_finds h hr.2.1) fun _ r₁ h₁ => ?_).congr ?_
    · have hat := h.after (condition.resolve_leads h₁).toBalanced
      rw [← (condition.resolve_leads h₁).held_eq]
      exact (onTrue.resolve_finds hat hr.2.2).before fun _ _ _ => .pure _
    · simp [Stmt.offends, Stmt.declared, or_assoc]
  | .ifStmt condition onTrue (some onFalse), inFunction, inClass, r, h, hr => by
    simp only [Stmt.all, Bool.and_eq_true] at hr
    refine (Finds.bind (Q := (onTrue.offends inFunction inClass = true ∨ Clash onTrue.declared r.held) ∨
        onFalse.offends inFunction inClass = true ∨
          Clash onFalse.declared (extend onTrue.declared r.held))
      (condition.resolve_finds h hr.2.1) fun _ r₁ h₁ => ?_).congr ?_
    · have hat := h.after (condition.resolve_leads h₁).toBalanced
      rw [← (condition.resolve_leads h₁).held_eq]
      refine (onTrue.resolve_finds hat hr.2.2.1).bind fun _ r₂ h₂ => ?_
      rw [← (onTrue.resolve_leads h₂).held]
      exact (onFalse.resolve_finds (hat.after (onTrue.resolve_leads h₂).toBalanced) hr.2.2.2).before
        fun _ _ _ => .pure _
    · rw [Stmt.declared, clash_append]
      simp only [Stmt.offends, Bool.or_eq_true]
      tauto
  | .breakStmt _, _, _, _, _, _ => (Finds.pure _).congr (by simp [Stmt.offends, Stmt.declared])
  | .funDecl f, _, inClass, r, h, hr => by
    simp only [Stmt.all, Bool.and_eq_true] at hr
    refine ((finds_declare f.name).bind fun _ r₁ h₁ => (finds_define f.name).after fun _ r₂ h₂ => ?_).congr
      or_comm
    have hc : r₂.inClass = inClass := (declare_define_leads h₁ h₂).inClass.trans h.inClass_eq
    exact (f.resolve_finds hc hr.2).before fun _ _ _ => .pure _
  | .classDecl name superclass? methods, _, _, r, h, hr => by
    simp only [Stmt.all, Bool.and_eq_true] at hr
    refine finds_inClass fun r₀ hheld _ hc => ?_
    rw [← hheld]
    refine ((finds_declare name).bind fun _ r₁ h₁ => (finds_define name).after fun _ r₂ h₂ => ?_).congr
      or_comm
    refine ((finds_superclass name superclass?).bind fun _ r₃ h₃ => ?_).congr (Bool.or_eq_true_iff).symm
    have hclass : r₃.inClass = true :=
      ((declare_define_leads h₁ h₂).trans (superclass_spec h₃).1).inClass.trans hc
    refine Finds.before (finds_classBody fun r₄ _ hc₄ => ?_) fun _ _ _ => .pure _
    exact Function.resolveAll_finds methods (hc₄.trans hclass) hr.2
  | .returnStmt keyword none, _, _, r, h, _ => by
    refine (finds_checked keyword fun _ _ => .pure _).congr ?_
    simp [Stmt.offends, Stmt.declared, h.inFunction_eq]
  | .returnStmt keyword (some value), _, _, r, h, hr => by
    simp only [Stmt.all, Bool.and_eq_true] at hr
    refine (finds_checked keyword fun r₁ hb =>
      (value.resolve_finds (h.after hb) hr.2).before fun _ _ _ => .pure _).congr ?_
    simp [Stmt.offends, Stmt.declared, h.inFunction_eq]

theorem Stmt.resolveAll_finds : ∀ (ss : List Stmt) {inFunction inClass : Bool} {r : Resolution},
    r.At inFunction inClass → Stmt.allOf Node.isReadable ss = true →
      Finds (Stmt.offendsAny inFunction inClass ss = true ∨ Clash (ss.flatMap Stmt.declared) r.held)
        (Stmt.resolveAll ss) r
  | [], _, _, _, _, _ => (Finds.pure _).congr (by simp [Stmt.offendsAny])
  | s :: ss, inFunction, inClass, r, h, hr => by
    simp only [Stmt.allOf, Bool.and_eq_true] at hr
    refine (Finds.bind (Q := Stmt.offendsAny inFunction inClass ss = true ∨
        Clash (ss.flatMap Stmt.declared) (extend s.declared r.held))
      (s.resolve_finds h hr.1) fun _ r₁ h₁ => ?_).congr ?_
    · rw [← (s.resolve_leads h₁).held]
      exact (Stmt.resolveAll_finds ss (h.after (s.resolve_leads h₁).toBalanced) hr.2).before
        fun _ _ _ => .pure _
    · rw [List.flatMap_cons, clash_append]
      simp only [Stmt.offendsAny, Bool.or_eq_true]
      tauto

theorem Function.resolve_finds : ∀ (f : Function) {kind : FunctionKind} {inClass : Bool} {r : Resolution},
    r.inClass = inClass → f.all Node.isReadable = true →
      Finds (f.offends inClass = true) (f.resolve kind) r
  | ⟨_, _, body, _, _⟩, _, _, _, h, hr =>
    (finds_function h fun _ h₁ => Stmt.resolveAll_finds body h₁ hr).before fun _ _ _ => .pure _

theorem Function.resolveAll_finds : ∀ (fs : List Function) {inClass : Bool} {r : Resolution},
    r.inClass = inClass → Function.allOf Node.isReadable fs = true →
      Finds (Function.offendsAny inClass fs = true) (Function.resolveAll fs) r
  | [], _, _, _, _ => (Finds.pure _).congr (by simp [Function.offendsAny])
  | f :: fs, inClass, r, h, hr => by
    simp only [Function.allOf, Bool.and_eq_true] at hr
    refine ((f.resolve_finds h hr.1).bind fun _ r₁ h₁ => ?_).congr (Bool.or_eq_true_iff).symm
    have hc : r₁.inClass = inClass := (f.resolve_leads h₁).inClass.trans h
    exact (Function.resolveAll_finds fs hc hr.2).before fun _ _ _ => .pure _

end

end Lox
