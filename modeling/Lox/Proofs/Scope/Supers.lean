import Lox.Proofs.Scope.Forms
import Lox.Proofs.Scope.Nest
import Mathlib.Data.Option.Basic

/-!
# References to the superclass

A reference to the superclass that stands in a method of a class with a superclass, under whatever
blocks and functions, gets the address of the scope that holds `super` for that class. That scope lies
one further out than the one of the receiver.
-/

namespace Lox

open Outcome Scope Scope.Resolving

/-! ### Tests of references -/

/-- The height of the body of a method above the scope of its receiver. A method that belongs to the
class has no receiver, and a class without a superclass no `super`. -/
def Function.height? (hasSuper : Bool) (f : Function) : Option Nat :=
  if hasSuper && !f.isStatic then some 1 else none

mutual

/-- Whether a test holds of every reference to a superclass in an expression that stands at some height
above the scope of a receiver. -/
def Expr.supers (p : Option Nat → Expr → Bool) (height? : Option Nat) : Expr → Bool
  | .super keyword method address => p height? (.super keyword method address)
  | .grouping body => body.supers p height?
  | .unary _ right => right.supers p height?
  | .binary left _ right => left.supers p height? && right.supers p height?
  | .logical left _ right => left.supers p height? && right.supers p height?
  | .assign _ _ value => value.supers p height?
  | .call callee _ arguments => callee.supers p height? && Expr.supersOf p height? arguments
  | .lambda _ body => Stmt.supersOf p (height?.map (· + 1)) body
  | .get object _ => object.supers p height?
  | .set object _ value => object.supers p height? && value.supers p height?
  | .gap | .literal _ | .variable .. | .this .. | .inner .. => true

/-- Whether a test holds of every reference to a superclass in some expressions. -/
def Expr.supersOf (p : Option Nat → Expr → Bool) (height? : Option Nat) : List Expr → Bool
  | [] => true
  | e :: es => e.supers p height? && Expr.supersOf p height? es

/-- Whether a test holds of every reference to a superclass in a statement. -/
def Stmt.supers (p : Option Nat → Expr → Bool) (height? : Option Nat) : Stmt → Bool
  | .bare value => value.supers p height?
  | .expression value => value.supers p height?
  | .print value => value.supers p height?
  | .varDecl _ (some init) => init.supers p height?
  | .block body => Stmt.supersOf p (height?.map (· + 1)) body
  | .ifStmt condition onTrue none => condition.supers p height? && onTrue.supers p height?
  | .ifStmt condition onTrue (some onFalse) =>
    condition.supers p height? && (onTrue.supers p height? && onFalse.supers p height?)
  | .whileStmt condition body => condition.supers p height? && body.supers p height?
  | .funDecl f => f.supers p (height?.map (· + 1))
  | .classDecl _ superclass? methods => Function.supersOf p superclass?.isSome methods
  | .returnStmt _ (some value) => value.supers p height?
  | .gap | .varDecl _ none | .breakStmt _ | .returnStmt _ none => true

/-- Whether a test holds of every reference to a superclass in some statements. -/
def Stmt.supersOf (p : Option Nat → Expr → Bool) (height? : Option Nat) : List Stmt → Bool
  | [] => true
  | s :: ss => s.supers p height? && Stmt.supersOf p height? ss

/-- Whether a test holds of every reference to a superclass in a function whose body stands at the given
height. -/
def Function.supers (p : Option Nat → Expr → Bool) (height? : Option Nat) : Function → Bool
  | ⟨_, _, body, _, _⟩ => Stmt.supersOf p height? body

/-- Whether a test holds of every reference to a superclass in the methods of a class. -/
def Function.supersOf (p : Option Nat → Expr → Bool) (hasSuper : Bool) : List Function → Bool
  | [] => true
  | f :: fs => f.supers p (f.height? hasSuper) && Function.supersOf p hasSuper fs

end

/-- Whether the address of a reference leads one scope further out than the receiver. -/
def Expr.isInherited (height? : Option Nat) : Expr → Bool
  | .super keyword _ address =>
    keyword.lexeme != "super" || height?.all fun height => address = .hops (height + 1)
  | _ => true

/-! ### Resolving -/

namespace Scope

/-- The walk is inside a class, and `super` is one scope further out than the receiver is. -/
def Inherits (height? : Option Nat) (r : Resolution) : Prop :=
  ∀ height ∈ height?, r.inClass = true ∧ Locates r.held "super" (.hops (height + 1))

theorem Inherits.of_leads {height? : Option Nat} {r r' : Resolution} {names : List String}
    (h : Inherits height? r) (hl : Leads r r' names) (hn : "super" ∉ names) :
    Inherits height? r' := by
  intro height hheight
  obtain ⟨hclass, ⟨scope, hscope, hmem⟩, hnear⟩ := h height hheight
  rw [hl.inClass, hl.held]
  refine ⟨hclass, ?_⟩
  cases hheld : r.held with
  | nil => simp [hheld] at hscope
  | cons first outer =>
    rw [hheld] at hscope hnear
    refine ⟨⟨scope, hscope, hmem⟩, ?_⟩
    simp only [extend, List.take_succ_cons, List.forall_mem_cons] at hnear ⊢
    exact ⟨fun hx => hx.elim hn hnear.1, hnear.2⟩

theorem Locates.hops_unique {scopes : List (Set String)} {x : String} {d : Nat} {a : Address}
    (h : Locates scopes x (.hops d)) (h' : Locates scopes x a) : a = .hops d := by
  obtain ⟨⟨scope, hscope, hmem⟩, hnear⟩ := h
  cases a with
  | free => exact absurd hmem (h' scope (List.mem_of_getElem? hscope))
  | slot depth index => exact h'.elim
  | hops d' =>
    obtain ⟨⟨scope', hscope', hmem'⟩, hnear'⟩ := h'
    rcases Nat.lt_trichotomy d d' with hlt | rfl | hlt
    · have htake := (List.getElem?_take_of_lt hlt).trans hscope
      exact absurd hmem (hnear' scope (List.mem_of_getElem? htake))
    · rfl
    · have htake := (List.getElem?_take_of_lt hlt).trans hscope'
      exact absurd hmem' (hnear scope' (List.mem_of_getElem? htake))

/-- From a state in which `super` is where it should be, a step comes to such a state, with a result that
has a property. -/
def Places {α : Type} (height? : Option Nat) (x : Resolving α) (p : α → Prop) : Prop :=
  ∀ ⦃r r' : Resolution⦄ ⦃a : α⦄, Inherits height? r → x r = .ok a r' → Inherits height? r' ∧ p a

namespace Places

variable {α β : Type} {height? : Option Nat} {x : Resolving α} {p q : α → Prop}

theorem pure {a : α} (h : p a) : Places height? (Pure.pure a) p := by
  intro r r' b hr hx
  obtain ⟨rfl, rfl⟩ := pure_eq_ok.1 hx
  exact ⟨hr, h⟩

theorem bind {f : α → Resolving β} {q : β → Prop} (hx : Places height? x p)
    (hf : ∀ a, p a → Places height? (f a) q) : Places height? (x >>= f) q := by
  intro r r' b hr h
  obtain ⟨a, r₁, ha, hb⟩ := bind_eq_ok.1 h
  obtain ⟨hr₁, hp⟩ := hx hr ha
  exact hf a hp hr₁ hb

theorem mono (h : Places height? x p) (hpq : ∀ a, p a → q a) : Places height? x q := by
  intro r r' a hr hx
  obtain ⟨hr', hp⟩ := h hr hx
  exact ⟨hr', hpq a hp⟩

theorem of_leads {names : List String} (hn : "super" ∉ names)
    (hl : ∀ {r r' a}, x r = .ok a r' → Leads r r' names) : Places height? x fun _ => True :=
  fun _ _ _ hr hx => ⟨hr.of_leads (hl hx) hn, trivial⟩

theorem of_none (h : Places none x p) (hl : ∀ {r r' a}, x r = .ok a r' → Leads r r' []) :
    Places height? x p :=
  fun _ _ _ hr hx => ⟨hr.of_leads (hl hx) (by simp), (h nofun hx).2⟩

theorem locate (form : Form) (token : Token) :
    Places height? (Resolving.locate form token) fun _ => True :=
  of_leads List.not_mem_nil fun h => (locate_spec h).1

theorem locateInClass (form : Form) (keyword : Token) (flaw : Flaw) :
    Places height? (Resolving.locateInClass form keyword flaw) fun _ => True :=
  of_leads List.not_mem_nil fun h => (locateInClass_spec h).1

theorem locateSuper (keyword method : Token) :
    Places height? (Resolving.locateSuper keyword)
      fun a => (Expr.super keyword method a).isInherited height? = true := by
  intro r r' a hr h
  refine ⟨hr.of_leads (locateSuper_leads h) (by simp), ?_⟩
  cases height? with
  | none => simp [Expr.isInherited]
  | some height =>
    obtain ⟨hclass, hlocates⟩ := hr height rfl
    by_cases hk : keyword.lexeme = "super"
    -- the reference is known to be in a class with a superclass, so it is not reported
    · have hsome : r.scopes.any (·.contains "super") = true := by
        obtain ⟨⟨scope, hscope, hmem⟩, -⟩ := hlocates
        obtain ⟨table, htable, rfl⟩ := List.mem_map.1 (List.mem_of_getElem? hscope)
        exact List.any_eq_true.2 ⟨table, htable, hmem⟩
      simp only [Resolving.locateSuper, Resolving.locateInClass, bind_eq_ok, get_eq_ok] at h
      obtain ⟨_, _, ⟨rfl, rfl⟩, h⟩ := h
      rw [if_neg (by simp [hsome])] at h
      obtain ⟨_, _, hget, h⟩ := bind_eq_ok.1 h
      obtain ⟨rfl, rfl⟩ := get_eq_ok.1 hget
      rw [if_pos hclass] at h
      have ha := (locate_spec h).2
      rw [hk] at ha
      simp [Expr.isInherited, hlocates.hops_unique ha]
    · simp [Expr.isInherited, hk]

theorem declare {name : Token} (hn : name.lexeme ≠ "super") :
    Places height? (Resolving.declare name) fun _ => True :=
  of_leads (by simpa using hn.symm) declare_leads

theorem define {name : Token} (hn : name.lexeme ≠ "super") :
    Places height? (Resolving.define name) fun _ => True :=
  of_leads (by simpa using hn.symm) define_leads

theorem introduce {names : List Token} (hn : ∀ name ∈ names, name.lexeme ≠ "super") :
    Places height? (Resolving.introduce names) fun _ => True := by
  induction names with
  | nil => exact .pure trivial
  | cons name names ih =>
    have hname := hn name (by simp)
    exact (declare hname).bind fun _ _ => (define hname).bind fun _ _ =>
      ih fun other ho => hn other (by simp [ho])

theorem inScope {body : Resolving α} (h : Places (height?.map (· + 1)) body p) :
    Places height? (Resolving.inScope .empty body) p := by
  intro r r' a hr hx
  obtain ⟨r₂, hb, hc⟩ := inScope_eq hx
  have hopen : Inherits (height?.map (· + 1)) { r with scopes := .empty :: r.scopes } := by
    rintro _ hheight
    obtain ⟨height, hmem, rfl⟩ := Option.mem_map.1 hheight
    obtain ⟨hclass, ⟨scope, hscope, hin⟩, hnear⟩ := hr height hmem
    refine ⟨hclass, ⟨scope, hscope, hin⟩, ?_⟩
    simp only [Resolution.held, List.map_cons, List.take_succ_cons, List.forall_mem_cons,
      Table.domain_empty]
    exact ⟨fun hx => hx, hnear⟩
  obtain ⟨hr₂, hp⟩ := h hopen hb
  refine ⟨fun height hmem => ?_, hp⟩
  -- the scope that is closed is not the one with `super`, which is further out
  obtain ⟨hclass, ⟨scope, hscope, hin⟩, hnear⟩ := hr₂ (height + 1) (Option.mem_map_of_mem _ hmem)
  obtain ⟨first, outer, hs, rfl⟩ := closeScope_eq_ok.1 hc
  simp only [Resolution.held, hs, List.map_cons, List.getElem?_cons_succ, List.take_succ_cons,
    List.forall_mem_cons] at hscope hnear ⊢
  exact ⟨hclass, ⟨scope, hscope, hin⟩, hnear.2⟩

theorem inVariable (name : Token) (h : Places height? x p) :
    Places height? (Resolving.inVariable name x) p := by
  intro r r' a hr hx
  obtain ⟨r₁, hi, rfl⟩ := inVariable_eq_ok.1 hx
  have hstart : Inherits height? { r with inVariable := true, declaring? := some name.lexeme } := hr
  obtain ⟨hr₁, hp⟩ := h hstart hi
  exact ⟨hr₁, hp⟩

theorem inFunction {kind : FunctionKind} {params : List Token} (hn : ∀ param ∈ params, param.lexeme ≠ "super")
    {body : Resolving α} (h : Places (height?.map (· + 1)) body p) :
    Places height? (Resolving.inFunction kind params body) p := by
  intro r r' a hr hx
  simp only [Resolving.inFunction, bind_eq_ok, get_eq_ok, modify_eq_ok, pure_eq_ok] at hx
  obtain ⟨_, _, ⟨rfl, rfl⟩, _, _, rfl, _, r₃, hs, _, _, rfl, rfl, rfl⟩ := hx
  have hstart : Inherits height? { r with function? := some kind } := hr
  obtain ⟨hr₃, hp⟩ := inScope ((introduce hn).bind fun _ _ => h) hstart hs
  exact ⟨hr₃, hp⟩

theorem checked (keyword : Token) {body : Resolving α} (h : Places height? body p) :
    Places height? (do
      unless (← get).inFunction do report (.flawed keyword .returnOutsideFunction)
      body) p := by
  intro r r' a hr hx
  simp only [bind_eq_ok, get_eq_ok] at hx
  obtain ⟨_, _, ⟨rfl, rfl⟩, hx⟩ := hx
  split at hx
  · exact h hr hx
  · obtain ⟨_, r₁, hreport, hx⟩ := bind_eq_ok.1 hx
    exact h (hr.of_leads (report_leads hreport).1 (by simp)) hx

theorem of_classBody {hasSuper : Bool} {methods : Resolving α}
    (h : Places (if hasSuper then some 0 else none) methods p) {r r' : Resolution} {a : α}
    (hr : r.inClass = true) (hx : classBody hasSuper methods r = .ok a r') : p a := by
  cases hasSuper with
  | false =>
    obtain ⟨_, hm, -⟩ := inScope_eq hx
    exact (h nofun hm).2
  | true =>
    obtain ⟨_, hx, -⟩ := inScope_eq hx
    obtain ⟨_, hm, -⟩ := inScope_eq hx
    refine (h ?_ hm).2
    rintro _ ⟨⟩
    refine ⟨hr, ⟨{"super"}, by simp [Resolution.held], rfl⟩, ?_⟩
    simp [Resolution.held]

end Places

end Scope

mutual

theorem Expr.resolve_supers : ∀ (e : Expr) (height? : Option Nat), e.all (Node.spares ["super"]) = true →
    Places height? e.resolve fun e' => e'.supers Expr.isInherited height? = true
  | .gap, _, _ => fun _ _ _ _ hx => (throw_eq_ok.1 hx).elim
  | .literal _, _, _ => .pure rfl
  | .grouping body, height?, h | .unary _ body, height?, h | .get body _, height?, h => by
    simp only [Expr.all, Bool.and_eq_true] at h
    exact (body.resolve_supers height? h.2).bind fun _ hb => .pure hb
  | .binary left _ right, height?, h | .logical left _ right, height?, h => by
    simp only [Expr.all, Bool.and_eq_true] at h
    exact (left.resolve_supers height? h.2.1).bind fun _ hl =>
      (right.resolve_supers height? h.2.2).bind fun _ hr => .pure (by simp [Expr.supers, hl, hr])
  | .variable name _, _, _ => (Places.locate _ name).bind fun _ _ => .pure rfl
  | .assign name _ value, height?, h => by
    simp only [Expr.all, Bool.and_eq_true] at h
    exact (value.resolve_supers height? h.2).bind fun _ hv =>
      (Places.locate _ name).bind fun _ _ => .pure hv
  | .call callee _ arguments, height?, h => by
    simp only [Expr.all, Bool.and_eq_true] at h
    exact (callee.resolve_supers height? h.2.1).bind fun _ hc =>
      (Expr.resolveAll_supers arguments height? h.2.2).bind fun _ ha =>
        .pure (by simp [Expr.supers, hc, ha])
  | .lambda params body, height?, h => by
    simp only [Expr.all, Bool.and_eq_true] at h
    have hparams : ∀ param ∈ params, param.lexeme ≠ "super" := fun param hp =>
      Node.ne_of_spares h.1 (List.mem_singleton.2 rfl) hp
    exact (Places.inFunction hparams (Stmt.resolveAll_supers body _ h.2)).bind fun _ hb => .pure hb
  | .set object _ value, height?, h => by
    simp only [Expr.all, Bool.and_eq_true] at h
    exact (value.resolve_supers height? h.2.2).bind fun _ hv =>
      (object.resolve_supers height? h.2.1).bind fun _ ho => .pure (by simp [Expr.supers, hv, ho])
  | .this keyword _, _, _ => (Places.locateInClass _ keyword _).bind fun _ _ => .pure rfl
  | .super keyword method _, _, _ => (Places.locateSuper keyword method).bind fun _ ha => .pure ha
  | .inner keyword _ _, _, _ => (Places.locateInClass _ keyword _).bind fun _ _ => .pure rfl

theorem Expr.resolveAll_supers : ∀ (es : List Expr) (height? : Option Nat),
    Expr.allOf (Node.spares ["super"]) es = true →
      Places height? (Expr.resolveAll es) fun es' => Expr.supersOf Expr.isInherited height? es' = true
  | [], _, _ => .pure rfl
  | e :: es, height?, h => by
    simp only [Expr.allOf, Bool.and_eq_true] at h
    exact (e.resolve_supers height? h.1).bind fun _ he =>
      (Expr.resolveAll_supers es height? h.2).bind fun _ hes => .pure (by simp [Expr.supersOf, he, hes])

theorem Stmt.resolve_supers : ∀ (s : Stmt) (height? : Option Nat), s.all (Node.spares ["super"]) = true →
    Places height? s.resolve fun s' => s'.supers Expr.isInherited height? = true
  | .gap, _, _ => fun _ _ _ _ hx => (throw_eq_ok.1 hx).elim
  | .bare value, height?, h | .expression value, height?, h | .print value, height?, h => by
    simp only [Stmt.all, Bool.and_eq_true] at h
    exact (value.resolve_supers height? h.2).bind fun _ hv => .pure hv
  | .varDecl name none, _, h => by
    have hname := Node.ne_of_spares h (List.mem_singleton.2 rfl) (List.mem_singleton.2 rfl)
    exact (Places.declare hname).bind fun _ _ => (Places.define hname).bind fun _ _ => .pure rfl
  | .varDecl name (some init), height?, h => by
    simp only [Stmt.all, Bool.and_eq_true] at h
    have hname := Node.ne_of_spares h.1 (List.mem_singleton.2 rfl) (List.mem_singleton.2 rfl)
    exact (Places.declare hname).bind fun _ _ =>
      ((init.resolve_supers height? h.2).inVariable name).bind fun _ hi =>
        (Places.define hname).bind fun _ _ => .pure hi
  | .block body, height?, h => by
    simp only [Stmt.all, Bool.and_eq_true] at h
    exact (Places.inScope (Stmt.resolveAll_supers body _ h.2)).bind fun _ hb => .pure hb
  | .ifStmt condition onTrue none, height?, h | .whileStmt condition onTrue, height?, h => by
    simp only [Stmt.all, Bool.and_eq_true] at h
    exact (condition.resolve_supers height? h.2.1).bind fun _ hc =>
      (onTrue.resolve_supers height? h.2.2).bind fun _ ht => .pure (by simp [Stmt.supers, hc, ht])
  | .ifStmt condition onTrue (some onFalse), height?, h => by
    simp only [Stmt.all, Bool.and_eq_true] at h
    exact (condition.resolve_supers height? h.2.1).bind fun _ hc =>
      (onTrue.resolve_supers height? h.2.2.1).bind fun _ ht =>
        (onFalse.resolve_supers height? h.2.2.2).bind fun _ hf =>
          .pure (by simp [Stmt.supers, hc, ht, hf])
  | .breakStmt _, _, _ => .pure rfl
  | .funDecl f, height?, h => by
    simp only [Stmt.all, Bool.and_eq_true] at h
    have hname := Node.ne_of_spares h.1 (List.mem_singleton.2 rfl) (List.mem_cons_self ..)
    have hparams : ∀ param ∈ f.params, param.lexeme ≠ "super" := fun param hp =>
      Node.ne_of_spares h.1 (List.mem_singleton.2 rfl) (List.mem_cons_of_mem _ hp)
    exact (Places.declare hname).bind fun _ _ => (Places.define hname).bind fun _ _ =>
      (f.resolve_supers _ height? hparams h.2).bind fun _ hf => .pure hf.1
  | .classDecl name superclass? methods, height?, h => by
    intro r r' s' hr hx
    have hleads := Stmt.resolve_leads _ hx
    simp only [Stmt.all, Bool.and_eq_true] at h
    have hname : name.lexeme ≠ "super" :=
      Node.ne_of_spares h.1 (List.mem_singleton.2 rfl) (List.mem_cons_self ..)
    have hparams : ∀ f ∈ methods, ∀ param ∈ f.params, param.lexeme ≠ "super" := fun f hf param hp =>
      Node.ne_of_spares h.1 (List.mem_singleton.2 rfl)
        (List.mem_cons_of_mem _ (List.mem_flatMap.2 ⟨f, hf, hp⟩))
    refine ⟨hr.of_leads hleads (by simpa [Stmt.declared] using hname.symm), ?_⟩
    simp only [Stmt.resolve, Resolving.inClass, bind_eq_ok, get_eq_ok, modify_eq_ok, pure_eq_ok] at hx
    obtain ⟨_, _, ⟨rfl, rfl⟩, _, _, rfl, _, _, ⟨_, r₁, hd, _, r₂, hd', superclass', r₃, hs, _, _, hm,
      rfl, rfl⟩, _, _, rfl, rfl, rfl⟩ := hx
    -- the walk is inside the class from here on
    have hinside : Inherits none { r with inClass := true } := nofun
    have hclass : r₃.inClass = true :=
      ((declare_define_leads hd hd').trans (superclass_spec hs).1).inClass
    have hmethods := Function.resolveAll_supers methods superclass'.isSome hparams h.2
    exact Places.of_classBody hmethods hclass hm
  | .returnStmt keyword none, _, _ => Places.checked keyword (.pure rfl)
  | .returnStmt keyword (some value), height?, h => by
    simp only [Stmt.all, Bool.and_eq_true] at h
    exact Places.checked keyword ((value.resolve_supers height? h.2).bind fun _ hv => .pure hv)

theorem Stmt.resolveAll_supers : ∀ (ss : List Stmt) (height? : Option Nat),
    Stmt.allOf (Node.spares ["super"]) ss = true →
      Places height? (Stmt.resolveAll ss) fun ss' => Stmt.supersOf Expr.isInherited height? ss' = true
  | [], _, _ => .pure rfl
  | s :: ss, height?, h => by
    simp only [Stmt.allOf, Bool.and_eq_true] at h
    exact (s.resolve_supers height? h.1).bind fun _ hs =>
      (Stmt.resolveAll_supers ss height? h.2).bind fun _ hss => .pure (by simp [Stmt.supersOf, hs, hss])

theorem Function.resolve_supers : ∀ (f : Function) (kind : FunctionKind) (height? : Option Nat),
    (∀ param ∈ f.params, param.lexeme ≠ "super") → f.all (Node.spares ["super"]) = true →
      Places height? (f.resolve kind) fun f' =>
        f'.supers Expr.isInherited (height?.map (· + 1)) = true ∧ f'.isStatic = f.isStatic
  | ⟨_, _, body, _, _⟩, _, _, hparams, h =>
    (Places.inFunction hparams (Stmt.resolveAll_supers body _ h)).bind fun _ hb => .pure ⟨hb, rfl⟩

theorem Function.resolveAll_supers : ∀ (fs : List Function) (hasSuper : Bool),
    (∀ f ∈ fs, ∀ param ∈ f.params, param.lexeme ≠ "super") →
    Function.allOf (Node.spares ["super"]) fs = true →
      Places (if hasSuper then some 0 else none) (Function.resolveAll fs) fun fs' =>
        Function.supersOf Expr.isInherited hasSuper fs' = true
  | [], _, _, _ => .pure rfl
  | f :: fs, hasSuper, hparams, h => by
    simp only [Function.allOf, Bool.and_eq_true] at h
    have hfirst : Places (if hasSuper then some 0 else none) (f.resolve (.ofMethod f.name)) fun f' =>
        f'.supers Expr.isInherited (f'.height? hasSuper) = true := by
      have hall : ∀ height?, Places height? (f.resolve (.ofMethod f.name)) fun f' =>
          f'.supers Expr.isInherited (height?.map (· + 1)) = true ∧ f'.isStatic = f.isStatic :=
        fun height? => f.resolve_supers _ height? (hparams f (by simp)) h.1
      unfold Function.height?
      cases hasSuper with
      | false => exact (hall none).mono fun f' hf => hf.1
      | true =>
        cases hstatic : f.isStatic with
        | false => exact (hall (some 0)).mono fun f' hf => by simpa [hf.2, hstatic] using hf.1
        | true =>
          -- a method that belongs to the class: nothing is asked of its references
          have hnone := (hall none).mono fun f' hf => (by simpa [hf.2, hstatic] using hf.1 :
            f'.supers Expr.isInherited (if true && !f'.isStatic then some 1 else none) = true)
          exact hnone.of_none f.resolve_leads
    exact hfirst.bind fun _ hf =>
      (Function.resolveAll_supers fs hasSuper (fun g hg => hparams g (by simp [hg])) h.2).bind
        fun _ hfs => .pure (by simp [Function.supersOf, hf, hfs])

end

theorem Scope.resolve_supers {warns : Bool} {statements program : List Stmt}
    (h : Stmt.allOf (Node.spares ["super"]) statements = true)
    (hr : (Scope.resolve warns statements).statements = .ok program) :
    Stmt.supersOf Expr.isInherited none program = true := by
  unfold Scope.resolve at hr
  cases hx : Stmt.resolveAll statements (.start warns) with
  | error d r =>
    rw [hx] at hr
    cases hr
  | ok resolved r =>
    rw [hx] at hr
    cases hr
    exact (Stmt.resolveAll_supers statements none h nofun hx).2

/-! ### Where a node stands -/

/-- Whether a test holds of every reference to a superclass in a node. -/
def Node.supers (p : Option Nat → Expr → Bool) (height? : Option Nat) : Node → Bool
  | .expr e => e.supers p height?
  | .stmt s => s.supers p height?

/-- A method of a class with a superclass. -/
structure Seat where
  name : Token
  superclass : Token × Address
  methods : List Function
  method : Function

/-- Where a node stands: in a method of a class with a superclass, at some height above the scope of the
receiver and with no other class between, or elsewhere. -/
abbrev Place := Option (Seat × Nat)

namespace Place

/-- The place of what stands in a scope of its own inside a place. -/
def inside (place : Place) : Place := place.map fun seated => (seated.1, seated.2 + 1)

/-- The place of the scope of the receiver of a method. A method that belongs to the class has none. -/
def receiver (name : Token) (superclass? : Option (Token × Address)) (methods : List Function)
    (f : Function) : Place :=
  if f.isStatic then none else superclass?.map fun superclass => (⟨name, superclass, methods, f⟩, 0)

/-- A node holds a list of statements, which stands in a scope of its own inside a place. -/
inductive Encloses (place : Place) : Node → Place → List Stmt → Prop where
  | block (body : List Stmt) : Encloses place (.stmt (.block body)) place body
  | lambda (params : List Token) (body : List Stmt) :
      Encloses place (.expr (.lambda params body)) place body
  | function (f : Function) : Encloses place (.stmt (.funDecl f)) place f.body
  | method {name : Token} {superclass? : Option (Token × Address)} {methods : List Function}
      {f : Function} (h : f ∈ methods) :
      Encloses place (.stmt (.classDecl name superclass? methods))
        (receiver name superclass? methods f) f.body

end Place

/-- A node stands in one of some programs, at the given place. -/
inductive Seated (programs : List Stmt → Prop) : Place → Node → Prop where
  | top {program : List Stmt} {s : Stmt} (h : programs program) (hs : s ∈ program) :
      Seated programs none (.stmt s)
  | part {place : Place} {node part : Node} (h : Seated programs place node)
      (hp : part ∈ node.parts) : Seated programs place part
  | initializer {place : Place} {name : Token} {init : Expr}
      (h : Seated programs place (.stmt (.varDecl name (some init)))) :
      Seated programs place (.expr init)
  | body {place outer : Place} {node : Node} {body : List Stmt} {s : Stmt}
      (h : Seated programs place node) (he : place.Encloses node outer body) (hs : s ∈ body) :
      Seated programs outer.inside (.stmt s)

section Tests

variable {p : Option Nat → Expr → Bool} {height? : Option Nat}

theorem Expr.supersOf_iff {es : List Expr} :
    Expr.supersOf p height? es = true ↔ ∀ e ∈ es, e.supers p height? = true := by
  induction es with
  | nil => simp [Expr.supersOf]
  | cons e es ih => simp [Expr.supersOf, ih]

theorem Stmt.supersOf_iff {ss : List Stmt} :
    Stmt.supersOf p height? ss = true ↔ ∀ s ∈ ss, s.supers p height? = true := by
  induction ss with
  | nil => simp [Stmt.supersOf]
  | cons s ss ih => simp [Stmt.supersOf, ih]

theorem Function.supers_eq (f : Function) :
    f.supers p height? = Stmt.supersOf p height? f.body := by
  cases f
  rfl

theorem Function.supersOf_iff {hasSuper : Bool} {fs : List Function} :
    Function.supersOf p hasSuper fs = true ↔
      ∀ f ∈ fs, Stmt.supersOf p (f.height? hasSuper) f.body = true := by
  induction fs with
  | nil => simp [Function.supersOf]
  | cons f fs ih => simp [Function.supersOf, Function.supers_eq, ih]

theorem Node.supers_part {node part : Node} (h : node.supers p height? = true)
    (hp : part ∈ node.parts) : part.supers p height? = true := by
  cases node with
  | expr e => cases e <;> grind [Node.parts, Node.supers, Expr.supers, Expr.supersOf_iff]
  | stmt s =>
    cases s with
    | ifStmt condition onTrue onFalse? =>
      cases onFalse? <;> grind [Node.parts, Node.supers, Stmt.supers]
    | returnStmt keyword value? => cases value? <;> grind [Node.parts, Node.supers, Stmt.supers]
    | _ => grind [Node.parts, Node.supers, Stmt.supers]

theorem Place.Encloses.supers {place outer : Place} {node : Node} {body : List Stmt}
    (h : place.Encloses node outer body) (hn : node.supers p (place.map Prod.snd) = true) :
    Stmt.supersOf p (outer.inside.map Prod.snd) body = true := by
  cases h with
  | block => cases place <;> exact hn
  | lambda => cases place <;> exact hn
  | function f =>
    have hbody := (Function.supers_eq f).symm.trans hn
    cases place <;> exact hbody
  | @method name superclass? methods f hf =>
    have hbody := Function.supersOf_iff.1 hn f hf
    unfold receiver
    unfold Function.height? at hbody
    cases hstatic : f.isStatic <;> cases superclass? <;> simpa [hstatic, inside] using hbody

theorem Seated.supers {programs : List Stmt → Prop} {place : Place} {node : Node}
    (h : Seated programs place node)
    (hp : ∀ program, programs program → Stmt.supersOf p none program = true) :
    node.supers p (place.map Prod.snd) = true := by
  induction h with
  | top hprogram hs => exact Stmt.supersOf_iff.1 (hp _ hprogram) _ hs
  | part _ hpart ih => exact Node.supers_part ih hpart
  | initializer _ ih => exact ih
  | body _ he hs ih => exact Stmt.supersOf_iff.1 (he.supers ih) _ hs

end Tests

end Lox
