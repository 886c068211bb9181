import Lox.Proofs.Scope.Forms
import Lox.Proofs.Scope.Walk

/-!
# Resolved trees

A tree that came out of resolving is related to the scopes that were open when the walk reached it.
One level of such a tree is taken apart at a time: its parts came out of resolving too, in scopes
that are known.
-/

namespace Lox

open Scope Scope.Resolving Outcome

variable {r r' : Resolution} {scopes : List (Set String)}

/-- Every node has a form that reading can yield; and methods belong to instances, unless methods of
classes are admitted. -/
def Expr.Regular (statics : Bool) (e : Expr) : Prop :=
  e.all Node.isReadable = true ∧ (statics = false → e.all Node.isInstanceOnly = true)

@[inherit_doc Expr.Regular]
def Stmt.Regular (statics : Bool) (s : Stmt) : Prop :=
  s.all Node.isReadable = true ∧ (statics = false → s.all Node.isInstanceOnly = true)

def Stmt.AllRegular (statics : Bool) (ss : List Stmt) : Prop :=
  Stmt.allOf Node.isReadable ss = true ∧ (statics = false → Stmt.allOf Node.isInstanceOnly ss = true)

/-- An expression is the outcome of resolving while the given scopes are open, and nothing was found
to be wrong. -/
def Expr.ResolvedIn (statics : Bool) (scopes : List (Set String)) (e : Expr) : Prop :=
  ∃ (e₀ : Expr) (r r' : Resolution), e₀.Regular statics ∧ e₀.resolve r = .ok e r' ∧ r.held = scopes ∧
    r'.Clean

@[inherit_doc Expr.ResolvedIn]
def Stmt.ResolvedIn (statics : Bool) (scopes : List (Set String)) (s : Stmt) : Prop :=
  ∃ (s₀ : Stmt) (r r' : Resolution), s₀.Regular statics ∧ s₀.resolve r = .ok s r' ∧ r.held = scopes ∧
    r'.Clean

/-- Statements are the outcome of resolving while the given scopes are open. -/
def Stmt.AllResolvedIn (statics : Bool) (scopes : List (Set String)) (ss : List Stmt) : Prop :=
  ∃ (ss₀ : List Stmt) (r r' : Resolution), Stmt.AllRegular statics ss₀ ∧
    Stmt.resolveAll ss₀ r = .ok ss r' ∧ r.held = scopes ∧ r'.Clean

def paramScope (params : List Token) : Set String := {x | x ∈ params.map (·.lexeme)}

def Function.ResolvedIn (statics : Bool) (scopes : List (Set String)) (f : Function) : Prop :=
  f.isReadable = true ∧ Stmt.AllResolvedIn statics (paramScope f.params :: scopes) f.body

/-- What is known of the parts of an expression that was resolved. -/
def Expr.Scoped (statics : Bool) (scopes : List (Set String)) : Expr → Prop
  | .gap | .super .. => False
  | .grouping body => body.ResolvedIn statics scopes
  | .unary _ right => right.ResolvedIn statics scopes
  | .binary left _ right | .logical left _ right =>
    left.ResolvedIn statics scopes ∧ right.ResolvedIn statics scopes
  | .variable name address | .this name address => Locates scopes name.lexeme address
  | .assign name address value =>
    value.ResolvedIn statics scopes ∧ Locates scopes name.lexeme address
  | .call callee _ arguments =>
    callee.ResolvedIn statics scopes ∧ ∀ e ∈ arguments, e.ResolvedIn statics scopes
  | .lambda params body => Stmt.AllResolvedIn statics (paramScope params :: scopes) body
  | .get object _ => object.ResolvedIn statics scopes
  | .set object _ value => object.ResolvedIn statics scopes ∧ value.ResolvedIn statics scopes
  | .literal _ | .inner .. => True

/-- What is known of the parts of a statement that was resolved. -/
def Stmt.Scoped (statics : Bool) (scopes : List (Set String)) : Stmt → Prop
  | .gap => False
  | .bare value | .expression value | .print value | .returnStmt _ (some value) =>
    value.ResolvedIn statics scopes
  | .varDecl name (some init) => init.ResolvedIn statics (extend [name.lexeme] scopes)
  | .block body => Stmt.AllResolvedIn statics (∅ :: scopes) body
  | .ifStmt condition onTrue onFalse? =>
    condition.ResolvedIn statics scopes ∧ (onTrue.ResolvedIn statics scopes ∧ onTrue.declared = []) ∧
      ∀ onFalse ∈ onFalse?, onFalse.ResolvedIn statics scopes ∧ onFalse.declared = []
  | .whileStmt condition body =>
    condition.ResolvedIn statics scopes ∧ body.ResolvedIn statics scopes ∧ body.declared = []
  | .funDecl f => f.ResolvedIn statics (extend [f.name.lexeme] scopes)
  | .classDecl name superclass? methods =>
    (∀ parent address, superclass? = some (parent, address) → name.lexeme ≠ parent.lexeme ∧
        Locates (extend [name.lexeme] scopes) parent.lexeme address) ∧
      ∀ f ∈ methods, (statics = false → f.isStatic = false) ∧
        f.ResolvedIn statics (around superclass?.isSome (extend [name.lexeme] scopes))
  | .varDecl _ none | .breakStmt _ | .returnStmt _ none => True

variable {statics : Bool}

/-! ### Lists -/

theorem Expr.resolveAll_resolvedIn {es₀ es : List Expr} (hp : Expr.allOf Node.isReadable es₀ = true)
    (hi : statics = false → Expr.allOf Node.isInstanceOnly es₀ = true)
    (h : Expr.resolveAll es₀ r = .ok es r') (hc : r'.Clean) :
    ∀ e ∈ es, e.ResolvedIn statics r.held := by
  induction es₀ generalizing es r with
  | nil =>
    simp only [Expr.resolveAll, pure_eq_ok] at h
    obtain ⟨rfl, rfl⟩ := h
    simp
  | cons e₀ es₀ ih =>
    simp only [Expr.resolveAll, bind_eq_ok, pure_eq_ok] at h
    obtain ⟨e, r₁, he, es', r₂, hes, rfl, rfl⟩ := h
    simp only [Expr.allOf, Bool.and_eq_true, imp_and] at hp hi
    have hl := e₀.resolve_leads he
    have hl' := Expr.resolveAll_leads es₀ hes
    intro e' he'
    rcases List.mem_cons.1 he' with rfl | he'
    · exact ⟨e₀, r, r₁, ⟨hp.1, hi.1⟩, he, rfl, hl'.clean hc⟩
    · have := ih hp.2 hi.2 hes e' he'
      rwa [hl.held, extend_nil] at this

theorem Function.resolve_resolvedIn {kind : FunctionKind} {f₀ f : Function} (hg : f₀.isReadable = true)
    (hp : f₀.all Node.isReadable = true)
    (hi : statics = false → f₀.all Node.isInstanceOnly = true) (h : f₀.resolve kind r = .ok f r')
    (hc : r'.Clean) :
    f.ResolvedIn statics r.held ∧ f.isStatic = f₀.isStatic := by
  obtain ⟨name, params, body, isStatic, isGetter⟩ := f₀
  simp only [Function.resolve, bind_eq_ok, pure_eq_ok] at h
  obtain ⟨body', r₁, hb, rfl, rfl⟩ := h
  obtain ⟨-, r₂, r₃, hb', hheld, hclean⟩ :=
    inFunction_leads hb fun hb => ⟨_, Stmt.resolveAll_leads body hb⟩
  exact ⟨⟨hg, body, r₂, r₃, ⟨hp, hi⟩, hb', hheld, hclean hc⟩, rfl⟩

theorem Function.resolveAll_resolvedIn {fs₀ fs : List Function} (hg : ∀ f ∈ fs₀, f.isReadable = true)
    (hp : Function.allOf Node.isReadable fs₀ = true)
    (hi : statics = false → Function.allOf Node.isInstanceOnly fs₀ = true)
    (hs : statics = false → ∀ f ∈ fs₀, f.isStatic = false)
    (h : Function.resolveAll fs₀ r = .ok fs r') (hc : r'.Clean) :
    ∀ f ∈ fs, (statics = false → f.isStatic = false) ∧ f.ResolvedIn statics r.held := by
  induction fs₀ generalizing fs r with
  | nil =>
    simp only [Function.resolveAll, pure_eq_ok] at h
    obtain ⟨rfl, rfl⟩ := h
    simp
  | cons f₀ fs₀ ih =>
    simp only [Function.resolveAll, bind_eq_ok, pure_eq_ok] at h
    obtain ⟨f, r₁, hf, fs', r₂, hfs, rfl, rfl⟩ := h
    simp only [Function.allOf, Bool.and_eq_true, imp_and] at hp hi
    have hl := f₀.resolve_leads hf
    have hl' := Function.resolveAll_leads fs₀ hfs
    intro f' hf'
    rcases List.mem_cons.1 hf' with rfl | hf'
    · obtain ⟨hres, hstatic⟩ :=
        Function.resolve_resolvedIn (hg f₀ (by simp)) hp.1 hi.1 hf (hl'.clean hc)
      exact ⟨fun h => hstatic.trans (hs h f₀ (by simp)), hres⟩
    · have := ih (fun g hm => hg g (by simp [hm])) hp.2 hi.2
        (fun h g hm => hs h g (by simp [hm])) hfs f' hf'
      rwa [hl.held, extend_nil] at this

theorem Stmt.AllResolvedIn.cons {s : Stmt} {ss : List Stmt}
    (h : Stmt.AllResolvedIn statics scopes (s :: ss)) :
    s.ResolvedIn statics scopes ∧ Stmt.AllResolvedIn statics (extend s.declared scopes) ss := by
  obtain ⟨ss₀, r, r', ⟨hp, hi⟩, h, rfl, hc⟩ := h
  cases ss₀ with
  | nil =>
    simp only [Stmt.resolveAll, pure_eq_ok] at h
    exact absurd h.1 (by simp)
  | cons s₀ ss₀ =>
    simp only [Stmt.resolveAll, bind_eq_ok, pure_eq_ok, List.cons.injEq] at h
    obtain ⟨_, r₁, hs, _, r₂, hss, ⟨rfl, rfl⟩, rfl⟩ := h
    simp only [Stmt.allOf, Bool.and_eq_true, imp_and] at hp hi
    have hl := s₀.resolve_leads hs
    have hl' := Stmt.resolveAll_leads ss₀ hss
    exact ⟨⟨s₀, r, r₁, ⟨hp.1, hi.1⟩, hs, rfl, hl'.clean hc⟩,
      ss₀, r₁, r₂, ⟨hp.2, hi.2⟩, hss, by rw [hl.held, Stmt.declared_resolve hs], hc⟩

/-! ### One level of a tree -/

theorem Expr.resolve_pair {a b a' b' : Expr} {r₁ : Resolution}
    (hp : a.all Node.isReadable = true ∧ b.all Node.isReadable = true)
    (hi : (statics = false → a.all Node.isInstanceOnly = true) ∧
      (statics = false → b.all Node.isInstanceOnly = true))
    (ha : a.resolve r = .ok a' r₁) (hb : b.resolve r₁ = .ok b' r') (hc : r'.Clean) :
    a'.ResolvedIn statics r.held ∧ b'.ResolvedIn statics r.held := by
  refine ⟨⟨a, r, r₁, ⟨hp.1, hi.1⟩, ha, rfl, (b.resolve_leads hb).clean hc⟩,
    b, r₁, r', ⟨hp.2, hi.2⟩, hb, ?_, hc⟩
  rw [(a.resolve_leads ha).held, extend_nil]

theorem Expr.ResolvedIn.scoped {e : Expr} (h : e.ResolvedIn statics scopes) :
    e.Scoped statics scopes := by
  obtain ⟨e₀, r, r', ⟨hp, hi⟩, h, rfl, hc⟩ := h
  cases e₀ with
  | gap => exact (throw_eq_ok.1 h).elim
  | literal =>
    simp only [Expr.resolve, pure_eq_ok] at h
    obtain ⟨rfl, rfl⟩ := h
    trivial
  | grouping body | unary _ body | get body _ =>
    simp only [Expr.resolve, bind_eq_ok, pure_eq_ok] at h
    obtain ⟨_, _, hb, rfl, rfl⟩ := h
    simp only [Expr.all, Bool.and_eq_true, imp_and] at hp hi
    exact ⟨body, _, _, ⟨hp.2, hi.2⟩, hb, rfl, hc⟩
  | binary | logical =>
    simp only [Expr.resolve, bind_eq_ok, pure_eq_ok] at h
    obtain ⟨_, _, hl, _, _, hr, rfl, rfl⟩ := h
    simp only [Expr.all, Bool.and_eq_true, imp_and] at hp hi
    exact Expr.resolve_pair hp.2 hi.2 hl hr hc
  | «variable» name a =>
    simp only [Expr.resolve, bind_eq_ok, pure_eq_ok] at h
    obtain ⟨_, _, ha, rfl, rfl⟩ := h
    exact (locate_spec ha).2
  | assign name a value =>
    simp only [Expr.resolve, bind_eq_ok, pure_eq_ok] at h
    obtain ⟨_, _, hv, _, _, ha, rfl, rfl⟩ := h
    simp only [Expr.all, Bool.and_eq_true, imp_and] at hp hi
    obtain ⟨hl, hloc⟩ := locate_spec ha
    refine ⟨⟨value, _, _, ⟨hp.2, hi.2⟩, hv, rfl, hl.clean hc⟩, ?_⟩
    rwa [(value.resolve_leads hv).held, extend_nil] at hloc
  | call callee paren arguments =>
    simp only [Expr.resolve, bind_eq_ok, pure_eq_ok] at h
    obtain ⟨_, _, hf, _, _, ha, rfl, rfl⟩ := h
    simp only [Expr.all, Bool.and_eq_true, imp_and] at hp hi
    have hl := Expr.resolveAll_leads arguments ha
    refine ⟨⟨callee, _, _, ⟨hp.2.1, hi.2.1⟩, hf, rfl, hl.clean hc⟩, ?_⟩
    have := Expr.resolveAll_resolvedIn hp.2.2 hi.2.2 ha hc
    rwa [(callee.resolve_leads hf).held, extend_nil] at this
  | lambda params body =>
    simp only [Expr.resolve, bind_eq_ok, pure_eq_ok] at h
    obtain ⟨_, _, hb, rfl, rfl⟩ := h
    simp only [Expr.all, Bool.and_eq_true, imp_and] at hp hi
    obtain ⟨-, r₁, r₂, hb', hheld, hclean⟩ :=
      inFunction_leads hb fun hb => ⟨_, Stmt.resolveAll_leads body hb⟩
    exact ⟨body, r₁, r₂, ⟨hp.2, hi.2⟩, hb', hheld, hclean hc⟩
  | set object name value =>
    simp only [Expr.resolve, bind_eq_ok, pure_eq_ok] at h
    obtain ⟨_, _, hv, _, _, ho, rfl, rfl⟩ := h
    simp only [Expr.all, Bool.and_eq_true, imp_and] at hp hi
    exact (Expr.resolve_pair hp.2.symm hi.2.symm hv ho hc).symm
  | this keyword a =>
    simp only [Expr.resolve, bind_eq_ok, pure_eq_ok] at h
    obtain ⟨_, _, ha, rfl, rfl⟩ := h
    exact (locateInClass_spec ha).2 hc
  | super keyword method a => exact absurd hp (by simp [Expr.all, Node.isReadable])
  | inner keyword method a =>
    simp only [Expr.resolve, bind_eq_ok, pure_eq_ok] at h
    obtain ⟨_, _, ha, rfl, rfl⟩ := h
    trivial

theorem Stmt.ResolvedIn.scoped {s : Stmt} (h : s.ResolvedIn statics scopes) :
    s.Scoped statics scopes := by
  obtain ⟨s₀, r, r', ⟨hp, hi⟩, h, rfl, hc⟩ := h
  cases s₀ with
  | gap => exact (throw_eq_ok.1 h).elim
  | bare value | expression value | print value =>
    simp only [Stmt.resolve, bind_eq_ok, pure_eq_ok] at h
    obtain ⟨_, _, hv, rfl, rfl⟩ := h
    simp only [Stmt.all, Bool.and_eq_true, imp_and] at hp hi
    exact ⟨value, _, _, ⟨hp.2, hi.2⟩, hv, rfl, hc⟩
  | varDecl name init? =>
    cases init? with
    | none =>
      simp only [Stmt.resolve, bind_eq_ok, pure_eq_ok] at h
      obtain ⟨_, _, h₁, _, _, h₂, rfl, rfl⟩ := h
      trivial
    | some init =>
      simp only [Stmt.resolve, bind_eq_ok, pure_eq_ok] at h
      obtain ⟨_, _, h₁, _, _, hv, _, _, h₂, rfl, rfl⟩ := h
      obtain ⟨_, hi', rfl⟩ := inVariable_eq_ok.1 hv
      simp only [Stmt.all, Bool.and_eq_true, imp_and] at hp hi
      exact ⟨init, _, _, ⟨hp.2, hi.2⟩, hi', (declare_leads h₁).held, (define_leads h₂).clean hc⟩
  | block body =>
    simp only [Stmt.resolve, bind_eq_ok, pure_eq_ok] at h
    obtain ⟨_, _, hb, rfl, rfl⟩ := h
    simp only [Stmt.all, Bool.and_eq_true, imp_and] at hp hi
    obtain ⟨-, r₁, r₂, hb', hheld, hclean⟩ :=
      inScope_leads hb fun hb => ⟨_, Stmt.resolveAll_leads body hb⟩
    exact ⟨body, r₁, r₂, ⟨hp.2, hi.2⟩, hb', by simpa using hheld, hclean hc⟩
  | ifStmt condition onTrue onFalse? =>
    cases onFalse? with
    | none =>
      simp only [Stmt.resolve, bind_eq_ok, pure_eq_ok] at h
      obtain ⟨_, _, hcond, _, _, ht, rfl, rfl⟩ := h
      simp only [Stmt.all, Bool.and_eq_true, Node.isReadable, Stmt.declared,
        List.isEmpty_iff, imp_and] at hp hi
      have hl := onTrue.resolve_leads ht
      refine ⟨⟨condition, _, _, ⟨hp.2.1, hi.2.1⟩, hcond, rfl, hl.clean hc⟩,
        ⟨⟨onTrue, _, _, ⟨hp.2.2, hi.2.2⟩, ht, ?_, hc⟩, (Stmt.declared_resolve ht).trans hp.1⟩, by simp⟩
      rw [(condition.resolve_leads hcond).held, extend_nil]
    | some onFalse =>
      simp only [Stmt.resolve, bind_eq_ok, pure_eq_ok] at h
      obtain ⟨_, _, hcond, _, _, ht, _, _, hf, rfl, rfl⟩ := h
      simp only [Stmt.all, Bool.and_eq_true, Node.isReadable, Stmt.declared,
        List.isEmpty_iff, List.append_eq_nil_iff, imp_and] at hp hi
      have hl := onTrue.resolve_leads ht
      have hl' := onFalse.resolve_leads hf
      refine ⟨⟨condition, _, _, ⟨hp.2.1, hi.2.1⟩, hcond, rfl, hl.clean (hl'.clean hc)⟩,
        ⟨⟨onTrue, _, _, ⟨hp.2.2.1, hi.2.2.1⟩, ht, ?_, hl'.clean hc⟩,
          (Stmt.declared_resolve ht).trans hp.1.1⟩, ?_⟩
      · rw [(condition.resolve_leads hcond).held, extend_nil]
      · rintro _ ⟨⟩
        refine ⟨⟨onFalse, _, _, ⟨hp.2.2.2, hi.2.2.2⟩, hf, ?_, hc⟩,
          (Stmt.declared_resolve hf).trans hp.1.2⟩
        rw [hl.held, (condition.resolve_leads hcond).held, hp.1.1, extend_nil, extend_nil]
  | whileStmt condition body =>
    simp only [Stmt.resolve, bind_eq_ok, pure_eq_ok] at h
    obtain ⟨_, _, hcond, _, _, hb, rfl, rfl⟩ := h
    simp only [Stmt.all, Bool.and_eq_true, Node.isReadable, List.isEmpty_iff, imp_and] at hp hi
    have hl := body.resolve_leads hb
    refine ⟨⟨condition, _, _, ⟨hp.2.1, hi.2.1⟩, hcond, rfl, hl.clean hc⟩,
      ⟨body, _, _, ⟨hp.2.2, hi.2.2⟩, hb, ?_, hc⟩, (Stmt.declared_resolve hb).trans hp.1⟩
    rw [(condition.resolve_leads hcond).held, extend_nil]
  | breakStmt keyword =>
    simp only [Stmt.resolve, pure_eq_ok] at h
    obtain ⟨rfl, rfl⟩ := h
    trivial
  | funDecl f =>
    simp only [Stmt.resolve, bind_eq_ok, pure_eq_ok] at h
    obtain ⟨_, _, h₁, _, _, h₂, f', _, hf, rfl, rfl⟩ := h
    simp only [Stmt.all, Bool.and_eq_true, imp_and] at hp hi
    have hres := (Function.resolve_resolvedIn hp.1 hp.2 hi.2 hf hc).1
    rwa [(declare_define_leads h₁ h₂).held, ← Function.name_resolve hf] at hres
  | classDecl name superclass? methods =>
    simp only [Stmt.resolve] at h
    obtain ⟨r₁, r₂, hb, h₁, hn₂⟩ := inClass_leads h
    simp only [bind_eq_ok, pure_eq_ok] at hb
    obtain ⟨_, r₃, hd, _, r₄, hd', sup, r₅, hs, ms, r₆, hm, rfl, rfl⟩ := hb
    simp only [Stmt.all, Bool.and_eq_true, Node.isReadable, Node.isInstanceOnly,
      List.all_eq_true, Bool.not_eq_true', imp_and] at hp hi
    have hclean₆ : r₆.Clean := fun token flaw hn => hc token flaw (hn₂ ▸ hn)
    obtain ⟨hlm, r₇, r₈, hm', hheld, hclean⟩ :=
      classBody_leads hm fun hm => ⟨_, Function.resolveAll_leads methods hm⟩
    obtain ⟨hls, -, hsup⟩ := superclass_spec hs
    have hheld₄ : r₄.held = extend [name.lexeme] r.held := by
      rw [(declare_define_leads hd hd').held, h₁]
    refine ⟨?_, ?_⟩
    · intro parent address heq
      have := hsup parent address heq (hlm.clean hclean₆)
      rwa [hheld₄] at this
    · have := Function.resolveAll_resolvedIn hp.1 hp.2 hi.2 hi.1 hm' (hclean hclean₆)
      rwa [hheld, hls.held, extend_nil, hheld₄] at this
  | returnStmt keyword value? =>
    cases value? with
    | none =>
      have hs : s = .returnStmt keyword none := by
        simp only [Stmt.resolve, bind_eq_ok, get_eq_ok] at h
        obtain ⟨_, _, ⟨rfl, rfl⟩, h⟩ := h
        split at h
        · exact (pure_eq_ok.1 h).1.symm
        · simp only [bind_eq_ok, pure_eq_ok] at h
          obtain ⟨_, _, _, rfl, _⟩ := h
          rfl
      subst hs
      trivial
    | some value =>
      simp only [Stmt.all, Bool.and_eq_true, imp_and] at hp hi
      simp only [Stmt.resolve, bind_eq_ok, get_eq_ok] at h
      obtain ⟨_, _, ⟨rfl, rfl⟩, h⟩ := h
      split at h
      · simp only [bind_eq_ok, pure_eq_ok] at h
        obtain ⟨_, _, hv, rfl, rfl⟩ := h
        exact ⟨value, _, _, ⟨hp.2, hi.2⟩, hv, rfl, hc⟩
      · simp only [bind_eq_ok, pure_eq_ok] at h
        obtain ⟨_, _, hr, _, _, hv, rfl, rfl⟩ := h
        exact ⟨value, _, _, ⟨hp.2, hi.2⟩, hv, by rw [(report_leads hr).1.held, extend_nil], hc⟩

end Lox
