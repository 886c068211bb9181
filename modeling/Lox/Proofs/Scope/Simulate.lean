import Lox.Proofs.Machine.Likeness
import Lox.Proofs.Scope.Walk

/-!
# Resolving programs that are alike

Programs that are alike are resolved alike. Whether a declaration is complete matters only when its
scope is closed, so the declaration of a function may be completed before its body is resolved or after.
-/

namespace Lox

open Outcome

namespace Scope

/-! ### States that are alike -/

/-- What a walk has reported and listed, and whether it warns. -/
structure Account where
  warns : Bool
  notices : List Notice
  rows : List Row

def Resolution.account (r : Resolution) : Account := ⟨r.warns, r.notices, r.rows⟩

def Account.close (a : Account) (scope : Table Mark) : Account :=
  { a with notices := if a.warns then a.notices ++ Resolving.unusedIn scope else a.notices }

/-- What the accounts of two walks have to do with each other, whatever both report and list next. -/
structure Accord (token : Token → Token → Prop) where
  lexeme {t t' : Token} : token t t' → t'.lexeme = t.lexeme
  holds : Account → Account → Prop
  reported {a a' : Account} {t t' : Token} (flaw : Flaw) : token t t' → holds a a' →
    holds { a with notices := a.notices ++ [.flawed t flaw] }
      { a' with notices := a'.notices ++ [.flawed t' flaw] }
  listed {a a' : Account} {t t' : Token} (form : Form) (depth : Nat) : token t t' → holds a a' →
    holds { a with rows := a.rows ++ [⟨form, t, depth⟩] } { a' with rows := a'.rows ++ [⟨form, t', depth⟩] }
  closed {a a' : Account} (scope : Table Mark) : holds a a' → holds (a.close scope) (a'.close scope)

/-- The same scope, where the declaration of a name may be complete in the first one only. -/
def Pends : Option String → Table Mark → Table Mark → Prop
  | none, scope, scope' => scope = scope'
  | some name, scope, scope' =>
    scope'.contains name = true ∧ scope = scope'.modify name ({ · with defined := true })

/-- The same scopes, in each of which one declaration may be complete in the first stack only. -/
inductive Pending : List (Option String) → List (Table Mark) → List (Table Mark) → Prop
  | nil (names) : Pending names [] []
  | cons : Pends names.headI scope scope' → Pending names.tail outer outer' →
      Pending names (scope :: outer) (scope' :: outer')

variable {token : Token → Token → Prop} {accord : Accord token} {names names' names'' : List (Option String)}

structure Resolution.Like (accord : Accord token) (names : List (Option String)) (r r' : Resolution) :
    Prop where
  scopes : Pending names r.scopes r'.scopes
  function? : r'.function? = r.function?
  inClass : r'.inClass = r.inClass
  account : accord.holds r.account r'.account

section Pending

variable {name? : Option String} {scope scope' : Table Mark} {scopes scopes' : List (Table Mark)}

theorem Pends.contains (h : Pends name? scope scope') (x : String) :
    scope'.contains x = scope.contains x := by
  cases name? with
  | none => rw [show scope = scope' from h]
  | some name =>
    rw [h.2, Table.contains, Table.contains, Table.get?_modify]
    split <;> simp

theorem Pends.use (h : Pends name? scope scope') (x : String) :
    Pends name? (scope.modify x ({ · with used := true })) (scope'.modify x ({ · with used := true })) := by
  cases name? with
  | none => exact congrArg (Table.modify · x _) h
  | some name =>
    obtain ⟨hcontains, rfl⟩ := h
    refine ⟨?_, Table.modify_comm _ _ _ fun _ => rfl⟩
    rw [Table.contains] at hcontains
    rw [Table.contains, Table.get?_modify]
    split <;> simp [hcontains]

/-- The nearest declaration of a name is found in the same place, and stays as it is when it is used. -/
theorem Pending.markNearest (h : Pending names scopes scopes') (x : String) :
    Option.Rel (fun p p' => p'.1 = p.1 ∧ Pending names p.2 p'.2) (Scope.markNearest x scopes)
      (Scope.markNearest x scopes') := by
  induction h with
  | nil names => exact .none
  | cons hs ho ih =>
    unfold Scope.markNearest
    rw [hs.contains]
    split
    · exact .some ⟨rfl, .cons (hs.use x) ho⟩
    · exact ih.casesOn (fun hp => .some ⟨congrArg (· + 1) hp.1, .cons hs hp.2⟩) .none

theorem Pending.any_contains (h : Pending names scopes scopes') (x : String) :
    scopes'.any (·.contains x) = scopes.any (·.contains x) := by
  induction h with
  | nil => rfl
  | cons hs _ ih => simp only [List.any_cons, hs.contains, ih]

theorem Pending.cases (h : Pending names scopes scopes') :
    scopes = [] ∧ scopes' = [] ∨ ∃ scope scope' outer outer', scopes = scope :: outer ∧
      scopes' = scope' :: outer' ∧ Pends names.headI scope scope' ∧ Pending names.tail outer outer' := by
  cases h with
  | nil => exact .inl ⟨rfl, rfl⟩
  | cons hs ho => exact .inr ⟨_, _, _, _, rfl, rfl, hs, ho⟩

end Pending

namespace Resolving

variable {α β γ δ : Type} {value : α → β → Prop} {value' : γ → δ → Prop} {x : Resolving α}
  {y : Resolving β} {f : α → Resolving γ} {g : β → Resolving δ}

/-- Outcomes of resolving that are alike. -/
inductive Ends (accord : Accord token) (names : List (Option String)) (value : α → β → Prop) :
    EStateM.Result Defect Resolution α → EStateM.Result Defect Resolution β → Prop
  | ok : value a b → r.Like accord names r' → Ends accord names value (.ok a r) (.ok b r')
  | error (d) : accord.holds (Resolution.account r) (Resolution.account r') →
      Ends accord names value (.error d r) (.error d r')

/-- The second walk does from a state that is alike what the first does. The pending names change. -/
def Relates (accord : Accord token) (names names' : List (Option String)) (value : α → β → Prop)
    (x : Resolving α) (y : Resolving β) : Prop :=
  ∀ r r', r.Like accord names r' → Ends accord names' value (x r) (y r')

/-- The second walk does what the first does, in a scope without pending names. -/
def Agrees (accord : Accord token) (value : α → β → Prop) (x : Resolving α) (y : Resolving β) : Prop :=
  ∀ names : List (Option String), names.headI = none → Relates accord names names value x y

namespace Relates

theorem pure {a : α} {b : β} (h : value a b) : Relates accord names names value (Pure.pure a) (Pure.pure b) :=
  fun _ _ hr => .ok h hr

theorem bind (hx : Relates accord names names' value x y)
    (hf : ∀ a b, value a b → Relates accord names' names'' value' (f a) (g b)) :
    Relates accord names names'' value' (x >>= f) (y >>= g) := by
  intro r r' hr
  have h := hx r r' hr
  generalize hx : x r = o at h
  generalize hy : y r' = o' at h
  cases h with
  | ok hv hr' =>
    rw [bind_of_ok hx, bind_of_ok hy]
    exact hf _ _ hv _ _ hr'
  | error d ha =>
    rw [bind_of_error hx, bind_of_error hy]
    exact .error d ha

theorem get_bind {f : Resolution → Resolving α} {g : Resolution → Resolving β}
    (h : ∀ r r', r.Like accord names r' → Relates accord names names' value (f r) (g r')) :
    Relates accord names names' value (get >>= f) (get >>= g) :=
  fun r r' hr => h r r' hr r r' hr

theorem modify {p q : Resolution → Resolution}
    (h : ∀ r r', r.Like accord names r' → (p r).Like accord names' (q r')) :
    Relates accord names names' Eq (MonadStateOf.modifyGet fun r => (PUnit.unit, p r))
      (MonadStateOf.modifyGet fun r => (PUnit.unit, q r)) :=
  fun r r' hr => .ok rfl (h r r' hr)

end Relates

namespace Agrees

theorem throw (d : Defect) : Agrees accord value (MonadExcept.throw d) (MonadExcept.throw d) :=
  fun _ _ _ _ hr => .error d hr.account

theorem pure {a : α} {b : β} (h : value a b) : Agrees accord value (Pure.pure a) (Pure.pure b) :=
  fun _ _ => .pure h

theorem bind (hx : Agrees accord value x y) (hf : ∀ a b, value a b → Agrees accord value' (f a) (g b)) :
    Agrees accord value' (x >>= f) (y >>= g) :=
  fun names hn => (hx names hn).bind fun a b hv => hf a b hv names hn

theorem map {p : α → γ} {q : β → δ} (hx : Agrees accord value x y)
    (hpq : ∀ a b, value a b → value' (p a) (q b)) :
    Agrees accord value' (do return p (← x)) (do return q (← y)) :=
  hx.bind fun a b hv => .pure (hpq a b hv)

end Agrees

/-! ### Steps -/

section Steps

variable {t t' : Token} {r : Resolution} {scope : Table Mark} {outer : List (Table Mark)}

theorem relates_closeScope : Relates accord (none :: names) names Eq closeScope closeScope := by
  rintro ⟨scopes, _⟩ ⟨scopes', _⟩ ⟨hscopes, hf, hc, ha⟩
  cases hscopes with
  | nil => exact .error _ ha
  | cons hs ho =>
    obtain rfl : _ = _ := hs
    exact .ok rfl ⟨ho, hf, hc, accord.closed _ ha⟩

variable (ht : token t t')

include ht

theorem relates_report (flaw : Flaw) :
    Relates accord names names Eq (report (.flawed t flaw)) (report (.flawed t' flaw)) :=
  .modify fun _ _ hr => ⟨hr.scopes, hr.function?, hr.inClass, accord.reported flaw ht hr.account⟩

theorem agrees_locate (form : Form) : Agrees accord Eq (locate form t) (locate form t') := by
  refine fun names hn => .get_bind fun r r' hr => ?_
  rw [accord.lexeme ht]
  refine (hr.scopes.markNearest t.lexeme).casesOn (fun {p p'} hp => ?_) (.pure rfl)
  obtain ⟨depth, scopes⟩ := p
  obtain ⟨_, scopes'⟩ := p'
  obtain ⟨rfl, hscopes⟩ := hp
  exact fun _ _ _ => .ok rfl ⟨hscopes, hr.function?, hr.inClass, accord.listed form _ ht hr.account⟩

theorem agrees_locateInClass (form : Form) (flaw : Flaw) :
    Agrees accord Eq (locateInClass form t flaw) (locateInClass form t' flaw) := by
  refine fun names hn => .get_bind fun r r' hr => ?_
  rw [hr.inClass]
  split
  · exact agrees_locate ht form names hn
  · exact (relates_report ht flaw).bind fun _ _ _ => .pure rfl

theorem agrees_locateSuper : Agrees accord Eq (locateSuper t) (locateSuper t') := by
  refine fun names hn => .get_bind fun r r' hr => ?_
  rw [hr.inClass, hr.scopes.any_contains]
  split
  · exact (relates_report ht _).bind fun _ _ _ => .pure rfl
  · exact agrees_locateInClass ht _ _ names hn

theorem Resolution.Like.declare {r' : Resolution} (hr : r.Like accord names r') (hn : names.headI = none) :
    ∃ s s', Resolving.declare t r = .ok () s ∧ Resolving.declare t' r' = .ok () s' ∧
      s.Like accord names s' ∧ ∀ scope ∈ s.scopes.head?, scope.contains t.lexeme = true := by
  obtain ⟨h, h'⟩ | ⟨scope, scope', outer, outer', h, h', hs, ho⟩ := hr.scopes.cases
  · exact ⟨r, r', declare_eq_ok.2 (.inl ⟨h, rfl⟩), declare_eq_ok.2 (.inl ⟨h', rfl⟩), hr, by simp [h]⟩
  · rw [hn] at hs
    obtain rfl : scope = scope' := hs
    refine ⟨_, _, declare_eq_ok.2 (.inr ⟨_, _, h, rfl⟩), declare_eq_ok.2 (.inr ⟨_, _, h', rfl⟩),
      ⟨.cons ?_ ho, hr.function?, hr.inClass, ?_⟩, ?_⟩
    · rw [hn, accord.lexeme ht]
      rfl
    · unfold Resolution.account
      rw [accord.lexeme ht]
      split
      · exact accord.reported _ ht hr.account
      · exact hr.account
    · rintro _ ⟨⟩
      simp [Table.contains]

theorem agrees_declare : Agrees accord Eq (declare t) (declare t') := by
  intro names hn r r' hr
  obtain ⟨s, s', h, h', hs, -⟩ := Resolution.Like.declare ht hr hn
  rw [h, h']
  exact .ok rfl hs

theorem agrees_define : Agrees accord Eq (define t) (define t') := by
  refine fun names hn => .get_bind fun r r' hr => ?_
  obtain ⟨h, h'⟩ | ⟨scope, scope', outer, outer', h, h', hs, ho⟩ := hr.scopes.cases
  · rw [h, h']
    exact .pure rfl
  · rw [hn] at hs
    obtain rfl : scope = scope' := hs
    rw [h, h', accord.lexeme ht]
    dsimp only
    split
    · exact .modify fun _ _ hr => ⟨.cons (hn ▸ rfl) ho, hr.function?, hr.inClass, hr.account⟩
    · exact fun _ _ hr => .error _ hr.account

/-- A declaration may be left pending in the second walk. -/
theorem relates_declare_define (hn : names.headI = none) :
    Relates accord names (some t.lexeme :: names.tail) Eq (do declare t; define t) (declare t') := by
  intro r r' hr
  obtain ⟨s, s', h, h', hs, hheld⟩ := Resolution.Like.declare ht hr hn
  rw [bind_of_ok h, h']
  obtain ⟨h, h'⟩ | ⟨scope, scope', outer, outer', h, h', hscope, ho⟩ := hs.scopes.cases
  · rw [(define_eq_ok (u := ())).2 (.inl ⟨h, rfl⟩)]
    exact .ok rfl ⟨by rw [h, h']; exact .nil _, hs.function?, hs.inClass, hs.account⟩
  · rw [hn] at hscope
    obtain rfl : scope = scope' := hscope
    have hcontains := hheld scope (by simp [h])
    rw [(define_eq_ok (u := ())).2 (.inr ⟨_, _, h, hcontains, rfl⟩)]
    exact .ok rfl ⟨h' ▸ .cons ⟨hcontains, rfl⟩ ho, hs.function?, hs.inClass, hs.account⟩

theorem relates_define_later (hn : names.headI = none) :
    Relates accord (some t.lexeme :: names.tail) names Eq (pure ()) (define t') := by
  intro r r' hr
  obtain ⟨h, h'⟩ | ⟨scope, scope', outer, outer', h, h', ⟨hcontains, hscope⟩, ho⟩ := hr.scopes.cases
  · rw [(define_eq_ok (u := ())).2 (.inl ⟨h', rfl⟩)]
    exact .ok rfl ⟨by rw [h, h']; exact .nil _, hr.function?, hr.inClass, hr.account⟩
  · rw [← accord.lexeme ht] at hcontains hscope
    rw [(define_eq_ok (u := ())).2 (.inr ⟨_, _, h', hcontains, rfl⟩)]
    exact .ok rfl ⟨h ▸ .cons (hn ▸ hscope) ho, hr.function?, hr.inClass, hr.account⟩

end Steps

/-! ### Bodies -/

section Bodies

theorem relates_inScope (h : Agrees accord value x y) (scope : Table Mark) :
    Relates accord names names value (inScope scope x) (inScope scope y) := by
  have hopen : Relates accord names (none :: names) Eq (openScope scope) (openScope scope) :=
    .modify fun _ _ hr => ⟨.cons rfl hr.scopes, hr.function?, hr.inClass, hr.account⟩
  exact hopen.bind fun _ _ _ => (h _ rfl).bind fun _ _ hv => relates_closeScope.bind fun _ _ _ => .pure hv

theorem agrees_inScope (h : Agrees accord value x y) (scope : Table Mark) :
    Agrees accord value (inScope scope x) (inScope scope y) := fun _ _ => relates_inScope h scope

theorem agrees_inClass (h : Agrees accord value x y) : Agrees accord value (inClass x) (inClass y) := by
  intro names hn
  have hset : ∀ b, Relates accord names names Eq (modify fun r => { r with inClass := b })
      (modify fun r => { r with inClass := b }) :=
    fun _ => .modify fun _ _ hr => ⟨hr.scopes, hr.function?, rfl, hr.account⟩
  refine .get_bind fun r r' hr => ?_
  rw [hr.inClass]
  refine (hset true).bind fun _ _ _ => (h names hn).bind fun _ _ hv => ?_
  exact (hset r.inClass).bind fun _ _ _ => .pure hv

theorem agrees_classBody (h : Agrees accord value x y) (hasSuper : Bool) :
    Agrees accord value (classBody hasSuper x) (classBody hasSuper y) := by
  intro names hn
  cases hasSuper with
  | false => exact relates_inScope h _
  | true => exact relates_inScope (agrees_inScope h _) _

/-- The registers of an initializer make no difference. -/
theorem relates_inVariable (h : Relates accord names names' value x y) (name : Token) :
    Relates accord names names' value x (inVariable name y) := by
  intro r r' hr
  have hinit := h r { r' with inVariable := true, declaring? := some name.lexeme }
    ⟨hr.scopes, hr.function?, hr.inClass, hr.account⟩
  unfold inVariable
  dsimp only
  generalize x r = o at hinit ⊢
  generalize y _ = o' at hinit ⊢
  cases hinit with
  | ok hv hr' => exact .ok hv ⟨hr'.scopes, hr'.function?, hr'.inClass, hr'.account⟩
  | error d ha => exact .error d ha

theorem agrees_inVariable (h : Agrees accord value x y) (name name' : Token) :
    Agrees accord value (inVariable name x) (inVariable name' y) := by
  intro names hn r r' hr
  have hinit := relates_inVariable (h names hn) name'
    { r with inVariable := true, declaring? := some name.lexeme } r'
    ⟨hr.scopes, hr.function?, hr.inClass, hr.account⟩
  generalize inVariable name' y r' = o' at hinit ⊢
  unfold inVariable
  dsimp only
  generalize x _ = o at hinit ⊢
  cases hinit with
  | ok hv hr' => exact .ok hv ⟨hr'.scopes, hr'.function?, hr'.inClass, hr'.account⟩
  | error d ha => exact .error d ha

theorem relates_inFunction {ps ps' : List Token} (hps : List.Forall₂ token ps ps')
    (h : Agrees accord value x y) (kind : FunctionKind) :
    Relates accord names names value (inFunction kind ps x) (inFunction kind ps' y) := by
  have hintroduce : Agrees accord Eq (introduce ps) (introduce ps') := by
    induction hps with
    | nil => exact .pure rfl
    | cons ht _ ih => exact (agrees_declare ht).bind fun _ _ _ => (agrees_define ht).bind fun _ _ _ => ih
  have hset : ∀ function?, Relates accord names names Eq (modify fun r => { r with function? := function? })
      (modify fun r => { r with function? := function? }) :=
    fun _ => .modify fun _ _ hr => ⟨hr.scopes, rfl, hr.inClass, hr.account⟩
  refine .get_bind fun r r' hr => ?_
  rw [hr.function?]
  refine (hset (some kind)).bind fun _ _ _ => ?_
  refine (relates_inScope (hintroduce.bind fun _ _ _ => h) .empty).bind fun _ _ hv => ?_
  exact (hset r.function?).bind fun _ _ _ => .pure hv

theorem agrees_inFunction {ps ps' : List Token} (hps : List.Forall₂ token ps ps')
    (h : Agrees accord value x y) (kind : FunctionKind) :
    Agrees accord value (inFunction kind ps x) (inFunction kind ps' y) :=
  fun _ _ => relates_inFunction hps h kind

variable {t t' : Token} (ht : token t t')

include ht

theorem agrees_return (h : Agrees accord value x y) :
    Agrees accord value
      (do unless (← get).inFunction do report (.flawed t .returnOutsideFunction)
          x)
      (do unless (← get).inFunction do report (.flawed t' .returnOutsideFunction)
          y) := by
  refine fun names hn => .get_bind fun r r' hr => ?_
  rw [Resolution.inFunction, Resolution.inFunction, hr.function?]
  split
  · exact h names hn
  · exact (relates_report ht _).bind fun _ _ _ => h names hn

theorem agrees_superclass {p p' : Option (Token × Address)}
    (hp : Option.Rel (fun p p' => token p.1 p'.1 ∧ p'.2 = p.2) p p') :
    Agrees accord (Option.Rel fun p p' => token p.1 p'.1 ∧ p'.2 = p.2) (superclass t p)
      (superclass t' p') := by
  cases hp with
  | none => exact .pure .none
  | @some p p' hp =>
    obtain ⟨parent, _⟩ := p
    obtain ⟨parent', _⟩ := p'
    have hparent : token parent parent' := hp.1
    have hlocate : Agrees accord (Option.Rel fun p p' => token p.1 p'.1 ∧ p'.2 = p.2)
        (do return some (parent, ← locate .variable parent))
        (do return some (parent', ← locate .variable parent')) :=
      (agrees_locate hparent .variable).bind fun _ _ ha => .pure (.some ⟨hparent, ha.symm⟩)
    unfold superclass
    dsimp only
    rw [accord.lexeme ht, accord.lexeme hparent]
    split
    · exact fun names hn => (relates_report hparent _).bind fun _ _ _ => hlocate names hn
    · exact hlocate

/-- The declaration of a function may be completed after its body is resolved. -/
theorem agrees_unnamed {p : β → γ} {value : α → γ → Prop}
    (h : ∀ names, Relates accord names names (fun a b => value a (p b)) x y) :
    Agrees accord value (do declare t; define t; x)
      (do declare t'; let b ← inVariable t' y; define t'; return p b) := by
  intro names hn
  have hdone : ∀ a b, value a (p b) →
      Relates accord names names value (Pure.pure a) (Pure.pure (p b)) := fun _ _ => .pure
  have hbody := (relates_inVariable (h (some t.lexeme :: names.tail)) t').bind fun a b hv =>
    (relates_define_later ht hn).bind fun _ _ _ => hdone a b hv
  simp only [pure_bind, bind_pure] at hbody
  rw [← bind_assoc]
  exact (relates_declare_define ht hn).bind fun _ _ _ => hbody

end Bodies

end Resolving

end Scope

/-! ### Trees -/

/-- Nodes are alike if and only if they have one form and parts that are alike. -/
structure Likeness.Closed (c : Likeness) : Prop where
  expr {e e' : Expr} : c.expr e e' ↔ Expr.Like c.token c.expr c.stmt e e'
  stmt {s s' : Stmt} : c.stmt s s' ↔ Stmt.Like c.token c.expr c.stmt c.unnames s s'

section Trees

open Scope Resolving

variable {c : Likeness} {accord : Accord c.token}

mutual

theorem Expr.agrees_resolve (hc : c.Closed) : ∀ (e : Expr) {e' : Expr}, c.expr e e' →
    Agrees accord c.expr e.resolve e'.resolve := fun e {e'} h => match e, e', hc.expr.1 h with
  | .gap, _, .gap => .throw _
  | .literal _, _, .literal _ => .pure h
  | .grouping body, _, .grouping hb =>
    (body.agrees_resolve hc hb).map fun _ _ hb => hc.expr.2 (.grouping hb)
  | .unary _ right, _, .unary ht hr =>
    (right.agrees_resolve hc hr).map fun _ _ hr => hc.expr.2 (.unary ht hr)
  | .binary left _ right, _, .binary hl ht hr =>
    (left.agrees_resolve hc hl).bind fun _ _ hl =>
      (right.agrees_resolve hc hr).map fun _ _ hr => hc.expr.2 (.binary hl ht hr)
  | .logical left _ right, _, .logical hl ht hr =>
    (left.agrees_resolve hc hl).bind fun _ _ hl =>
      (right.agrees_resolve hc hr).map fun _ _ hr => hc.expr.2 (.logical hl ht hr)
  | .variable _ _, _, .variable _ ht =>
    (agrees_locate ht _).map fun _ _ ha => hc.expr.2 (ha ▸ .variable _ ht)
  | .assign _ _ value, _, .assign _ ht hv =>
    (value.agrees_resolve hc hv).bind fun _ _ hv =>
      (agrees_locate ht _).map fun _ _ ha => hc.expr.2 (ha ▸ .assign _ ht hv)
  | .call callee _ arguments, _, .call hf ht has =>
    (callee.agrees_resolve hc hf).bind fun _ _ hf =>
      (Expr.agrees_resolveAll hc arguments has).map fun _ _ has => hc.expr.2 (.call hf ht has)
  | .lambda _ body, _, .lambda hps hss =>
    (agrees_inFunction hps (Stmt.agrees_resolveAll hc body hss) _).map fun _ _ hss =>
      hc.expr.2 (.lambda hps hss)
  | .get object _, _, .get ho ht =>
    (object.agrees_resolve hc ho).map fun _ _ ho => hc.expr.2 (.get ho ht)
  | .set object _ value, _, .set ho ht hv =>
    (value.agrees_resolve hc hv).bind fun _ _ hv =>
      (object.agrees_resolve hc ho).map fun _ _ ho => hc.expr.2 (.set ho ht hv)
  | .this _ _, _, .this _ ht =>
    (agrees_locateInClass ht _ _).map fun _ _ ha => hc.expr.2 (ha ▸ .this _ ht)
  | .super _ _ _, _, .super _ hk ht =>
    (agrees_locateSuper hk).map fun _ _ ha => hc.expr.2 (ha ▸ .super _ hk ht)
  | .inner _ _ _, _, .inner _ hk ht =>
    (agrees_locateInClass hk _ _).map fun _ _ ha => hc.expr.2 (ha ▸ .inner _ hk ht)
termination_by structural e => e

theorem Expr.agrees_resolveAll (hc : c.Closed) : ∀ (es : List Expr) {es' : List Expr},
    List.Forall₂ c.expr es es' →
      Agrees accord (List.Forall₂ c.expr) (Expr.resolveAll es) (Expr.resolveAll es')
  | [], _, .nil => .pure .nil
  | e :: es, _, .cons he hes =>
    (e.agrees_resolve hc he).bind fun _ _ he => (Expr.agrees_resolveAll hc es hes).map fun _ _ => .cons he
termination_by structural es => es

theorem Stmt.agrees_resolve (hc : c.Closed) : ∀ (s : Stmt) {s' : Stmt}, c.stmt s s' →
    Agrees accord c.stmt s.resolve s'.resolve := fun s {s'} h => match s, s', hc.stmt.1 h with
  | .gap, _, .gap => .throw _
  | .bare value, _, .bare hv => (value.agrees_resolve hc hv).map fun _ _ hv => hc.stmt.2 (.bare hv)
  | .expression value, _, .expression hv =>
    (value.agrees_resolve hc hv).map fun _ _ hv => hc.stmt.2 (.expression hv)
  | .print value, _, .print hv => (value.agrees_resolve hc hv).map fun _ _ hv => hc.stmt.2 (.print hv)
  | .varDecl _ none, _, .varDecl ht .none =>
    (agrees_declare ht).bind fun _ _ _ => (agrees_define ht).map fun _ _ _ => h
  | .varDecl _ (some init), _, .varDecl ht (.some hi) =>
    (agrees_declare ht).bind fun _ _ _ =>
      (agrees_inVariable (init.agrees_resolve hc hi) _ _).bind fun _ _ hi =>
        (agrees_define ht).map fun _ _ _ => hc.stmt.2 (.varDecl ht (.some hi))
  | .block body, _, .block hss =>
    (agrees_inScope (Stmt.agrees_resolveAll hc body hss) .empty).map fun _ _ hss => hc.stmt.2 (.block hss)
  | .ifStmt condition onTrue none, _, .ifStmt he hs .none =>
    (condition.agrees_resolve hc he).bind fun _ _ he =>
      (onTrue.agrees_resolve hc hs).map fun _ _ hs => hc.stmt.2 (.ifStmt he hs .none)
  | .ifStmt condition onTrue (some onFalse), _, .ifStmt he hs (.some ho) =>
    (condition.agrees_resolve hc he).bind fun _ _ he => (onTrue.agrees_resolve hc hs).bind fun _ _ hs =>
      (onFalse.agrees_resolve hc ho).map fun _ _ ho => hc.stmt.2 (.ifStmt he hs (.some ho))
  | .whileStmt condition body, _, .whileStmt he hs =>
    (condition.agrees_resolve hc he).bind fun _ _ he =>
      (body.agrees_resolve hc hs).map fun _ _ hs => hc.stmt.2 (.whileStmt he hs)
  | .breakStmt _, _, .breakStmt _ => .pure h
  | .funDecl d, _, .funDecl hd =>
    (agrees_declare hd.name).bind fun _ _ _ => (agrees_define hd.name).bind fun _ _ _ =>
      (d.agrees_resolve hc hd rfl).map fun _ _ hd => hc.stmt.2 (.funDecl hd)
  | .classDecl _ _ methods, _, .classDecl ht hp hds =>
    agrees_inClass <| (agrees_declare ht).bind fun _ _ _ => (agrees_define ht).bind fun _ _ _ =>
      (agrees_superclass ht hp).bind fun _ _ hp => by
        have hsome := hp.casesOn (motive := fun p p' _ => p'.isSome = p.isSome) (fun _ => rfl) rfl
        rw [hsome]
        exact (agrees_classBody (Function.agrees_resolveAll hc methods hds) _).map fun _ _ hds =>
          hc.stmt.2 (.classDecl ht hp hds)
  | .returnStmt _ none, _, .returnStmt ht .none => agrees_return ht (.pure h)
  | .returnStmt _ (some value), _, .returnStmt ht (.some hv) =>
    agrees_return ht <| (value.agrees_resolve hc hv).map fun _ _ hv => hc.stmt.2 (.returnStmt ht (.some hv))
  | .funDecl ⟨_, _, body, false, false⟩, _, .unnamed hu ht hps hss =>
    agrees_unnamed ht fun names => by
      rw [Function.resolve, bind_assoc]
      refine (relates_inFunction hps (Stmt.agrees_resolveAll hc body hss) _).bind ?_
      exact fun _ _ hss => .pure (hc.stmt.2 (.unnamed hu ht hps hss))
termination_by structural s => s

theorem Stmt.agrees_resolveAll (hc : c.Closed) : ∀ (ss : List Stmt) {ss' : List Stmt},
    List.Forall₂ c.stmt ss ss' →
      Agrees accord (List.Forall₂ c.stmt) (Stmt.resolveAll ss) (Stmt.resolveAll ss')
  | [], _, .nil => .pure .nil
  | s :: ss, _, .cons hs hss =>
    (s.agrees_resolve hc hs).bind fun _ _ hs => (Stmt.agrees_resolveAll hc ss hss).map fun _ _ => .cons hs
termination_by structural ss => ss

theorem Function.agrees_resolve (hc : c.Closed) : ∀ (d : Function) {d' : Function},
    Function.Like c.token c.stmt d d' → ∀ {kind kind'}, kind' = kind →
      Agrees accord (Function.Like c.token c.stmt) (d.resolve kind) (d'.resolve kind')
  | ⟨_, _, body, _, _⟩, _, .mk _ _ ht hps hss, _, _, rfl =>
    (agrees_inFunction hps (Stmt.agrees_resolveAll hc body hss) _).map fun _ _ => .mk _ _ ht hps
termination_by structural d => d

theorem Function.agrees_resolveAll (hc : c.Closed) : ∀ (ds : List Function) {ds' : List Function},
    List.Forall₂ (Function.Like c.token c.stmt) ds ds' → Agrees accord
      (List.Forall₂ (Function.Like c.token c.stmt)) (Function.resolveAll ds) (Function.resolveAll ds')
  | [], _, .nil => .pure .nil
  | d :: ds, _, .cons hd hds =>
    have hkind := congrArg (fun x => if x = "init" then FunctionKind.initializer else .method)
      (accord.lexeme hd.name)
    (d.agrees_resolve hc hd hkind).bind fun _ _ hd =>
      (Function.agrees_resolveAll hc ds hds).map fun _ _ => .cons hd
termination_by structural ds => ds

end

end Trees

end Lox
