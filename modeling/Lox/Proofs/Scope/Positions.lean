import Lox.Proofs.Nested
import Lox.Proofs.Scope.Recast
import Lox.Proofs.Table
import Lox.Scope.Indexed

/-!
# Positions add nothing but positions

Resolving by position and resolving by name are two walks over the same tree. Where every form has a
rule in both of them, they keep the same scopes, give the same depths and report the same notices, but
for one: resolving by position also reports a variable that is read while the innermost scope holds
its name declared and not yet complete.
-/

namespace Lox

open Scope

/-! ### Trees without positions -/

def Address.unindexed : Address → Address
  | .slot depth _ => .hops depth
  | address => address

mutual

def Expr.unindexed : Expr → Expr
  | .grouping body => .grouping body.unindexed
  | .unary op right => .unary op right.unindexed
  | .binary left op right => .binary left.unindexed op right.unindexed
  | .logical left op right => .logical left.unindexed op right.unindexed
  | .variable name address => .variable name address.unindexed
  | .assign name address value => .assign name address.unindexed value.unindexed
  | .call callee paren arguments => .call callee.unindexed paren (Expr.unindexedAll arguments)
  | .lambda params body => .lambda params (Stmt.unindexedAll body)
  | e => e

def Expr.unindexedAll : List Expr → List Expr
  | [] => []
  | e :: es => e.unindexed :: Expr.unindexedAll es

def Stmt.unindexed : Stmt → Stmt
  | .bare value => .bare value.unindexed
  | .expression value => .expression value.unindexed
  | .print value => .print value.unindexed
  | .varDecl name (some init) => .varDecl name (some init.unindexed)
  | .block body => .block (Stmt.unindexedAll body)
  | .ifStmt condition onTrue none => .ifStmt condition.unindexed onTrue.unindexed none
  | .ifStmt condition onTrue (some onFalse) =>
    .ifStmt condition.unindexed onTrue.unindexed (some onFalse.unindexed)
  | .whileStmt condition body => .whileStmt condition.unindexed body.unindexed
  | .funDecl ⟨name, params, body, isStatic, isGetter⟩ =>
    .funDecl ⟨name, params, Stmt.unindexedAll body, isStatic, isGetter⟩
  | .returnStmt keyword (some value) => .returnStmt keyword (some value.unindexed)
  | s => s

def Stmt.unindexedAll : List Stmt → List Stmt
  | [] => []
  | s :: ss => s.unindexed :: Stmt.unindexedAll ss

end

/-- Whether names inside a node have positions: it is neither a class nor a property nor one of the
forms for the receiver. -/
def Node.isPositional : Node → Bool
  | .expr (.get ..) | .expr (.set ..) | .expr (.this ..) | .expr (.super ..) | .expr (.inner ..) => false
  | .stmt (.classDecl ..) => false
  | _ => true

/-! ### Reads that come too early -/

namespace Scope

def Resolving.after {α β : Type} (step : Resolving α) (next : Resolution → List β)
    (r : Resolution) : List β :=
  match step r with
  | .ok _ r' => next r'
  | .error .. => []

/-- Enters a function: opens the scope of its parameters and its body. -/
def Resolving.enterFunction (params : List Token) : Resolving Unit := do
  modify fun r => { r with function? := some .function }
  openScope .empty
  introduce params

def Resolving.enterVariable (name : Token) : Resolving Unit :=
  modify fun r => { r with inVariable := true, declaring? := some name.lexeme }

def Resolving.checkReturn (keyword : Token) : Resolving Unit := do
  unless (← get).inFunction do report (.flawed keyword .returnOutsideFunction)

theorem Resolving.checkReturn_bind {α : Type} (keyword : Token) (next : Resolving α) :
    (do checkReturn keyword; next) = (do
      unless (← get).inFunction do report (.flawed keyword .returnOutsideFunction)
      next) := by
  unfold checkReturn
  rw [bind_assoc]
  refine congrArg (get >>= ·) (funext fun r => ?_)
  cases r.inFunction <;> rfl

/-- Whether the innermost scope holds a name that is declared and not yet complete. -/
def Resolution.isPending (r : Resolution) (name : String) : Bool :=
  match r.scopes with
  | [] => false
  | scope :: _ => (scope.get? name).any fun mark => !mark.defined

/-- The reports of the variables that are read while their declaration in the innermost scope is not
yet complete. -/
def early (reads : List (Token × Resolution)) : List Notice :=
  (reads.filter fun read => read.2.isPending read.1.lexeme).map fun read =>
    .flawed read.1 .ownInitializer

@[simp] theorem early_nil : early [] = [] := rfl

@[simp] theorem early_append (reads reads' : List (Token × Resolution)) :
    early (reads ++ reads') = early reads ++ early reads' := by
  simp [early]

end Scope

open Scope.Resolving

mutual

/-- The variables that resolving an expression by name reads, in order, each with the state in which it
is read. Forms without positions are left out. -/
def Expr.reads : Expr → Resolution → List (Token × Resolution)
  | .grouping body, r => body.reads r
  | .unary _ right, r => right.reads r
  | .binary left _ right, r => left.reads r ++ after left.resolve right.reads r
  | .logical left _ right, r => left.reads r ++ after left.resolve right.reads r
  | .variable name _, r => [(name, r)]
  | .assign _ _ value, r => value.reads r
  | .call callee _ arguments, r => callee.reads r ++ after callee.resolve (Expr.readsAll arguments) r
  | .lambda params body, r => after (enterFunction params) (Stmt.readsAll body) r
  | _, _ => []

/-- The variables that resolving expressions by name reads. -/
def Expr.readsAll : List Expr → Resolution → List (Token × Resolution)
  | [], _ => []
  | e :: es, r => e.reads r ++ after e.resolve (Expr.readsAll es) r

def Stmt.reads : Stmt → Resolution → List (Token × Resolution)
  | .bare value, r => value.reads r
  | .expression value, r => value.reads r
  | .print value, r => value.reads r
  | .varDecl name (some init), r => after (declare name) (after (enterVariable name) init.reads) r
  | .block body, r => after (openScope .empty) (Stmt.readsAll body) r
  | .ifStmt condition onTrue none, r => condition.reads r ++ after condition.resolve onTrue.reads r
  | .ifStmt condition onTrue (some onFalse), r =>
    condition.reads r ++
      after condition.resolve (fun r => onTrue.reads r ++ after onTrue.resolve onFalse.reads r) r
  | .whileStmt condition body, r => condition.reads r ++ after condition.resolve body.reads r
  | .funDecl ⟨name, params, body, _, _⟩, r =>
    after (declare name) (after (define name) (after (enterFunction params) (Stmt.readsAll body))) r
  | .returnStmt keyword (some value), r => after (checkReturn keyword) value.reads r
  | _, _ => []

/-- The variables that resolving statements by name reads. -/
def Stmt.readsAll : List Stmt → Resolution → List (Token × Resolution)
  | [], _ => []
  | s :: ss, r => s.reads r ++ after s.resolve (Stmt.readsAll ss) r

end

/-! ### Two walks side by side -/

namespace Scope.Indexed

def Mark.unindexed (mark : Mark) : Scope.Mark := ⟨mark.defined, mark.used⟩

def Row.unindexed (row : Row) : Scope.Row := ⟨row.form, row.token, row.depth⟩

def reportsEarly : Notice → Bool
  | .flawed _ .ownInitializer => true
  | _ => false

/-- A state of resolving by position without its positions and without the reports of early reads. No
class is open in it, and only resolving by name has registers for the variable that is declared. -/
def Resolution.unindexed (v : Bool × Option String) (r : Resolution) : Scope.Resolution where
  scopes := r.scopes.map (Table.map Mark.unindexed)
  function? := if r.inFunction then some .function else none
  inClass := false
  inVariable := v.1
  declaring? := v.2
  warns := r.warns
  notices := r.notices.filter (!reportsEarly ·)
  rows := r.rows.map Row.unindexed

theorem Resolution.inFunction_unindexed (v : Bool × Option String) (r : Resolution) :
    (r.unindexed v).inFunction = r.inFunction := by
  unfold Scope.Resolution.inFunction Resolution.unindexed
  cases r.inFunction <;> rfl

/-- The state in which a step of resolving ends. -/
def ended {α : Type} : EStateM.Result Defect Resolution α → Resolution
  | .ok _ r => r
  | .error _ r => r

/-- Without positions, the step `x` by position does what the step `y` by name does, and besides it
reports those of the given reads that come too early. -/
structure Follows {α β : Type} (v : Bool × Option String) (value : α → β) (x : Resolving α) (y : Scope.Resolving β)
    (reads : List (Token × Scope.Resolution)) (r : Resolution) : Prop where
  mirrors : Mirrors (Resolution.unindexed v) id value x y r
  adds : (ended (x r)).notices.filter reportsEarly = r.notices.filter reportsEarly ++ early reads

namespace Follows

variable {v : Bool × Option String} {α β α' β' : Type} {value : α → β} {value' : α' → β'} {x : Resolving α}
  {y : Scope.Resolving β} {reads : List (Token × Scope.Resolution)} {r : Resolution}

theorem pure {a : α} {b : β} (h : b = value a) :
    Follows v value (Pure.pure a) (Pure.pure b) [] r :=
  ⟨.pure h, (List.append_nil _).symm⟩

theorem throw (d : Defect) :
    Follows v value (MonadExcept.throw d : Resolving α) (MonadExcept.throw d) [] r :=
  ⟨.throw rfl, (List.append_nil _).symm⟩

theorem bind {f : α → Resolving α'} {g : β → Scope.Resolving β'}
    {next : Scope.Resolution → List (Token × Scope.Resolution)} (hx : Follows v value x y reads r)
    (hf : ∀ a r', Follows v value' (f a) (g (value a)) (next (r'.unindexed v)) r') :
    Follows v value' (x >>= f) (y >>= g) (reads ++ y.after next (r.unindexed v)) r := by
  refine ⟨hx.mirrors.bind fun a r' => (hf a r').mirrors, ?_⟩
  have hadds := hx.adds
  unfold Resolving.after
  cases hrun : x r with
  | ok a r' =>
    rw [hrun] at hadds
    rw [Outcome.bind_of_ok hrun, hx.mirrors.ok hrun, (hf a r').adds, early_append,
      ← List.append_assoc]
    exact congrArg (· ++ _) hadds
  | error d r' =>
    rw [hrun] at hadds
    rw [Outcome.bind_of_error hrun, hx.mirrors.error hrun, List.append_nil]
    exact hadds

theorem before {f : α → Resolving α'} {g : β → Scope.Resolving β'} (hx : Follows v value x y reads r)
    (hf : ∀ a r', Follows v value' (f a) (g (value a)) [] r') :
    Follows v value' (x >>= f) (y >>= g) reads r := by
  have h : Follows v value' (x >>= f) (y >>= g) (reads ++ y.after (fun _ => []) (r.unindexed v)) r :=
    hx.bind hf
  have hnone : y.after (fun _ => ([] : List (Token × Scope.Resolution))) (r.unindexed v) = [] := by
    unfold Resolving.after
    split <;> rfl
  rwa [hnone, List.append_nil] at h

theorem get_bind {f : Resolution → Resolving α'} {g : Scope.Resolution → Scope.Resolving β'}
    (h : Follows v value' (f r) (g (r.unindexed v)) reads r) :
    Follows v value' (get >>= f) (get >>= g) reads r :=
  ⟨.get_bind h.mirrors, h.adds⟩

theorem look {f : Resolution → Resolving α} (h : Follows v value (f r) y reads r) :
    Follows v value (get >>= f) y reads r :=
  ⟨h.mirrors, h.adds⟩

theorem ite {c c' : Prop} [Decidable c] [Decidable c'] {x₂ : Resolving α} {y₂ : Scope.Resolving β}
    (hc : c' ↔ c) (hx : Follows v value x y reads r) (hy : Follows v value x₂ y₂ reads r) :
    Follows v value (if c then x else x₂) (if c' then y else y₂) reads r := by
  by_cases h : c
  · rwa [if_pos h, if_pos (hc.2 h)]
  · rwa [if_neg h, if_neg (mt hc.1 h)]

theorem modify {p : Resolution → Resolution} {q : Scope.Resolution → Scope.Resolution}
    (h : q (r.unindexed v) = (p r).unindexed v)
    (hadds : (p r).notices.filter reportsEarly = r.notices.filter reportsEarly) :
    Follows v id (MonadStateOf.modifyGet fun r => (PUnit.unit, p r) : Resolving PUnit)
      (MonadStateOf.modifyGet fun r => (PUnit.unit, q r)) [] r :=
  ⟨.modify h, by rw [early_nil, List.append_nil]; exact hadds⟩

end Follows

namespace Resolving

variable {v : Bool × Option String} {α β : Type} {value : α → β} {r : Resolution}

variable {x : Resolving α} {y : Scope.Resolving β}
  {reads : Scope.Resolution → List (Token × Scope.Resolution)}

theorem follows_report {notice : Notice} (h : reportsEarly notice = false) :
    Follows v id (report notice) (Scope.Resolving.report notice) [] r :=
  .modify (by simp [Resolution.unindexed, h]) (by simp [h])

theorem follows_openScope : Follows v id openScope (Scope.Resolving.openScope .empty) [] r :=
  .modify (by simp [Resolution.unindexed]) rfl

/-- The declarations that nothing refers to are the same. -/
theorem filterMap_unused (scope : Table Mark) :
    (scope.entries.filterMap fun entry =>
      if entry.2.defined && !entry.2.used then some (Notice.unused entry.1) else none) =
      unusedIn (scope.map Mark.unindexed) := by
  unfold unusedIn Table.map
  rw [List.filter_map, List.map_map]
  induction scope.entries with
  | nil => rfl
  | cons entry rest ih =>
    rw [List.filterMap_cons, List.filter_cons, ih]
    obtain ⟨name, defined, used, index⟩ := entry
    cases defined <;> cases used <;> rfl

theorem reportsEarly_unused {scope : Table Scope.Mark} {notice : Notice}
    (h : notice ∈ unusedIn scope) : reportsEarly notice = false := by
  obtain ⟨entry, -, rfl⟩ := List.mem_map.1 h
  rfl

theorem follows_closeScope : Follows v id closeScope Scope.Resolving.closeScope [] r := by
  refine .get_bind ?_
  obtain ⟨scopes, inFunction, warns, nextIndex, notices, rows⟩ := r
  cases scopes with
  | nil => exact .throw _
  | cons scope outer =>
    have hearly : (unusedIn (scope.map Mark.unindexed)).filter reportsEarly = [] :=
      List.filter_eq_nil_iff.2 fun notice h => by simp [reportsEarly_unused h]
    have hother : (unusedIn (scope.map Mark.unindexed)).filter (!reportsEarly ·) =
        unusedIn (scope.map Mark.unindexed) :=
      List.filter_eq_self.2 fun notice h => by simp [reportsEarly_unused h]
    constructor
    · change EStateM.Result.ok _ _ = EStateM.Result.ok _ _
      rw [filterMap_unused]
      cases warns <;> simp [Resolution.unindexed, hother]
    · change List.filter _ (if warns then notices ++ _ else notices) = _
      rw [filterMap_unused]
      cases warns <;> simp [hearly]

theorem follows_declare (name : Token) :
    Follows v id (declare name) (Scope.Resolving.declare name) [] r := by
  refine .get_bind ?_
  obtain ⟨scopes, inFunction, warns, nextIndex, notices, rows⟩ := r
  cases scopes with
  | nil => exact .pure rfl
  | cons scope outer =>
    have hinsert : ∀ r' : Resolution, Follows v id _ _ [] r' := fun r' =>
      .modify (p := fun r : Resolution =>
        { r with
          scopes := scope.insert name.lexeme ⟨false, false, r.nextIndex⟩ :: outer
          nextIndex := r.nextIndex + 1 })
        (q := fun r => { r with
          scopes := (scope.map Mark.unindexed).insert name.lexeme ⟨false, false⟩ ::
            outer.map (Table.map Mark.unindexed) })
        (by simp [Resolution.unindexed, Mark.unindexed]) rfl
    refine .ite (by rw [Table.contains_map]) ?_ (hinsert _)
    exact (follows_report rfl).before fun _ r' => hinsert r'

theorem follows_define (name : Token) :
    Follows v id (define name) (Scope.Resolving.define name) [] r := by
  refine .get_bind ?_
  obtain ⟨scopes, inFunction, warns, nextIndex, notices, rows⟩ := r
  cases scopes with
  | nil => exact .pure rfl
  | cons scope outer =>
    simp only [Resolution.unindexed, List.map_cons]
    cases hmark : scope.get? name.lexeme with
    | none =>
      rw [if_neg (by simp [Table.contains, hmark])]
      exact .throw _
    | some mark =>
      rw [if_pos (by simp [Table.contains, hmark])]
      refine .modify ?_ rfl
      simp [Resolution.unindexed, Table.modify, hmark, Mark.unindexed]

theorem markNearest_unindexed (name : String) (scopes : List (Table Mark)) :
    Scope.markNearest name (scopes.map (Table.map Mark.unindexed)) =
      (markNearest name scopes).map fun found =>
        (found.1, found.2.2.map (Table.map Mark.unindexed)) := by
  induction scopes with
  | nil => rfl
  | cons scope outer ih =>
    rw [List.map_cons, Scope.markNearest, markNearest, Table.contains_map, ih, Table.contains,
      Table.modify, Table.get?_map]
    cases scope.get? name with
    | none => cases markNearest name outer <;> simp
    | some mark => simp [Mark.unindexed]

theorem follows_locate (form : Form) (token : Token) :
    Follows v Address.unindexed (locate form token) (Scope.Resolving.locate form token) [] r := by
  refine .get_bind ?_
  have hfound := markNearest_unindexed token.lexeme r.scopes
  rw [show (r.unindexed v).scopes = r.scopes.map (Table.map Mark.unindexed) from rfl, hfound]
  -- Both searches end at the same scope; the rows they write differ by the index alone.
  rcases markNearest token.lexeme r.scopes with _ | ⟨depth, index, scopes⟩
  · exact .pure rfl
  · constructor
    · change EStateM.Result.ok _ _ = EStateM.Result.ok _ _
      simp [Resolution.unindexed, Row.unindexed, Address.unindexed]
    · exact (List.append_nil _).symm

theorem isPending_unindexed {scope : Table Mark} {outer : List (Table Mark)}
    (h : r.scopes = scope :: outer) (name : String) :
    (r.unindexed v).isPending name = (scope.get? name).any fun mark => !mark.defined := by
  simp only [Resolution.isPending, Resolution.unindexed, h, List.map_cons, Table.get?_map]
  cases scope.get? name <;> rfl

theorem follows_locateRead (name : Token) :
    Follows v Address.unindexed (locateRead name) (Scope.Resolving.locate .variable name)
      [(name, (r.unindexed v))] r := by
  have hlocate : ∀ r', Follows v Address.unindexed (locate .variable name)
      (Scope.Resolving.locate .variable name) [] r' := fun _ => follows_locate .variable name
  -- A read that does not come too early is reported in neither walk.
  have hcomplete : (r.unindexed v).isPending name.lexeme = false →
      Follows v Address.unindexed (locate .variable name) (Scope.Resolving.locate .variable name)
        [(name, (r.unindexed v))] r := by
    intro h
    have hnone : early [(name, (r.unindexed v))] = [] := by simp [early, h]
    exact ⟨(hlocate r).mirrors, by rw [hnone]; exact (hlocate r).adds⟩
  refine .look ?_
  cases hscopes : r.scopes with
  | nil => exact hcomplete (by simp [Resolution.isPending, Resolution.unindexed, hscopes])
  | cons scope outer =>
    have hpending := isPending_unindexed (v := v) hscopes name.lexeme
    by_cases hmark : ((scope.get? name.lexeme).any fun mark => !mark.defined) = true
    · have hone : early [(name, (r.unindexed v))] = [.flawed name .ownInitializer] := by
        simp [early, hpending, hmark]
      have hreport : Follows v id (report (.flawed name .ownInitializer)) (Pure.pure ())
          [(name, (r.unindexed v))] r :=
        ⟨congrArg (EStateM.Result.ok ()) (by simp [Resolution.unindexed, reportsEarly]),
          by rw [hone]; exact List.filter_append ..⟩
      have hread : Follows v Address.unindexed
          (report (.flawed name .ownInitializer) >>= fun _ => locate .variable name)
          (Pure.pure () >>= fun _ => Scope.Resolving.locate .variable name)
          [(name, (r.unindexed v))] r :=
        hreport.before fun _ r' => hlocate r'
      change Follows v _ (if _ = true then _ else _) _ _ r
      rw [if_pos hmark]
      exact hread
    · have hread := hcomplete (by rw [hpending]; exact Bool.eq_false_iff.2 hmark)
      change Follows v _ (if _ = true then _ else _) _ _ r
      rw [if_neg hmark]
      exact hread

theorem follows_introduce (names : List Token) :
    Follows v id (introduce names) (Scope.Resolving.introduce names) [] r := by
  induction names generalizing r with
  | nil => exact .pure rfl
  | cons name names ih =>
    exact (follows_declare name).before fun _ _ => (follows_define name).before fun _ _ => ih

theorem follows_inBlock

    (h : ∀ r, Follows v value x y (reads (r.unindexed v)) r) :
    Follows v value (inBlock x) (inScope .empty y)
      ((Scope.Resolving.openScope .empty).after reads (r.unindexed v)) r :=
  follows_openScope.bind fun _ r₁ =>
    (h r₁).before fun _ _ => follows_closeScope.before fun _ _ => .pure rfl

theorem follows_inFunction (params : List Token)

    (h : ∀ r, Follows v value x y (reads (r.unindexed v)) r) :
    Follows v value (inFunction params x) (Scope.Resolving.inFunction .function params y)
      ((enterFunction params).after reads (r.unindexed v)) r := by
  refine .get_bind ?_
  have hflag : ∀ (flag : Bool) (r : Resolution), Follows v id
      (modify fun r => { r with inFunction := flag } : Resolving Unit)
      (modify fun r => { r with function? := if flag then some .function else none }) [] r :=
    fun flag r => .modify rfl rfl
  -- The reads of the body are taken from the state in which the parameters are known, so all that
  -- comes before the body is made one step.
  have henter : Follows v id (do
      modify fun r => { r with inFunction := true }
      openScope
      introduce params) (enterFunction params) [] r :=
    (hflag true r).before fun _ _ => follows_openScope.before fun _ _ => follows_introduce params
  have hwhole : Follows v value
      (do
        (do
          modify fun r => { r with inFunction := true }
          openScope
          introduce params)
        let a ← x
        closeScope
        modify fun r' => { r' with inFunction := r.inFunction }
        return a)
      (do
        enterFunction params
        let a ← y
        Scope.Resolving.closeScope
        modify fun r' => { r' with function? := if r.inFunction then some .function else none }
        return a)
      ((enterFunction params).after reads (r.unindexed v)) r :=
    henter.bind fun _ r₁ => (h r₁).before fun _ _ => follows_closeScope.before fun _ _ =>
      (hflag r.inFunction _).before fun _ _ => .pure rfl
  simp only [enterFunction, inScope, bind_assoc, pure_bind] at hwhole ⊢
  exact hwhole

theorem inVariable_eq (name : Token) (init : Scope.Resolving α) (r : Scope.Resolution) :
    Scope.Resolving.inVariable name init r =
      Outcome.recast (fun r' => { r' with inVariable := r.inVariable, declaring? := r.declaring? }) id id
        (init { r with inVariable := true, declaring? := some name.lexeme }) := by
  unfold Scope.Resolving.inVariable
  dsimp only
  cases init _ <;> rfl

theorem follows_inVariable (name : Token)

    (h : ∀ v r, Follows v value x y (reads (r.unindexed v)) r) :
    Follows v value x (Scope.Resolving.inVariable name y)
      ((enterVariable name).after reads (r.unindexed v)) r := by
  obtain ⟨hmirrors, hadds⟩ := h (true, some name.lexeme) r
  refine ⟨?_, hadds⟩
  unfold Mirrors at hmirrors
  change Scope.Resolving.inVariable name y (r.unindexed v) = Outcome.recast _ _ _ (x r)
  rw [inVariable_eq]
  refine (congrArg _ hmirrors).trans ?_
  cases x r <;> rfl

theorem follows_checkReturn (keyword : Token) :
    Follows v id (checkReturn keyword) (Scope.Resolving.checkReturn keyword) [] r :=
  .get_bind (.ite (by rw [Resolution.inFunction_unindexed]) (.pure rfl) (follows_report rfl))

end Resolving

end Scope.Indexed

open Scope.Indexed Scope.Indexed.Resolving

mutual

theorem Expr.resolveIndexed_follows : ∀ (e : Expr), e.all Node.isPositional = true →
    ∀ (v : Bool × Option String) (r : Indexed.Resolution),
      Follows v Expr.unindexed e.resolveIndexed e.resolve (e.reads (r.unindexed v)) r
  | .gap, _, _, _ => .throw _
  | .literal _, _, _, _ => .pure rfl
  | .grouping body, h, v, r | .unary _ body, h, v, r => by
    simp only [Expr.all, Bool.and_eq_true] at h
    exact (body.resolveIndexed_follows h.2 v r).before fun _ _ => .pure rfl
  | .binary left _ right, h, v, r | .logical left _ right, h, v, r => by
    simp only [Expr.all, Bool.and_eq_true] at h
    exact (left.resolveIndexed_follows h.2.1 v r).bind fun _ r₁ =>
      (right.resolveIndexed_follows h.2.2 v r₁).before fun _ _ => .pure rfl
  | .variable name _, _, _, _ => (follows_locateRead name).before fun _ _ => .pure rfl
  | .assign name _ value, h, v, r => by
    simp only [Expr.all, Bool.and_eq_true] at h
    exact (value.resolveIndexed_follows h.2 v r).before fun _ _ =>
      (follows_locate .assign name).before fun _ _ => .pure rfl
  | .call callee _ arguments, h, v, r => by
    simp only [Expr.all, Bool.and_eq_true] at h
    exact (callee.resolveIndexed_follows h.2.1 v r).bind fun _ r₁ =>
      (Expr.resolveAllIndexed_follows arguments h.2.2 v r₁).before fun _ _ => .pure rfl
  | .lambda params body, h, v, r => by
    simp only [Expr.all, Bool.and_eq_true] at h
    exact (follows_inFunction params (Stmt.resolveAllIndexed_follows body h.2 v)).before
      fun _ _ => .pure rfl
  | .get .., h, _, _ | .set .., h, _, _ => by simp [Expr.all, Node.isPositional] at h
  | .this .., h, _, _ | .super .., h, _, _ | .inner .., h, _, _ => by simp [Expr.all, Node.isPositional] at h

theorem Expr.resolveAllIndexed_follows : ∀ (es : List Expr), Expr.allOf Node.isPositional es = true →
    ∀ (v : Bool × Option String) (r : Indexed.Resolution),
      Follows v Expr.unindexedAll (Expr.resolveAllIndexed es) (Expr.resolveAll es)
        (Expr.readsAll es (r.unindexed v)) r
  | [], _, _, _ => .pure rfl
  | e :: es, h, v, r => by
    simp only [Expr.allOf, Bool.and_eq_true] at h
    exact (e.resolveIndexed_follows h.1 v r).bind fun _ r₁ =>
      (Expr.resolveAllIndexed_follows es h.2 v r₁).before fun _ _ => .pure rfl

theorem Stmt.resolveIndexed_follows : ∀ (s : Stmt), s.all Node.isPositional = true →
    ∀ (v : Bool × Option String) (r : Indexed.Resolution),
      Follows v Stmt.unindexed s.resolveIndexed s.resolve (s.reads (r.unindexed v)) r
  | .gap, _, _, _ => .throw _
  | .bare value, h, v, r | .expression value, h, v, r | .print value, h, v, r => by
    simp only [Stmt.all, Bool.and_eq_true] at h
    exact (value.resolveIndexed_follows h.2 v r).before fun _ _ => .pure rfl
  | .varDecl name none, _, _, _ =>
    (follows_declare name).before fun _ _ => (follows_define name).before fun _ _ => .pure rfl
  | .varDecl name (some init), h, v, _ => by
    simp only [Stmt.all, Bool.and_eq_true] at h
    exact (follows_declare name).bind fun _ r₁ =>
      (follows_inVariable name (init.resolveIndexed_follows h.2)).before fun _ _ =>
        (follows_define name).before fun _ _ => .pure rfl
  | .block body, h, v, _ => by
    simp only [Stmt.all, Bool.and_eq_true] at h
    exact (follows_inBlock (Stmt.resolveAllIndexed_follows body h.2 v)).before fun _ _ => .pure rfl
  | .ifStmt condition onTrue none, h, v, r | .whileStmt condition onTrue, h, v, r => by
    simp only [Stmt.all, Bool.and_eq_true] at h
    exact (condition.resolveIndexed_follows h.2.1 v r).bind fun _ r₁ =>
      (onTrue.resolveIndexed_follows h.2.2 v r₁).before fun _ _ => .pure rfl
  | .ifStmt condition onTrue (some onFalse), h, v, r => by
    simp only [Stmt.all, Bool.and_eq_true] at h
    exact (condition.resolveIndexed_follows h.2.1 v r).bind fun _ r₁ =>
      (onTrue.resolveIndexed_follows h.2.2.1 v r₁).bind fun _ r₂ =>
        (onFalse.resolveIndexed_follows h.2.2.2 v r₂).before fun _ _ => .pure rfl
  | .breakStmt _, _, _, _ => .pure rfl
  | .funDecl ⟨name, params, body, isStatic, isGetter⟩, h, v, r => by
    simp only [Stmt.all, Function.all, Bool.and_eq_true] at h
    -- One walk resolves a function as a whole, the other one its body only.
    have hbody : ∀ r₁, Follows v Stmt.unindexed
        (do
          let body ← Indexed.Resolving.inFunction params (Stmt.resolveAllIndexed body)
          return .funDecl ⟨name, params, body, isStatic, isGetter⟩)
        (do
          let f ← (Function.mk name params body isStatic isGetter).resolve .function
          return .funDecl f)
        ((enterFunction params).after (Stmt.readsAll body) (r₁.unindexed v)) r₁ := by
      intro r₁
      simp only [Function.resolve, bind_assoc, pure_bind]
      exact (follows_inFunction params (Stmt.resolveAllIndexed_follows body h.2 v)).before
        fun _ _ => .pure rfl
    exact (follows_declare name).bind fun _ _ => (follows_define name).bind fun _ r₂ => hbody r₂
  | .classDecl .., h, v, _ => by simp [Stmt.all, Node.isPositional] at h
  | .returnStmt keyword none, _, _, r => by
    rw [Stmt.resolve, ← checkReturn_bind]
    exact (follows_checkReturn keyword).before fun _ _ => .pure rfl
  | .returnStmt keyword (some value), h, v, r => by
    simp only [Stmt.all, Bool.and_eq_true] at h
    rw [Stmt.resolve, ← checkReturn_bind]
    exact (follows_checkReturn keyword).bind fun _ r₁ =>
      (value.resolveIndexed_follows h.2 v r₁).before fun _ _ => .pure rfl

theorem Stmt.resolveAllIndexed_follows : ∀ (ss : List Stmt), Stmt.allOf Node.isPositional ss = true →
    ∀ (v : Bool × Option String) (r : Indexed.Resolution),
      Follows v Stmt.unindexedAll (Stmt.resolveAllIndexed ss) (Stmt.resolveAll ss)
        (Stmt.readsAll ss (r.unindexed v)) r
  | [], _, _, _ => .pure rfl
  | s :: ss, h, v, r => by
    simp only [Stmt.allOf, Bool.and_eq_true] at h
    exact (s.resolveIndexed_follows h.1 v r).bind fun _ r₁ =>
      (Stmt.resolveAllIndexed_follows ss h.2 v r₁).before fun _ _ => .pure rfl

end

/-- For a program in which all names have positions, resolving by position and by name end in the same
way. Without positions, the resolved programs and the references with their depths are the same, in
order; and so are the reports, but for those of the variables that are read while the innermost scope
holds their name declared and not yet complete: resolving by position reports each of these reads. -/
theorem Scope.Indexed.resolve_agrees (warns : Bool) (statements : List Stmt)
    (h : Stmt.allOf Node.isPositional statements = true) :
    (Scope.resolve warns statements).statements =
        (Indexed.resolve warns statements).statements.map Stmt.unindexedAll ∧
      (Scope.resolve warns statements).reached.rows =
        (Indexed.resolve warns statements).reached.rows.map Row.unindexed ∧
      (Scope.resolve warns statements).reached.notices =
        (Indexed.resolve warns statements).reached.notices.filter (!reportsEarly ·) ∧
      (Indexed.resolve warns statements).reached.notices.filter reportsEarly =
        early (Stmt.readsAll statements (.start warns)) := by
  obtain ⟨hmirrors, hadds⟩ := Stmt.resolveAllIndexed_follows statements h (false, none) (.start warns)
  unfold Scope.resolve Indexed.resolve Indexed.resolveFrom
  cases hrun : Stmt.resolveAllIndexed statements (.start warns) with
  | ok resolved r =>
    rw [hrun] at hadds
    have hplain : Stmt.resolveAll statements (.start warns) = _ := hmirrors.ok hrun
    rw [hplain]
    exact ⟨rfl, rfl, rfl, hadds⟩
  | error d r =>
    rw [hrun] at hadds
    have hplain : Stmt.resolveAll statements (.start warns) = _ := hmirrors.error hrun
    rw [hplain]
    exact ⟨rfl, rfl, rfl, hadds⟩

/-- A local variable that is read in its own initializer, once directly and once in a function. -/
def readsItself : List Stmt :=
  let a : Token := ⟨.identifier, "a", .nil, 1⟩
  let plus : Token := ⟨.plus, "+", .nil, 1⟩
  let later : Expr := .lambda [] [.returnStmt ⟨.kwReturn, "return", .nil, 1⟩ (some (.variable a .free))]
  [.block [.varDecl a (some (.binary (.variable a .free) plus later))]]

/-- Only the direct read comes too early, and it is all that is reported. -/
theorem Scope.Indexed.resolve_agrees_readsItself :
    Stmt.allOf Node.isPositional readsItself = true ∧
      (Scope.resolve true readsItself).statements =
        (Indexed.resolve true readsItself).statements.map Stmt.unindexedAll ∧
      (Indexed.resolve true readsItself).reached.rows.map Row.unindexed =
        [⟨.variable, ⟨.identifier, "a", .nil, 1⟩, 0⟩, ⟨.variable, ⟨.identifier, "a", .nil, 1⟩, 1⟩] ∧
      (Indexed.resolve true readsItself).reached.notices.filter (!reportsEarly ·) = [] ∧
      (Indexed.resolve true readsItself).reached.notices.filter reportsEarly =
        [.flawed ⟨.identifier, "a", .nil, 1⟩ .ownInitializer] := by
  have h : Stmt.allOf Node.isPositional readsItself = true := by decide
  obtain ⟨hstatements, hrows, hnotices, hearly⟩ := resolve_agrees true readsItself h
  refine ⟨h, hstatements, ?_, ?_, ?_⟩
  · rw [← hrows]
    decide
  · rw [← hnotices]
    decide
  · rw [hearly]
    decide

end Lox
