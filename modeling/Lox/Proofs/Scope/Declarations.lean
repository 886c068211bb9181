import Lox.Proofs.Outcome
import Lox.Proofs.Scope.Positions
import Mathlib.Data.List.Forall2
import Mathlib.Data.List.Infix

/-!
# Positions identify declarations

A walk over a program opens and closes scopes, declares names and refers to them. Looking back over these
events, from a reference to the declaration that it means, says which declaration a name refers to,
without positions. Resolving by position gives each declaration in a scope the next number, so two
references get one position if and only if they mean one declaration.
-/

namespace Lox

namespace Scope

/-! ### The events of a walk -/

/-- What a walk does with scopes and names. -/
inductive Event where
  | opens
  | closes
  | declares (name : String)
  | refers (form : Form) (token : Token)
deriving DecidableEq, Repr

namespace Event

def enclosed (es : List Event) : List Event := opens :: (es ++ [closes])

def declaring (names : List Token) : List Event := names.map fun name => declares name.lexeme

end Event

end Scope

open Scope

mutual

def Expr.events : Expr → List Event
  | .grouping body => body.events
  | .unary _ right => right.events
  | .binary left _ right => left.events ++ right.events
  | .logical left _ right => left.events ++ right.events
  | .variable name _ => [.refers .variable name]
  | .assign name _ value => value.events ++ [.refers .assign name]
  | .call callee _ arguments => callee.events ++ Expr.eventsOf arguments
  | .lambda params body => Event.enclosed (Event.declaring params ++ Stmt.eventsOf body)
  | _ => []

def Expr.eventsOf : List Expr → List Event
  | [] => []
  | e :: es => e.events ++ Expr.eventsOf es

def Stmt.events : Stmt → List Event
  | .bare value | .expression value | .print value => value.events
  | .varDecl name none => [.declares name.lexeme]
  | .varDecl name (some init) => .declares name.lexeme :: init.events
  | .block body => Event.enclosed (Stmt.eventsOf body)
  | .ifStmt condition onTrue none => condition.events ++ onTrue.events
  | .ifStmt condition onTrue (some onFalse) => condition.events ++ (onTrue.events ++ onFalse.events)
  | .whileStmt condition body => condition.events ++ body.events
  | .funDecl ⟨name, params, body, _, _⟩ =>
    .declares name.lexeme :: Event.enclosed (Event.declaring params ++ Stmt.eventsOf body)
  | .returnStmt _ (some value) => value.events
  | _ => []

def Stmt.eventsOf : List Stmt → List Event
  | [] => []
  | s :: ss => s.events ++ Stmt.eventsOf ss

end

namespace Scope

/-! ### Looking back

The events before a point of the walk are listed latest first, so an event lies at the position that the
number of the events after it in the list gives. A search that meets the end of a scope passes over the
scope as a whole: it counts the scopes that it still has to leave. -/

/-- What happened before the innermost open scope was opened; nothing if no scope is open. -/
def outside : Nat → List Event → Option (List Event)
  | _, [] => none
  | n, .closes :: past => outside (n + 1) past
  | 0, .opens :: past => some past
  | n + 1, .opens :: past => outside n past
  | n, .declares _ :: past => outside n past
  | n, .refers .. :: past => outside n past

/-- The position of the last declaration of a name in the innermost open scope. -/
def declaration? (x : String) : Nat → List Event → Option Nat
  | _, [] => none
  | n, .closes :: past => declaration? x (n + 1) past
  | 0, .opens :: _ => none
  | n + 1, .opens :: past => declaration? x n past
  | 0, .declares y :: past => if y = x then some past.length else declaration? x 0 past
  | n + 1, .declares _ :: past => declaration? x (n + 1) past
  | n, .refers .. :: past => declaration? x n past

/-- A declaration that a search comes to: the scopes that it has left, the position at which the scope
was opened, and that of the declaration. -/
structure Site where
  depth : Nat
  scope : Nat
  declaration : Nat
deriving DecidableEq, Repr

/-- The declaration that a name means: the last one in the innermost open scope that has one. -/
def find? (x : String) : Nat → Nat → List Event → Option Site
  | _, _, [] => none
  | n, depth, .closes :: past => find? x (n + 1) depth past
  | 0, depth, .opens :: past => find? x 0 (depth + 1) past
  | n + 1, depth, .opens :: past => find? x n depth past
  | 0, depth, .declares y :: past =>
    if y = x then (outside 0 past).map fun outer => ⟨depth, outer.length, past.length⟩
    else find? x 0 depth past
  | n + 1, depth, .declares _ :: past => find? x (n + 1) depth past
  | n, depth, .refers .. :: past => find? x n depth past

/-- The positions of the declarations that are made in scopes, in their order. -/
def locals : List Event → List Nat
  | .declares _ :: past => locals past ++ if (outside 0 past).isSome then [past.length] else []
  | _ :: past => locals past
  | [] => []

/-- A reference with the declaration that it means. -/
structure Finding where
  form : Form
  token : Token
  site : Site
deriving DecidableEq, Repr

/-- The references that mean declarations in scopes, in their order. -/
def findings : List Event → List Finding
  | .refers form token :: past =>
    findings past ++ ((find? token.lexeme 0 0 past).map (Finding.mk form token)).toList
  | _ :: past => findings past
  | [] => []

section Search

variable {x : String} {past outer : List Event}

variable {n depth : Nat}

theorem find?_of_outside (h : outside n past = some outer) :
    find? x n depth past =
      match declaration? x n past with
      | some d => some ⟨depth, outer.length, d⟩
      | none => find? x 0 (depth + 1) outer := by
  fun_induction declaration? x n past with
  | case1 => cases h
  | case2 n past ih => exact ih h
  | case3 past =>
    cases h
    rfl
  | case4 n past ih => exact ih h
  | case5 past =>
    change outside 0 past = some outer at h
    rw [find?, if_pos rfl, h]
    rfl
  | case6 y past hy ih =>
    rw [find?, if_neg hy]
    exact ih h
  | case7 n y past ih => exact ih h
  | case8 n form token past ih => exact ih h

theorem find?_of_outside_none (h : outside n past = none) : find? x n depth past = none := by
  fun_induction find? x n depth past with
  | case1 => rfl
  | case2 n depth past ih => exact ih h
  | case3 depth past => cases h
  | case4 n depth past ih => exact ih h
  | case5 depth past =>
    change outside 0 past = none at h
    rw [h]
    rfl
  | case6 depth y past _ ih => exact ih h
  | case7 n depth y past ih => exact ih h
  | case8 n depth form token past ih => exact ih h

theorem find?_eq_some {site : Site} (h : find? x n depth past = some site) :
    ∃ rest outer, .declares x :: rest <:+ past ∧ rest.length = site.declaration ∧
      outside 0 rest = some outer ∧ outer.length = site.scope := by
  fun_induction find? x n depth past with
  | case1 => cases h
  | case5 depth past =>
    obtain ⟨outer, houter, rfl⟩ := Option.map_eq_some_iff.1 h
    exact ⟨past, outer, List.suffix_rfl, rfl, houter, rfl⟩
  | case2 n depth past ih | case3 depth past ih | case4 n depth past ih | case6 depth y past _ ih
  | case7 n depth y past ih | case8 n depth form token past ih =>
    obtain ⟨rest, outer, hsuffix, hrest⟩ := ih h
    exact ⟨rest, outer, hsuffix.trans (List.suffix_cons _ _), hrest⟩

/-- The declaration that is found determines the scope. -/
theorem scope_eq_of_declaration_eq {y : String} {n' depth' : Nat} {before before' : List Event}
    {site site' : Site} (hb : before <:+ past) (hb' : before' <:+ past)
    (h : find? x n depth before = some site) (h' : find? y n' depth' before' = some site')
    (hd : site.declaration = site'.declaration) : site.scope = site'.scope := by
  obtain ⟨rest, outer, hsuffix, hlength, houter, hscope⟩ := find?_eq_some h
  obtain ⟨rest', outer', hsuffix', hlength', houter', hscope'⟩ := find?_eq_some h'
  have hrest : rest <:+ past := (List.suffix_cons _ _).trans (hsuffix.trans hb)
  have hrest' : rest' <:+ past := (List.suffix_cons _ _).trans (hsuffix'.trans hb')
  have heq : rest = rest' := by
    refine List.IsSuffix.eq_of_length ?_ (by rw [hlength, hlength', hd])
    exact List.suffix_of_suffix_length_le hrest hrest' (by rw [hlength, hlength', hd])
  rw [heq] at houter
  cases houter.symm.trans houter'
  rw [← hscope, hscope']

end Search

/-! ### Declarations and findings -/

theorem lt_length_of_mem_locals {past : List Event} {d : Nat} (h : d ∈ locals past) : d < past.length := by
  fun_induction locals past with
  | case1 y past ih =>
    rw [List.length_cons]
    rcases List.mem_append.1 h with h | h
    · exact Nat.lt_succ_of_lt (ih h)
    · split at h
      · rw [List.mem_singleton.1 h]
        exact Nat.lt_succ_self _
      · cases h
  | case2 e past _ ih => exact Nat.lt_succ_of_lt (ih h)
  | case3 => cases h

/-- No declaration is listed twice. -/
theorem nodup_locals (past : List Event) : (locals past).Nodup := by
  fun_induction locals past with
  | case1 y past ih =>
    split
    · refine List.nodup_append.2 ⟨ih, by simp, fun d hd d' hd' => ?_⟩
      rw [List.mem_singleton.1 hd']
      exact Nat.ne_of_lt (lt_length_of_mem_locals hd)
    · rwa [List.append_nil]
  | case2 e past _ ih => exact ih
  | case3 => exact List.nodup_nil

theorem exists_find?_of_mem_findings {past : List Event} {f : Finding} (h : f ∈ findings past) :
    ∃ before, before <:+ past ∧ find? f.token.lexeme 0 0 before = some f.site := by
  fun_induction findings past with
  | case1 form token past ih =>
    rcases List.mem_append.1 h with h | h
    · obtain ⟨before, hsuffix, hfind⟩ := ih h
      exact ⟨before, hsuffix.trans (List.suffix_cons _ _), hfind⟩
    · obtain ⟨site, hsite, rfl⟩ := Option.map_eq_some_iff.1 (Option.mem_toList.1 h)
      exact ⟨past, List.suffix_cons _ _, hsite⟩
  | case2 e past _ ih =>
    obtain ⟨before, hsuffix, hfind⟩ := ih h
    exact ⟨before, hsuffix.trans (List.suffix_cons _ _), hfind⟩
  | case3 => cases h

/-! ### Events that leave the scopes as they were -/

/-- Events after which the same scopes are open, with the same declarations in all but the innermost one
and no fewer there. -/
structure Level (es : List Event) : Prop where
  outside (n : Nat) (past : List Event) : outside n (es.reverse ++ past) = outside n past
  declaration (x : String) (n : Nat) (past : List Event) :
    declaration? x (n + 1) (es.reverse ++ past) = declaration? x (n + 1) past
  declared {x : String} {past : List Event} (h : (declaration? x 0 past).isSome = true) :
    (declaration? x 0 (es.reverse ++ past)).isSome = true

namespace Level

theorem nil : Level [] := ⟨fun _ _ => rfl, fun _ _ _ => rfl, fun h => h⟩

theorem append {es' : List Event} (h : Level es) (h' : Level es') : Level (es ++ es') := by
  constructor
  · intro n past
    rw [List.reverse_append, List.append_assoc, h'.outside, h.outside]
  · intro x n past
    rw [List.reverse_append, List.append_assoc, h'.declaration, h.declaration]
  · intro x past hx
    rw [List.reverse_append, List.append_assoc]
    exact h'.declared (h.declared hx)

theorem refers (form : Form) (token : Token) : Level [.refers form token] :=
  ⟨fun _ _ => rfl, fun _ _ _ => rfl, fun h => h⟩

theorem declares (x : String) : Level [.declares x] := by
  refine ⟨fun _ _ => rfl, fun _ _ _ => rfl, fun {y past} h => ?_⟩
  change (if x = y then some past.length else declaration? y 0 past).isSome = true
  split
  · rfl
  · exact h

theorem declaring (names : List Token) : Level (Event.declaring names) := by
  induction names with
  | nil => exact nil
  | cons name names ih => exact (declares name.lexeme).append ih

variable {es : List Event}

theorem reverse_enclosed (es past : List Event) :
    (Event.enclosed es).reverse ++ past = .closes :: (es.reverse ++ .opens :: past) := by
  simp [Event.enclosed]

theorem outside_enclosed (h : Level es) (n : Nat) (past : List Event) :
    Scope.outside n ((Event.enclosed es).reverse ++ past) = Scope.outside n past := by
  rw [reverse_enclosed]
  exact h.outside (n + 1) _

theorem declaration_enclosed (h : Level es) (x : String) (n : Nat) (past : List Event) :
    declaration? x n ((Event.enclosed es).reverse ++ past) = declaration? x n past := by
  rw [reverse_enclosed]
  exact h.declaration x n _

theorem enclosed (h : Level es) : Level (Event.enclosed es) where
  outside := h.outside_enclosed
  declaration x n := h.declaration_enclosed x (n + 1)
  declared hx := by rwa [h.declaration_enclosed]

end Level

end Scope

mutual

theorem Expr.level_events : ∀ e : Expr, Level e.events
  | .gap | .literal _ | .get .. | .set .. | .this .. | .super .. | .inner .. => by
    simp only [Expr.events, Level.nil]
  | .grouping body | .unary _ body => by
    rw [Expr.events]
    exact body.level_events
  | .binary left _ right | .logical left _ right => by
    rw [Expr.events]
    exact left.level_events.append right.level_events
  | .variable name _ => by
    rw [Expr.events]
    exact .refers _ _
  | .assign name _ value => by
    rw [Expr.events]
    exact value.level_events.append (.refers _ _)
  | .call callee _ arguments => by
    rw [Expr.events]
    exact callee.level_events.append (Expr.level_eventsOf arguments)
  | .lambda params body => by
    rw [Expr.events]
    exact ((Level.declaring params).append (Stmt.level_eventsOf body)).enclosed

theorem Expr.level_eventsOf : ∀ es : List Expr, Level (Expr.eventsOf es)
  | [] => by
    rw [Expr.eventsOf]
    exact .nil
  | e :: es => by
    rw [Expr.eventsOf]
    exact e.level_events.append (Expr.level_eventsOf es)

theorem Stmt.level_events : ∀ s : Stmt, Level s.events
  | .gap | .breakStmt _ | .classDecl .. | .returnStmt _ none => by
    simp only [Stmt.events, Level.nil]
  | .bare value | .expression value | .print value | .returnStmt _ (some value) => by
    rw [Stmt.events]
    exact value.level_events
  | .varDecl name none => by
    rw [Stmt.events]
    exact .declares _
  | .varDecl name (some init) => by
    rw [Stmt.events]
    exact (Level.declares _).append init.level_events
  | .block body => by
    rw [Stmt.events]
    exact (Stmt.level_eventsOf body).enclosed
  | .ifStmt condition onTrue none | .whileStmt condition onTrue => by
    rw [Stmt.events]
    exact condition.level_events.append onTrue.level_events
  | .ifStmt condition onTrue (some onFalse) => by
    rw [Stmt.events]
    exact condition.level_events.append (onTrue.level_events.append onFalse.level_events)
  | .funDecl ⟨name, params, body, _, _⟩ => by
    rw [Stmt.events]
    exact (Level.declares _).append ((Level.declaring params).append (Stmt.level_eventsOf body)).enclosed

theorem Stmt.level_eventsOf : ∀ ss : List Stmt, Level (Stmt.eventsOf ss)
  | [] => by
    rw [Stmt.eventsOf]
    exact .nil
  | s :: ss => by
    rw [Stmt.eventsOf]
    exact s.level_events.append (Stmt.level_eventsOf ss)

end

namespace Scope.Indexed

open Resolving Outcome

/-! ### The scopes of the walk -/

/-- The open scopes hold the names that were declared in them, each with the place of its last
declaration among all declarations. -/
inductive Stands (ls : List Nat) : List Event → List (Table Mark) → Prop where
  | global {past : List Event} (h : outside 0 past = none) : Stands ls past []
  | scope {past outer : List Event} {scope : Table Mark} {scopes : List (Table Mark)}
      (h : outside 0 past = some outer)
      (names : ∀ x, Option.Rel (fun mark d => ls[mark.index]? = some d) (scope.get? x)
        (declaration? x 0 past))
      (rest : Stands ls outer scopes) : Stands ls past (scope :: scopes)

/-- The row of a reference has the place of the declaration that the reference means. -/
structure Row.Records (ls : List Nat) (row : Row) (f : Finding) : Prop where
  form : row.form = f.form
  token : row.token = f.token
  depth : row.depth = f.site.depth
  index : ls[row.index]? = some f.site.declaration

/-- The state of the walk after some events. -/
structure Tracks (past : List Event) (r : Resolution) : Prop where
  scopes : Stands (locals past) past r.scopes
  next : r.nextIndex = (locals past).length
  rows : List.Forall₂ (Row.Records (locals past)) r.rows (findings past)

section Stands

variable {ls ls' : List Nat} {past past' : List Event} {scopes : List (Table Mark)}

theorem getElem?_of_prefix (hls : ls <+: ls') {i d : Nat} (h : ls[i]? = some d) : ls'[i]? = some d := by
  obtain ⟨more, rfl⟩ := hls
  obtain ⟨hi, -⟩ := List.getElem?_eq_some_iff.1 h
  rw [List.getElem?_append_left hi, h]

theorem rel_imp {α β : Type} {p q : α → β → Prop} (h : ∀ a b, p a b → q a b) {a? : Option α}
    {b? : Option β} (hr : Option.Rel p a? b?) : Option.Rel q a? b? := by
  cases hr with
  | some hr => exact .some (h _ _ hr)
  | none => exact .none

theorem Stands.mono (hls : ls <+: ls') (h : Stands ls past scopes) : Stands ls' past scopes := by
  induction h with
  | global h => exact .global h
  | scope h names _ ih =>
    exact .scope h (fun x => rel_imp (fun _ _ hi => getElem?_of_prefix hls hi) (names x)) ih

/-- Only the innermost scope and what lies outside it count. -/
theorem Stands.congr (h : Stands ls past scopes) (houtside : outside 0 past' = outside 0 past)
    (hnames : ∀ x, declaration? x 0 past' = declaration? x 0 past) : Stands ls past' scopes := by
  cases h with
  | global h => exact .global (houtside.trans h)
  | scope h names rest =>
    refine .scope (houtside.trans h) (fun x => ?_) rest
    rw [hnames x]
    exact names x

theorem Row.Records.mono (hls : ls <+: ls') {row : Row} {f : Finding} (h : row.Records ls f) :
    row.Records ls' f :=
  ⟨h.form, h.token, h.depth, getElem?_of_prefix hls h.index⟩

theorem Stands.markNearest (h : Stands ls past scopes) (x : String) (depth : Nat) :
    (∃ hops index marked site, markNearest x scopes = some (hops, index, marked) ∧
      Stands ls past marked ∧ find? x 0 depth past = some site ∧ site.depth = depth + hops ∧
      ls[index]? = some site.declaration) ∨
    markNearest x scopes = none ∧ find? x 0 depth past = none := by
  induction h generalizing depth with
  | global h => exact .inr ⟨rfl, find?_of_outside_none h⟩
  | @scope past outer scope scopes h names rest ih =>
    have hnames := names x
    rw [Indexed.markNearest, find?_of_outside h]
    cases hmark : scope.get? x with
    | some mark =>
      rw [hmark] at hnames
      obtain ⟨d, hd, hindex⟩ : ∃ d, declaration? x 0 past = some d ∧ ls[mark.index]? = some d := by
        generalize declaration? x 0 past = d? at hnames
        cases hnames with
        | some hi => exact ⟨_, rfl, hi⟩
      rw [hd]
      refine .inl ⟨0, mark.index, _, _, rfl, .scope h (fun y => ?_) rest, rfl, rfl, hindex⟩
      rw [Table.get?_insert]
      split
      · next hy =>
        rw [hy, hd]
        exact .some hindex
      · exact names y
    | none =>
      rw [hmark] at hnames
      obtain hd : declaration? x 0 past = none := by
        generalize declaration? x 0 past = d? at hnames
        cases hnames
        rfl
      rw [hd]
      rcases ih (depth + 1) with ⟨hops, index, marked, site, hm, hstands, hfind, hdepth, hindex⟩ | ⟨hm, hfind⟩
      · refine .inl ⟨hops + 1, index, scope :: marked, site, by rw [hm]; rfl, .scope h names hstands, hfind, ?_,
          hindex⟩
        rw [hdepth, Nat.add_assoc, Nat.add_comm 1]
      · exact .inr ⟨by rw [hm]; rfl, hfind⟩

end Stands

/-! ### Steps of the walk -/

/-- A step of the walk succeeds and does no more than the given events. -/
def Walks {α : Type} (past es : List Event) (step : Resolving α) : Prop :=
  ∀ r, Tracks past r → ∃ a r', step r = .ok a r' ∧ Tracks (es.reverse ++ past) r'

section Steps

variable {α β : Type} {past es es' : List Event}

variable {step : Resolving α} {next : α → Resolving β}

theorem Walks.pure (a : α) : Walks past [] (pure a) := fun r h => ⟨a, r, rfl, h⟩

theorem Walks.bind (h : Walks past es step) (h' : ∀ a, Walks (es.reverse ++ past) es' (next a)) :
    Walks past (es ++ es') (step >>= next) := by
  intro r hr
  obtain ⟨a, r₁, hstep, hr₁⟩ := h r hr
  obtain ⟨b, r₂, hnext, hr₂⟩ := h' a r₁ hr₁
  refine ⟨b, r₂, (bind_of_ok hstep).trans hnext, ?_⟩
  rwa [List.reverse_append, List.append_assoc]

theorem Walks.before (h : Walks past [] step) (h' : ∀ a, Walks past es (next a)) :
    Walks past es (step >>= next) :=
  h.bind h'

theorem Walks.after (h : Walks past es step) (h' : ∀ a, Walks (es.reverse ++ past) [] (next a)) :
    Walks past es (step >>= next) := by
  have hbind := h.bind h'
  rwa [List.append_nil] at hbind

theorem Walks.map {f : α → β} (h : Walks past es step) :
    Walks past es (step >>= fun a => Pure.pure (f a)) :=
  h.after fun a => .pure (f a)

theorem Walks.modify {f : Resolution → Resolution} (h : ∀ r, Tracks past r → Tracks (es.reverse ++ past) (f r)) :
    Walks past es (modify f) := fun r hr => ⟨(), f r, rfl, h r hr⟩

theorem Walks.get_bind {next : Resolution → Resolving α}
    (h : ∀ r, Tracks past r → ∃ a r', next r r = .ok a r' ∧ Tracks (es.reverse ++ past) r') :
    Walks past es (get >>= next) := h

theorem walks_report (notice : Notice) : Walks past [] (report notice) :=
  .modify fun _ h => ⟨h.scopes, h.next, h.rows⟩

theorem walks_openScope : Walks past [.opens] openScope :=
  .modify fun _ h => ⟨.scope rfl (fun _ => .none) h.scopes, h.next, h.rows⟩

theorem walks_closeScope (he : Level es) :
    Walks (es.reverse ++ .opens :: past) [.closes] closeScope := by
  refine .get_bind fun r h => ?_
  obtain ⟨scopes, inFunction, warns, nextIndex, notices, rows⟩ := r
  have hopen : outside 0 (es.reverse ++ .opens :: past) = some past := he.outside 0 _
  cases h.scopes with
  | global hnone => cases hopen.symm.trans hnone
  | scope houter _ rest =>
    cases hopen.symm.trans houter
    refine ⟨_, _, rfl, ?_, h.next, h.rows⟩
    exact rest.congr (he.outside 1 _) fun x => he.declaration x 0 _

theorem walks_declare (name : Token) : Walks past [.declares name.lexeme] (declare name) := by
  refine .get_bind fun r h => ?_
  obtain ⟨scopes, inFunction, warns, nextIndex, notices, rows⟩ := r
  have hrows : ∀ {ls}, locals past <+: ls →
      List.Forall₂ (Row.Records ls) rows (findings past) := fun hls =>
    h.rows.imp fun _ _ hrow => hrow.mono hls
  cases h.scopes with
  | global hnone =>
    have hlocals : locals (.declares name.lexeme :: past) = locals past := by simp [locals, hnone]
    refine ⟨_, _, rfl, .global hnone, h.next.trans (by simp [hlocals]), ?_⟩
    exact hrows (by simp [hlocals])
  | @scope _ outer scope scopes houter names rest =>
    have hlocals : locals (.declares name.lexeme :: past) = locals past ++ [past.length] := by
      simp [locals, houter]
    have hls : locals past <+: locals (.declares name.lexeme :: past) :=
      hlocals ▸ List.prefix_append _ _
    have hdeclared : ∀ notices, Tracks (.declares name.lexeme :: past)
        ⟨scope.insert name.lexeme ⟨false, false, nextIndex⟩ :: scopes, inFunction, warns, nextIndex + 1,
          notices, rows⟩ := by
      intro notices
      refine ⟨.scope houter (fun x => ?_) (rest.mono hls), ?_, hrows hls⟩
      · change Option.Rel _ _ (if name.lexeme = x then some past.length else declaration? x 0 past)
        rw [Table.get?_insert]
        by_cases hx : x = name.lexeme
        · rw [if_pos hx, if_pos hx.symm]
          refine .some ?_
          rw [hlocals, show nextIndex = (locals past).length from h.next]
          exact List.getElem?_concat_length
        · rw [if_neg hx, if_neg (Ne.symm hx)]
          exact rel_imp (fun _ _ hi => getElem?_of_prefix hls hi) (names x)
      · rw [hlocals, List.length_append]
        exact congrArg (· + 1) h.next
    by_cases hc : scope.contains name.lexeme = true
    · simp only [hc]
      exact ⟨(), _, rfl, hdeclared _⟩
    · simp only [hc]
      exact ⟨(), _, rfl, hdeclared _⟩

/-- The declaration of a name is completed while it is there. -/
theorem walks_define {name : Token}
    (hd : (outside 0 past).isSome = true → (declaration? name.lexeme 0 past).isSome = true) :
    Walks past [] (define name) := by
  refine .get_bind fun r h => ?_
  obtain ⟨scopes, inFunction, warns, nextIndex, notices, rows⟩ := r
  cases h.scopes with
  | global hnone => exact ⟨(), _, rfl, h⟩
  | @scope _ outer scope scopes houter names rest =>
    have hname := names name.lexeme
    obtain ⟨d, hdecl⟩ := Option.isSome_iff_exists.1 (hd (by rw [houter]; rfl))
    rw [hdecl] at hname
    obtain ⟨mark, hmark, hindex⟩ : ∃ mark, scope.get? name.lexeme = some mark ∧
        (locals past)[mark.index]? = some d := by
      generalize scope.get? name.lexeme = mark? at hname
      cases hname with
      | some hi => exact ⟨_, rfl, hi⟩
    simp only [hmark]
    refine ⟨(), _, rfl, .scope houter (fun x => ?_) rest, h.next, h.rows⟩
    change Option.Rel _ _ (declaration? x 0 past)
    rw [Table.get?_insert]
    split
    · next hx =>
      rw [hx, hdecl]
      exact .some hindex
    · exact names x

theorem walks_locate (form : Form) (token : Token) :
    Walks past [.refers form token] (locate form token) := by
  refine .get_bind fun r h => ?_
  rcases h.scopes.markNearest token.lexeme 0 with
    ⟨hops, index, marked, site, hm, hstands, hfind, hdepth, hindex⟩ | ⟨hm, hfind⟩
  · have hfindings : findings (.refers form token :: past) = findings past ++ [⟨form, token, site⟩] := by
      simp [findings, hfind]
    simp only [hm]
    refine ⟨_, _, rfl, hstands.congr rfl fun _ => rfl, h.next, ?_⟩
    change List.Forall₂ (Row.Records (locals past)) _ (findings (.refers form token :: past))
    rw [hfindings]
    refine List.rel_append h.rows (.cons ⟨rfl, rfl, ?_, hindex⟩ .nil)
    exact (hdepth.trans (Nat.zero_add _)).symm
  · have hfindings : findings (.refers form token :: past) = findings past := by simp [findings, hfind]
    simp only [hm]
    refine ⟨_, _, rfl, h.scopes.congr rfl fun _ => rfl, h.next, ?_⟩
    change List.Forall₂ (Row.Records (locals past)) _ (findings (.refers form token :: past))
    rw [hfindings]
    exact h.rows

theorem walks_locateRead (name : Token) : Walks past [.refers .variable name] (locateRead name) := by
  refine .get_bind fun r h => ?_
  have hlocate : Walks past _ (locate .variable name) := walks_locate .variable name
  cases r.scopes with
  | nil => exact hlocate r h
  | cons scope outer =>
    by_cases hp : ((scope.get? name.lexeme).any fun mark => !mark.defined) = true
    · simp only [hp]
      exact ((walks_report _).before fun _ => hlocate) r h
    · simp only [hp]
      exact hlocate r h

theorem walks_checkReturn (keyword : Token) : Walks past [] (checkReturn keyword) := by
  refine .get_bind fun r h => ?_
  by_cases hf : r.inFunction = true
  · simp only [hf]
    exact ⟨(), r, rfl, h⟩
  · simp only [hf]
    exact walks_report _ r h

/-- A name is declared right after its declaration. -/
theorem isSome_declaration? (x : String) (past : List Event) :
    (declaration? x 0 (.declares x :: past)).isSome = true := by
  rw [declaration?, if_pos rfl]
  rfl

theorem walks_introduce (names : List Token) : Walks past (Event.declaring names) (introduce names) := by
  induction names generalizing past with
  | nil => exact .pure ()
  | cons name names ih =>
    have hnext : Walks (.declares name.lexeme :: past) (Event.declaring names) (do
        define name
        introduce names) :=
      (walks_define fun _ => isSome_declaration? name.lexeme past).before fun _ => ih
    exact (walks_declare name).bind fun _ => hnext

theorem walks_inBlock {body : Resolving α} (he : Level es) (hb : ∀ past, Walks past es body) :
    Walks past (Event.enclosed es) (inBlock body) :=
  walks_openScope.bind fun _ => (hb _).bind fun _ => (walks_closeScope he).map

theorem walks_inFunction {body : Resolving α} (params : List Token) (he : Level es)
    (hb : ∀ past, Walks past es body) :
    Walks past (Event.enclosed (Event.declaring params ++ es)) (Resolving.inFunction params body) := by
  have hregister : ∀ (past : List Event) (b : Bool),
      Walks past [] (modify fun r : Resolution => { r with inFunction := b }) :=
    fun _ _ => .modify fun _ h => ⟨h.scopes, h.next, h.rows⟩
  have hclose : Walks (es.reverse ++ ((Event.declaring params).reverse ++ .opens :: past)) [.closes]
      closeScope := by
    rw [← List.append_assoc, ← List.reverse_append]
    exact walks_closeScope ((Level.declaring params).append he)
  have hevents : Event.enclosed (Event.declaring params ++ es) =
      [.opens] ++ (Event.declaring params ++ (es ++ [.closes])) := by simp [Event.enclosed]
  rw [hevents]
  refine .get_bind fun r h => ?_
  refine ((hregister past true).before fun _ => ?_) r h
  exact walks_openScope.bind fun _ => (walks_introduce params).bind fun _ => (hb _).bind fun _ =>
    hclose.after fun _ => (hregister _ _).map

end Steps

end Scope.Indexed

open Scope.Indexed

mutual

/-- The walk over an expression does what its events say. -/
theorem Expr.walks_resolveIndexed : ∀ e : Expr, e.all Node.isPositional = true →
    e.all Node.isPresent = true → ∀ past, Walks past e.events e.resolveIndexed
  | .gap, _, hp, _ => by simp [Expr.all, Node.isPresent] at hp
  | .literal value, _, _, _ => by
    simp only [Expr.events, Expr.resolveIndexed]
    exact .pure _
  | .grouping body, h, hp, past | .unary _ body, h, hp, past => by
    simp only [Expr.all, Bool.and_eq_true] at h hp
    simp only [Expr.events, Expr.resolveIndexed]
    exact (body.walks_resolveIndexed h.2 hp.2 past).map
  | .binary left _ right, h, hp, past | .logical left _ right, h, hp, past => by
    simp only [Expr.all, Bool.and_eq_true] at h hp
    simp only [Expr.events, Expr.resolveIndexed]
    exact (left.walks_resolveIndexed h.2.1 hp.2.1 past).bind fun _ =>
      (right.walks_resolveIndexed h.2.2 hp.2.2 _).map
  | .variable name _, _, _, past => by
    simp only [Expr.events, Expr.resolveIndexed]
    exact (walks_locateRead name).map
  | .assign name _ value, h, hp, past => by
    simp only [Expr.all, Bool.and_eq_true] at h hp
    simp only [Expr.events, Expr.resolveIndexed]
    exact (value.walks_resolveIndexed h.2 hp.2 past).bind fun _ => (walks_locate .assign name).map
  | .call callee _ arguments, h, hp, past => by
    simp only [Expr.all, Bool.and_eq_true] at h hp
    simp only [Expr.events, Expr.resolveIndexed]
    exact (callee.walks_resolveIndexed h.2.1 hp.2.1 past).bind fun _ =>
      (Expr.walks_resolveAllIndexed arguments h.2.2 hp.2.2 _).map
  | .lambda params body, h, hp, past => by
    simp only [Expr.all, Bool.and_eq_true] at h hp
    simp only [Expr.events, Expr.resolveIndexed]
    exact (walks_inFunction params (Stmt.level_eventsOf body)
      (Stmt.walks_resolveAllIndexed body h.2 hp.2)).map
  | .get .., h, _, _ | .set .., h, _, _ => by simp [Expr.all, Node.isPositional] at h
  | .this .., h, _, _ | .super .., h, _, _ | .inner .., h, _, _ => by
    simp [Expr.all, Node.isPositional] at h

theorem Expr.walks_resolveAllIndexed : ∀ es : List Expr, Expr.allOf Node.isPositional es = true →
    Expr.allOf Node.isPresent es = true → ∀ past, Walks past (Expr.eventsOf es) (Expr.resolveAllIndexed es)
  | [], _, _, _ => by
    simp only [Expr.eventsOf, Expr.resolveAllIndexed]
    exact .pure _
  | e :: es, h, hp, past => by
    simp only [Expr.allOf, Bool.and_eq_true] at h hp
    simp only [Expr.eventsOf, Expr.resolveAllIndexed]
    exact (e.walks_resolveIndexed h.1 hp.1 past).bind fun _ =>
      (Expr.walks_resolveAllIndexed es h.2 hp.2 _).map

/-- The walk over a statement does what its events say. -/
theorem Stmt.walks_resolveIndexed : ∀ s : Stmt, s.all Node.isPositional = true →
    s.all Node.isPresent = true → ∀ past, Walks past s.events s.resolveIndexed
  | .gap, _, hp, _ => by simp [Stmt.all, Node.isPresent] at hp
  | .bare value, h, hp, past | .expression value, h, hp, past | .print value, h, hp, past => by
    simp only [Stmt.all, Bool.and_eq_true] at h hp
    simp only [Stmt.events, Stmt.resolveIndexed]
    exact (value.walks_resolveIndexed h.2 hp.2 past).map
  | .varDecl name none, _, _, past => by
    simp only [Stmt.events, Stmt.resolveIndexed]
    exact (walks_declare name).after fun _ => (walks_define fun _ => isSome_declaration? _ _).map
  | .varDecl name (some init), h, hp, past => by
    simp only [Stmt.all, Bool.and_eq_true] at h hp
    simp only [Stmt.events, Stmt.resolveIndexed]
    refine (walks_declare name).bind fun _ => (init.walks_resolveIndexed h.2 hp.2 _).after fun _ => ?_
    -- whatever the initializer declares, the variable is still there
    exact (walks_define fun _ => init.level_events.declared (isSome_declaration? _ _)).map
  | .block body, h, hp, past => by
    simp only [Stmt.all, Bool.and_eq_true] at h hp
    simp only [Stmt.events, Stmt.resolveIndexed]
    exact (walks_inBlock (Stmt.level_eventsOf body) (Stmt.walks_resolveAllIndexed body h.2 hp.2)).map
  | .ifStmt condition onTrue none, h, hp, past | .whileStmt condition onTrue, h, hp, past => by
    simp only [Stmt.all, Bool.and_eq_true] at h hp
    simp only [Stmt.events, Stmt.resolveIndexed]
    exact (condition.walks_resolveIndexed h.2.1 hp.2.1 past).bind fun _ =>
      (onTrue.walks_resolveIndexed h.2.2 hp.2.2 _).map
  | .ifStmt condition onTrue (some onFalse), h, hp, past => by
    simp only [Stmt.all, Bool.and_eq_true] at h hp
    simp only [Stmt.events, Stmt.resolveIndexed]
    exact (condition.walks_resolveIndexed h.2.1 hp.2.1 past).bind fun _ =>
      (onTrue.walks_resolveIndexed h.2.2.1 hp.2.2.1 _).bind fun _ =>
        (onFalse.walks_resolveIndexed h.2.2.2 hp.2.2.2 _).map
  | .breakStmt _, _, _, _ => by
    simp only [Stmt.events, Stmt.resolveIndexed]
    exact .pure _
  | .funDecl ⟨name, params, body, _, _⟩, h, hp, past => by
    simp only [Stmt.all, Function.all, Bool.and_eq_true] at h hp
    simp only [Stmt.events, Stmt.resolveIndexed]
    refine (walks_declare name).bind fun _ => ?_
    refine (walks_define fun _ => isSome_declaration? _ _).before fun _ => ?_
    exact (walks_inFunction params (Stmt.level_eventsOf body)
      (Stmt.walks_resolveAllIndexed body h.2 hp.2)).map
  | .classDecl .., h, _, _ => by simp [Stmt.all, Node.isPositional] at h
  | .returnStmt keyword none, _, _, past => by
    simp only [Stmt.events, Stmt.resolveIndexed]
    exact (walks_checkReturn keyword).map
  | .returnStmt keyword (some value), h, hp, past => by
    simp only [Stmt.all, Bool.and_eq_true] at h hp
    simp only [Stmt.events, Stmt.resolveIndexed]
    exact (walks_checkReturn keyword).before fun _ => (value.walks_resolveIndexed h.2 hp.2 _).map

theorem Stmt.walks_resolveAllIndexed : ∀ ss : List Stmt, Stmt.allOf Node.isPositional ss = true →
    Stmt.allOf Node.isPresent ss = true → ∀ past, Walks past (Stmt.eventsOf ss) (Stmt.resolveAllIndexed ss)
  | [], _, _, _ => by
    simp only [Stmt.eventsOf, Stmt.resolveAllIndexed]
    exact .pure _
  | s :: ss, h, hp, past => by
    simp only [Stmt.allOf, Bool.and_eq_true] at h hp
    simp only [Stmt.eventsOf, Stmt.resolveAllIndexed]
    exact (s.walks_resolveIndexed h.1 hp.1 past).bind fun _ =>
      (Stmt.walks_resolveAllIndexed ss h.2 hp.2 _).map

end

/-- What has happened when the walk over a program is at its end, latest first. -/
def Stmt.past (program : List Stmt) : List Event := (Stmt.eventsOf program).reverse

namespace Scope.Indexed

theorem Tracks.start (warns : Bool) : Tracks [] (.start warns) := ⟨.global rfl, rfl, .nil⟩

/-- Walking over a program from the start succeeds. -/
theorem exists_tracks (warns : Bool) {program : List Stmt}
    (h : Stmt.allOf Node.isPositional program = true) (hp : Stmt.allOf Node.isPresent program = true) :
    ∃ resolved r, resolve warns program = ⟨.ok resolved, r⟩ ∧ Tracks (Stmt.past program) r := by
  obtain ⟨resolved, r, hr, ht⟩ :=
    Stmt.walks_resolveAllIndexed program h hp [] (.start warns) (.start warns)
  rw [List.append_nil] at ht
  refine ⟨resolved, r, ?_, ht⟩
  rw [resolve, resolveFrom, hr]

section Rows

variable {past : List Event} {r : Resolution} (h : Tracks past r)

variable {row : Row}

include h

theorem Tracks.records {i : Nat} {f : Finding} (hrow : r.rows[i]? = some row)
    (hf : (findings past)[i]? = some f) : row.Records (locals past) f := by
  obtain ⟨hi, rfl⟩ := List.getElem?_eq_some_iff.1 hrow
  obtain ⟨hi', rfl⟩ := List.getElem?_eq_some_iff.1 hf
  exact h.rows.get hi hi'

theorem Tracks.index_lt (hrow : row ∈ r.rows) : row.index < r.nextIndex := by
  obtain ⟨i, hi⟩ := List.mem_iff_getElem?.1 hrow
  obtain ⟨hlt, -⟩ := List.getElem?_eq_some_iff.1 hi
  rw [h.rows.length_eq] at hlt
  obtain ⟨hplace, -⟩ :=
    List.getElem?_eq_some_iff.1 (h.records hi (List.getElem?_eq_getElem hlt)).index
  rwa [h.next]

theorem Tracks.index_eq_iff {i j : Nat} {row' : Row} {f f' : Finding} (hrow : r.rows[i]? = some row)
    (hf : (findings past)[i]? = some f)
    (hrow' : r.rows[j]? = some row') (hf' : (findings past)[j]? = some f') :
    row.index = row'.index ↔
      f.site.scope = f'.site.scope ∧ f.site.declaration = f'.site.declaration := by
  have hindex := (h.records hrow hf).index
  have hindex' := (h.records hrow' hf').index
  constructor
  · intro heq
    have hd : f.site.declaration = f'.site.declaration := by
      rw [heq] at hindex
      exact Option.some.inj (hindex.symm.trans hindex')
    obtain ⟨before, hsuffix, hfind⟩ := exists_find?_of_mem_findings (List.mem_of_getElem? hf)
    obtain ⟨before', hsuffix', hfind'⟩ := exists_find?_of_mem_findings (List.mem_of_getElem? hf')
    exact ⟨scope_eq_of_declaration_eq hsuffix hsuffix' hfind hfind' hd, hd⟩
  · rintro ⟨-, hd⟩
    obtain ⟨hlt, -⟩ := List.getElem?_eq_some_iff.1 hindex
    refine (List.getElem?_inj hlt (nodup_locals past)).1 ?_
    rw [hindex, hindex', hd]

end Rows

/-- Positions identify declarations. A program without classes, properties and receivers is resolved;
afterwards as many positions have been given as there are declarations in scopes. There is a row for
each reference that means one of them, with the depth of its scope and the place of the declaration among
all of them as its position; so the position of a row has been given, and two rows have one position if
and only if their references mean the same declaration in the same scope. -/
theorem positions_identify_declarations (warns : Bool) {program : List Stmt}
    (h : Stmt.allOf Node.isPositional program = true) (hp : Stmt.allOf Node.isPresent program = true) :
    ∃ resolved r, resolve warns program = ⟨.ok resolved, r⟩ ∧
      r.nextIndex = (locals (Stmt.past program)).length ∧
      (locals (Stmt.past program)).Nodup ∧
      List.Forall₂ (Row.Records (locals (Stmt.past program))) r.rows (findings (Stmt.past program)) ∧
      (∀ row ∈ r.rows, row.index < r.nextIndex) ∧
      ∀ (i j : Nat) (row row' : Row) (f f' : Finding),
        r.rows[i]? = some row → (findings (Stmt.past program))[i]? = some f →
        r.rows[j]? = some row' → (findings (Stmt.past program))[j]? = some f' →
        (row.index = row'.index ↔
          f.site.scope = f'.site.scope ∧ f.site.declaration = f'.site.declaration) := by
  obtain ⟨resolved, r, hr, ht⟩ := exists_tracks warns h hp
  exact ⟨resolved, r, hr, ht.next, nodup_locals _, ht.rows, fun row => ht.index_lt,
    fun i j row row' f f' => ht.index_eq_iff⟩

private def readA : Stmt := .expression (.variable (.ident "a" 1) .free)

/-- A block reads its variable, a block in it has one of the same name, and the outer one is declared
again at the end. -/
private def shadowing : List Stmt :=
  [.block [.varDecl (.ident "a" 1) none, readA, .block [.varDecl (.ident "a" 1) none, readA], readA,
    .varDecl (.ident "a" 1) none, readA]]

/-- The variable of the inner block has a position of its own, and so has the second declaration. -/
theorem positions_identify_declarations_shadowing :
    ∃ resolved r x inner y again, resolve true shadowing = ⟨.ok resolved, r⟩ ∧ r.nextIndex = 3 ∧
      r.rows = [x, inner, y, again] ∧ x.index = y.index ∧ x.index ≠ inner.index ∧
      x.index ≠ again.index ∧ inner.index ≠ again.index := by
  obtain ⟨resolved, r, hr, hnext, -, hrows, -, hiff⟩ :=
    positions_identify_declarations true
      (show Stmt.allOf Node.isPositional shadowing = true by decide) (by decide)
  have hfindings : findings (Stmt.past shadowing) =
      [⟨.variable, .ident "a" 1, ⟨0, 0, 1⟩⟩, ⟨.variable, .ident "a" 1, ⟨0, 3, 4⟩⟩,
        ⟨.variable, .ident "a" 1, ⟨0, 0, 1⟩⟩, ⟨.variable, .ident "a" 1, ⟨0, 0, 8⟩⟩] := by decide
  rw [hfindings] at hrows hiff
  obtain ⟨x, _, -, hrows₁, hx⟩ := List.forall₂_cons_right_iff.1 hrows
  obtain ⟨inner, _, -, hrows₂, rfl⟩ := List.forall₂_cons_right_iff.1 hrows₁
  obtain ⟨y, _, -, hrows₃, rfl⟩ := List.forall₂_cons_right_iff.1 hrows₂
  obtain ⟨again, _, -, hrows₄, rfl⟩ := List.forall₂_cons_right_iff.1 hrows₃
  obtain rfl := List.forall₂_nil_right_iff.1 hrows₄
  rw [hx] at hiff
  refine ⟨resolved, r, x, inner, y, again, hr, hnext, hx, ?_, ?_, ?_, ?_⟩
  · exact (hiff 0 2 x y _ _ rfl rfl rfl rfl).2 ⟨rfl, rfl⟩
  · exact fun heq => absurd ((hiff 0 1 x inner _ _ rfl rfl rfl rfl).1 heq) (by decide)
  · exact fun heq => absurd ((hiff 0 3 x again _ _ rfl rfl rfl rfl).1 heq) (by decide)
  · exact fun heq => absurd ((hiff 1 3 inner again _ _ rfl rfl rfl rfl).1 heq) (by decide)

end Scope.Indexed

end Lox
