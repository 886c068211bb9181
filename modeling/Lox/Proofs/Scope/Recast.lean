import Lox.Proofs.Machine.Recast
import Lox.Proofs.Scope.Simulate

/-!
# Resolving on other lines

Resolving looks neither at the lines of tokens nor at what has been reported before. So a tree with
other lines is resolved in the same way, and its notices and references follow those before them. With
warnings off, the unused names are missing from the notices and nothing else changes.
-/

namespace Lox

open Scope

def Scope.Notice.relined (f : Nat → Nat) : Notice → Notice
  | .flawed token flaw => .flawed (token.relined f) flaw
  | .unused name => .unused name

/-- A notice is about something wrong, and no warning. -/
def Scope.Notice.isFlaw : Notice → Bool
  | .flawed .. => true
  | .unused _ => false

/-- A reference with its line changed. -/
def Scope.Row.relined (f : Nat → Nat) (row : Row) : Row := { row with token := row.token.relined f }

/-- The notices that are left with warnings off or on. -/
def Scope.Notice.kept (quiet : Bool) (notices : List Notice) : List Notice :=
  if quiet then notices.filter Notice.isFlaw else notices

/-- What is changed: the lines, whether there are warnings, and the notices and references, which some
others come before. -/
structure Scope.Recasting where
  line : Nat → Nat
  quiet : Bool
  notices : List Notice
  rows : List Row

namespace Scope.Account

def recast (c : Recasting) (a : Account) : Account where
  warns := a.warns && !c.quiet
  notices := c.notices ++ (Notice.kept c.quiet a.notices).map (Notice.relined c.line)
  rows := c.rows ++ a.rows.map (Row.relined c.line)

variable (c : Recasting)

theorem recast_reported (a : Account) (t : Token) (flaw : Flaw) :
    recast c { a with notices := a.notices ++ [.flawed t flaw] } = { a.recast c with
      notices := (a.recast c).notices ++ [.flawed (t.relined c.line) flaw] } := by
  cases hq : c.quiet <;>
    simp [recast, Notice.kept, List.filter_cons, Notice.isFlaw, Notice.relined, hq]

theorem recast_listed (a : Account) (row : Row) :
    recast c { a with rows := a.rows ++ [row] } = { a.recast c with
      rows := (a.recast c).rows ++ [row.relined c.line] } := by
  simp [recast]

theorem recast_close (a : Account) (scope : Table Mark) :
    (a.close scope).recast c = (a.recast c).close scope := by
  have hunused : (Resolving.unusedIn scope).map (Notice.relined c.line) = Resolving.unusedIn scope := by
    simp [Resolving.unusedIn, Notice.relined]
  have hflaws : (Resolving.unusedIn scope).filter Notice.isFlaw = [] := by
    simp [Resolving.unusedIn, List.filter_map, Notice.isFlaw]
  cases hw : a.warns <;> cases hq : c.quiet <;>
    simp [recast, close, Notice.kept, hunused, hflaws, hw, hq]

end Scope.Account

def Scope.Recasting.accord (c : Recasting) : Accord fun t t' => t' = t.relined c.line where
  lexeme h := h ▸ rfl
  holds a a' := a' = a.recast c
  reported flaw ht ha := ht ▸ ha ▸ (Account.recast_reported c _ _ flaw).symm
  listed form depth ht ha := ht ▸ ha ▸ (Account.recast_listed c _ ⟨form, _, depth⟩).symm
  closed scope ha := ha ▸ (Account.recast_close c _ scope).symm

theorem Comparison.function_of_like {line : Nat → Nat} {d d' : Function}
    (h : Function.Like (fun t t' => t' = t.relined line) (fun s s' => s' = s.relined line) d d') :
    d' = d.relined line := by
  obtain ⟨isStatic, isGetter, rfl, hps, hss⟩ := h
  obtain rfl := forall₂_graph.1 hps
  obtain rfl := forall₂_graph.1 hss
  rw [Function.relined, stmts_relined]

theorem Comparison.functions_of_like {line : Nat → Nat} {ds ds' : List Function}
    (h : List.Forall₂ (Function.Like (fun t t' => t' = t.relined line) fun s s' => s' = s.relined line)
      ds ds') : ds' = Function.relinedAll line ds := by
  induction h with
  | nil => rfl
  | cons hd _ ih => rw [function_of_like hd, ih, Function.relinedAll]

theorem Comparison.relining_closed {line : Nat → Nat} {aside : Bool → Array Line → Bool → Array Line → Prop}
    {spared : Exit → Prop} (hspared : ∀ e, spared e → e.IsFinal) :
    (relining line aside spared).Closed where
  expr := by
    refine ⟨(relining_lawful hspared).expr, fun h => ?_⟩
    unfold relining at h ⊢
    cases h with
    | call hf ht has =>
      obtain rfl := forall₂_graph.1 has
      subst_vars
      exact congrArg _ (exprs_relined _).symm
    | lambda hps hss =>
      obtain rfl := forall₂_graph.1 hps
      obtain rfl := forall₂_graph.1 hss
      exact congrArg _ (stmts_relined _).symm
    | _ => subst_vars; rfl
  stmt := by
    refine ⟨(relining_lawful hspared).stmt, fun h => ?_⟩
    unfold relining at h ⊢
    cases h with
    | varDecl ht hi => cases hi <;> subst_vars <;> rfl
    | block hss =>
      obtain rfl := forall₂_graph.1 hss
      exact congrArg _ (stmts_relined _).symm
    | ifStmt he hs ho => cases ho <;> subst_vars <;> rfl
    | funDecl hd => exact congrArg _ (function_of_like hd)
    | classDecl ht hp hds =>
      obtain rfl := functions_of_like hds
      cases hp with
      | none => exact ht ▸ rfl
      | @some p p' hp =>
        obtain rfl : p' = (p.1.relined line, p.2) := Prod.ext hp.1 hp.2
        exact ht ▸ rfl
    | returnStmt ht hv => cases hv <;> subst_vars <;> rfl
    | unnamed hu => exact hu.elim
    | _ => subst_vars; rfl

/-- Statements on other lines are resolved to the same statements on other lines. -/
theorem Stmt.ends_relined (c : Scope.Recasting) (ss : List Stmt) {r r' : Resolution}
    (hr : r.Like c.accord [] r') :
    Resolving.Ends c.accord [] (fun ss ss' => ss' = Stmt.relinedAll c.line ss) (Stmt.resolveAll ss r)
      (Stmt.resolveAll (Stmt.relinedAll c.line ss) r') := by
  have hc : (Comparison.relining c.line (fun _ _ _ _ => True) fun _ => False).Closed :=
    Comparison.relining_closed fun _ => False.elim
  have hagrees : Resolving.Agrees c.accord _ (Stmt.resolveAll ss)
      (Stmt.resolveAll (Stmt.relinedAll c.line ss)) :=
    Stmt.agrees_resolveAll hc ss (forall₂_graph.2 (Comparison.stmts_relined ss))
  have hends := hagrees [] rfl r r' hr
  generalize Stmt.resolveAll ss r = o at hends ⊢
  generalize Stmt.resolveAll (Stmt.relinedAll c.line ss) r' = o' at hends ⊢
  cases hends with
  | ok hv hr' => exact .ok ((forall₂_graph.1 hv).trans (Comparison.stmts_relined _).symm) hr'
  | error d ha => exact .error d ha

/-! ### Warnings off -/

theorem Scope.Notice.relined_id : Notice.relined id = id := by
  funext notice
  cases notice <;> rfl

theorem Scope.resolve_quiet (ss : List Stmt) :
    (resolve false ss).statements = (resolve true ss).statements ∧
      (resolve false ss).reached.rows = (resolve true ss).reached.rows ∧
      (resolve false ss).reached.notices = (resolve true ss).reached.notices.filter Notice.isFlaw := by
  have hlike : (Resolution.start true).Like (Recasting.accord ⟨id, true, [], []⟩) [] (.start false) :=
    ⟨.nil _, rfl, rfl, rfl⟩
  have hquiet := Stmt.ends_relined _ ss hlike
  have hreached : ∀ {r r' : Resolution}, r'.account = r.account.recast ⟨id, true, [], []⟩ →
      r'.rows = r.rows ∧ r'.notices = r.notices.filter Notice.isFlaw := by
    intro r r' h
    have hrows : Row.relined id = id := rfl
    simp only [Resolution.account, Account.recast, Notice.kept, Notice.relined_id, hrows, List.map_id,
      List.nil_append, Account.mk.injEq] at h
    exact ⟨h.2.2, h.2.1⟩
  rw [Stmt.relinedAll_id] at hquiet
  unfold resolve
  generalize Stmt.resolveAll ss (.start true) = o at hquiet ⊢
  generalize Stmt.resolveAll ss (.start false) = o' at hquiet ⊢
  cases hquiet with
  | ok hv hr => exact ⟨congrArg Except.ok (hv.trans (Stmt.relinedAll_id _)), hreached hr.account⟩
  | error d ha => exact ⟨rfl, hreached ha⟩

end Lox
