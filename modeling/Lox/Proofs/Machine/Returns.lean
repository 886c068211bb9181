import Lox.Proofs.Machine.Unwinding
import Lox.Proofs.Scope.Walk
import Lox.Proofs.Session.Run

/-!
# Where a return ends

A return statement unwinds to the call of the function that it stands in. Evaluating an expression
never ends with a return, since every place that runs a body takes its return as the value.
-/

namespace Lox

open Eval Outcome

/-- A computation never ends with a return. -/
def Run.Returnless {α : Type} (x : Run α) : Prop :=
  ∀ m v m', x m ≠ .error (.returned v) m'

namespace Run.Returnless

variable {α β : Type} {x : Run α} {f : α → Run β}

theorem of_ok (h : ∀ m, ∃ a m', x m = .ok a m') : Returnless x := by
  intro m v m' hx
  obtain ⟨a, m₁, ha⟩ := h m
  rw [ha] at hx
  cases hx

theorem pure (a : α) : Returnless (pure a : Run α) := of_ok fun m => ⟨a, m, rfl⟩

theorem fail (token : Token) (fault : Fault) : Returnless (Run.fail token fault : Run α) := by
  intro m v m' h
  cases h

theorem ofExcept (r : Except Defect α) : Returnless (Run.ofExcept r) := by
  cases r with
  | ok a => exact .pure a
  | error defect =>
    intro m v m' h
    cases h

theorem bind (hx : Returnless x) (hf : ∀ a, Returnless (f a)) : Returnless (x >>= f) := by
  intro m v m' h
  rcases bind_eq_error.1 h with h | ⟨a, m₁, -, h⟩
  · exact hx m v m' h
  · exact hf a m₁ v m' h

theorem catchReturn (x : Run Value) : Returnless (Run.catchReturn x) := by
  intro m v m' h
  unfold Run.catchReturn at h
  split at h
  · cases h
  · next hr => exact hr v m' h

end Run.Returnless

open Run (Returnless)

namespace Eval

/-! ### Expressions -/

theorem returnless_callChecked (rec : Recur) (paren : Token) (callee : Value) (args : List Value) :
    Returnless (callChecked rec paren callee args) := by
  unfold callChecked
  cases arity? callee with
  | none => exact .fail paren _
  | some arity =>
    dsimp only
    split
    · exact (Returnless.fail paren _).bind fun _ => .catchReturn _
    · exact .catchReturn _

theorem returnless_getProperty (rec : Recur) (object : Value) (name : Token) :
    Returnless (getProperty rec object name) := by
  have hbind : ∀ f this, Returnless (bindReceiver f this) := fun _ _ => .of_ok fun _ => ⟨_, _, rfl⟩
  have hfield : ∀ o, Returnless (Run.field? o name.lexeme) := fun _ => .of_ok fun _ => ⟨_, _, rfl⟩
  have hfresh : Returnless Run.fresh := .of_ok fun _ => ⟨_, _, rfl⟩
  unfold getProperty
  split
  · split
    · exact .pure _
    · exact .fail name _
  · refine (hfield _).bind fun value? => ?_
    split
    · exact .pure _
    · split
      · exact .fail name _
      · split
        · refine (hbind _ _).bind fun bound => ?_
          split
          · exact .catchReturn _
          · exact .pure _
        · exact hfresh.bind fun _ => .pure _
  · exact .fail name _

/-- No expression ends with a return, whatever it calls. -/
theorem returnless_expr (depth : Nat) (e : Expr) : Returnless (run depth (.expr e)) := by
  induction depth generalizing e with
  | zero =>
    intro m v m' h
    cases h
  | succ depth ih =>
    intro m v m' h
    obtain hraises | ⟨n, m₁, m₂, hr, hn⟩ := traced_expr e _ m' h
    · cases hraises with
      | returned he => cases he
      | other hother => cases hother
    · cases n with
      | expr x => exact ih x m₁ v m₂ hn
      | stmt t =>
        -- only a call comes to a statement, and it takes the return
        have hargs : ∀ es, Returnless (evalAll (run depth) es) := by
          intro es
          induction es with
          | nil => exact .pure _
          | cons e es hes => exact (ih e).bind fun _ => hes.bind fun _ => .pure _
        cases hr with
        | call ha =>
          cases e with
          | call callee paren arguments =>
            exact ((ih callee).bind fun _ => (hargs arguments).bind fun _ =>
              returnless_callChecked _ paren _ _) m v m' h
          | get object name =>
            exact ((ih object).bind fun _ => returnless_getProperty _ _ name) m v m' h
          | _ =>
            cases ha with
            | method hb => cases hb

/-! ### Statements -/

/-- Running a statement comes to running another one of the same activation: from a statement only
blocks, branches and rounds of a loop lead to a statement, calls do not. -/
inductive Executes : Nat → Stmt → Machine → Nat → Stmt → Machine → Prop where
  | here {depth : Nat} {s : Stmt} {m : Machine} : Executes depth s m depth s m
  | inside {depth depth' : Nat} {s t u : Stmt} {m m₁ m' : Machine}
      (hr : Reaches depth (.stmt s) m (.stmt t) m₁) (h : Executes depth t m₁ depth' u m') :
      Executes (depth + 1) s m depth' u m'

/-- The value that a return statement hands over, if it is executed in the given machine. -/
def Hands (depth : Nat) (value? : Option Expr) (m : Machine) (v : Value) : Prop :=
  match value? with
  | none => v = .nil
  | some e => ∃ m', run depth (.expr e) m = .ok v m'

/-- A return statement of the same activation is executed, and it hands over the given value. -/
def Returns (depth : Nat) (s : Stmt) (m : Machine) (v : Value) : Prop :=
  ∃ depth' keyword value? m', Executes depth s m (depth' + 1) (.returnStmt keyword value?) m' ∧
    Hands depth' value? m' v

theorem Returns.inside {depth : Nat} {s t : Stmt} {m m₁ : Machine} {v : Value}
    (hr : Reaches depth (.stmt s) m (.stmt t) m₁) (h : Returns depth t m₁ v) :
    Returns (depth + 1) s m v := by
  obtain ⟨depth', keyword, value?, m', he, hv⟩ := h
  exact ⟨depth', keyword, value?, m', .inside hr he, hv⟩

theorem returns_of_returned {depth : Nat} {s : Stmt} {m m' : Machine} {v : Value}
    (h : run depth (.stmt s) m = .error (.returned v) m') : Returns depth s m v := by
  induction depth generalizing s m m' with
  | zero => cases h
  | succ depth ih =>
    have hexpr : ∀ x m₁, Reaches depth (.stmt s) m (.expr x) m₁ →
        (run depth (.expr x)).AvoidsAt (· = .returned v) m₁ := by
      rintro x m₁ - e m₂ hx rfl
      exact returnless_expr depth x m₁ v m₂ hx
    obtain ⟨keyword, rfl, he⟩ | ⟨keyword, value?, u, rfl, -⟩ | ⟨-, t, m₁, m₂, hr, ht⟩ :=
      exists_reaches_of_unwinds (.inr ⟨v, rfl⟩) hexpr h
    · cases he
    · refine ⟨depth, keyword, value?, m, .here, ?_⟩
      cases value? with
      | none =>
        cases h
        rfl
      | some value =>
        rcases bind_eq_error.1 h with h | ⟨u, m₁, hu, h⟩
        · exact absurd h (returnless_expr depth value m v m')
        · cases h
          exact ⟨_, hu⟩
    · exact (ih ht).inside hr

end Eval

/-! ### Programs -/

mutual

/-- Whether a return statement stands in a statement, outside all functions in it. -/
def Stmt.returns : Stmt → Bool
  | .block body => Stmt.anyReturns body
  | .ifStmt _ onTrue none => onTrue.returns
  | .ifStmt _ onTrue (some onFalse) => onTrue.returns || onFalse.returns
  | .whileStmt _ body => body.returns
  | .returnStmt .. => true
  | _ => false

/-- Whether a return statement stands in one of some statements, outside all functions. -/
def Stmt.anyReturns : List Stmt → Bool
  | [] => false
  | s :: ss => s.returns || Stmt.anyReturns ss

end

theorem Stmt.anyReturns_append (ss ts : List Stmt) :
    Stmt.anyReturns (ss ++ ts) = (Stmt.anyReturns ss || Stmt.anyReturns ts) := by
  induction ss with
  | nil => rfl
  | cons s ss ih => simp only [List.cons_append, Stmt.anyReturns, ih, Bool.or_assoc]

theorem Eval.Reaches.returns {depth : Nat} {s t : Stmt} {m m' : Machine}
    (h : Reaches depth (.stmt s) m (.stmt t) m') (ht : t.returns = true) : s.returns = true := by
  cases h with
  | @onTrue condition _ onFalse? =>
    cases onFalse? with
    | none => exact ht
    | some onFalse => exact Bool.or_eq_true_iff.2 (.inl ht)
  | onFalse => exact Bool.or_eq_true_iff.2 (.inr ht)
  | loopBody => exact ht
  | block hb =>
    simp only [Stmt.returns, hb, Stmt.anyReturns_append, Stmt.anyReturns, ht, Bool.true_or,
      Bool.or_true]
  | call ha =>
    -- Only expressions apply functions.
    cases ha with
    | method hb => cases hb

theorem Eval.Executes.returns {depth depth' : Nat} {s t : Stmt} {m m' : Machine}
    (h : Executes depth s m depth' t m') (ht : t.returns = true) : s.returns = true := by
  induction h with
  | here => exact ht
  | inside hr _ ih => exact hr.returns (ih ht)

open Scope Scope.Resolving

mutual

theorem Stmt.returns_resolve : ∀ (s : Stmt) {s' : Stmt} {r r' : Resolution},
    s.resolve r = .ok s' r' → r.inFunction = false → r'.Clean → s'.returns = false
  | .gap, _, _, _, h, _, _ => by
    exact (throw_eq_ok.1 h).elim
  | .bare _, _, _, _, h, _, _ | .expression _, _, _, _, h, _, _ | .print _, _, _, _, h, _, _ => by
    simp only [Stmt.resolve, bind_eq_ok, pure_eq_ok] at h
    obtain ⟨_, _, _, rfl, rfl⟩ := h
    rfl
  | .varDecl name none, _, _, _, h, _, _ => by
    simp only [Stmt.resolve, bind_eq_ok, pure_eq_ok] at h
    obtain ⟨_, _, _, _, _, _, rfl, rfl⟩ := h
    rfl
  | .varDecl _ (some _), _, _, _, h, _, _ | .funDecl _, _, _, _, h, _, _ => by
    simp only [Stmt.resolve, bind_eq_ok, pure_eq_ok] at h
    obtain ⟨_, _, _, _, _, _, _, _, _, rfl, rfl⟩ := h
    rfl
  | .block body, _, _, _, h, hr, hc => by
    simp only [Stmt.resolve, bind_eq_ok, pure_eq_ok] at h
    obtain ⟨_, _, hb, rfl, rfl⟩ := h
    simp only [inScope, openScope, bind_eq_ok, modify_eq_ok, pure_eq_ok] at hb
    obtain ⟨_, _, rfl, _, r₂, hb, _, _, hclose, rfl, rfl⟩ := hb
    have hnotices := (closeScope_leads hclose).2.1
    exact Stmt.anyReturns_resolveAll body hb hr fun token flaw hn => hc token flaw (hnotices hn)
  | .ifStmt condition onTrue none, _, r, _, h, hr, hc
  | .whileStmt condition onTrue, _, r, _, h, hr, hc => by
    simp only [Stmt.resolve, bind_eq_ok, pure_eq_ok] at h
    obtain ⟨_, _, hcond, onTrue', _, ht, rfl, rfl⟩ := h
    show onTrue'.returns = false
    exact onTrue.returns_resolve ht ((condition.resolve_leads hcond).inFunction.trans hr) hc
  | .ifStmt condition onTrue (some onFalse), _, r, _, h, hr, hc => by
    simp only [Stmt.resolve, bind_eq_ok, pure_eq_ok] at h
    obtain ⟨_, r₁, hcond, _, _, ht, _, _, hf, rfl, rfl⟩ := h
    have hr₁ := (condition.resolve_leads hcond).inFunction.trans hr
    have htrue := onTrue.returns_resolve ht hr₁ ((onFalse.resolve_leads hf).clean hc)
    have hfalse := onFalse.returns_resolve hf ((onTrue.resolve_leads ht).inFunction.trans hr₁) hc
    simp only [Stmt.returns, htrue, hfalse, Bool.or_self]
  | .breakStmt _, _, _, _, h, _, _ => by
    simp only [Stmt.resolve, pure_eq_ok] at h
    obtain ⟨rfl, rfl⟩ := h
    rfl
  | .classDecl name superclass? methods, _, _, _, h, _, _ => by
    obtain ⟨_, _, hb, -⟩ := inClass_leads h
    simp only [bind_eq_ok, pure_eq_ok] at hb
    obtain ⟨_, _, _, _, _, _, _, _, _, _, _, _, rfl, rfl⟩ := hb
    rfl
  | .returnStmt keyword none, _, r, r', h, hr, hc => by
    simp only [Stmt.resolve, bind_eq_ok, get_eq_ok] at h
    obtain ⟨_, _, ⟨rfl, rfl⟩, h⟩ := h
    rw [hr] at h
    obtain ⟨_, _, hreport, h⟩ := bind_eq_ok.1 h
    obtain ⟨-, rfl⟩ := pure_eq_ok.1 h
    exact absurd (report_leads hreport).2 (hc _ _)
  | .returnStmt keyword (some value), _, r, r', h, hr, hc => by
    simp only [Stmt.resolve, bind_eq_ok, get_eq_ok] at h
    obtain ⟨_, _, ⟨rfl, rfl⟩, h⟩ := h
    rw [hr] at h
    obtain ⟨_, _, hreport, h⟩ := bind_eq_ok.1 h
    simp only [bind_eq_ok, pure_eq_ok] at h
    obtain ⟨_, _, hv, -, rfl⟩ := h
    exact absurd ((value.resolve_leads hv).notices (report_leads hreport).2) (hc _ _)

theorem Stmt.anyReturns_resolveAll : ∀ (ss : List Stmt) {ss' : List Stmt} {r r' : Resolution},
    Stmt.resolveAll ss r = .ok ss' r' → r.inFunction = false → r'.Clean →
      Stmt.anyReturns ss' = false
  | [], _, _, _, h, _, _ => by
    simp only [Stmt.resolveAll, pure_eq_ok] at h
    obtain ⟨rfl, rfl⟩ := h
    rfl
  | s :: ss, _, r, _, h, hr, hc => by
    simp only [Stmt.resolveAll, bind_eq_ok, pure_eq_ok] at h
    obtain ⟨_, _, hs, _, _, hss, rfl, rfl⟩ := h
    have hfirst := s.returns_resolve hs hr ((Stmt.resolveAll_leads ss hss).clean hc)
    have hrest := Stmt.anyReturns_resolveAll ss hss ((s.resolve_leads hs).inFunction.trans hr) hc
    simp only [Stmt.anyReturns, hfirst, hrest, Bool.or_self]

end

theorem Stmt.returns_of_anyReturns {ss : List Stmt} (h : Stmt.anyReturns ss = false) :
    ∀ s ∈ ss, s.returns = false := by
  induction ss with
  | nil => simp
  | cons t ss ih =>
    obtain ⟨ht, hss⟩ := Bool.or_eq_false_iff.1 h
    intro s hs
    rcases List.mem_cons.1 hs with rfl | hs
    · exact ht
    · exact ih hss s hs

theorem Eval.ne_returned_of_resolved {warns : Bool} {statements program : List Stmt}
    (hr : (Scope.resolve warns statements).statements = .ok program)
    (hc : (Scope.resolve warns statements).reached.Clean) {s : Stmt} (hs : s ∈ program)
    (depth : Nat) : Returnless (Eval.run depth (.stmt s)) := by
  intro m v m' h
  unfold Scope.resolve at hr hc
  cases hres : Stmt.resolveAll statements (.start warns) with
  | error d r =>
    rw [hres] at hr
    cases hr
  | ok ss r =>
    rw [hres] at hr hc
    cases hr
    have hnone := Stmt.returns_of_anyReturns (Stmt.anyReturns_resolveAll statements hres rfl hc) s hs
    obtain ⟨_, _, _, _, he, -⟩ := returns_of_returned h
    exact absurd (he.returns rfl) (by simp [hnone])

/-! ### Sessions -/

namespace Session

theorem echo_ne_returned (e : Expr) (s : Session) (v : Value) (s' : Session) :
    echo e s ≠ .error (.returned v) s' := by
  -- All but the writing happens on the machine.
  have hmachine : ∀ {α : Type} {x : Run α}, x.Returnless → ∀ s₁ s₂ : Session,
      onMachine x s₁ ≠ .error (.returned v) s₂ := by
    intro α x hx s₁ s₂ h
    unfold onMachine at h
    split at h
    · cases h
    · next heq =>
      cases h
      exact hx _ v _ heq
  intro h
  rcases bind_eq_error.1 h with h | ⟨value, s₁, -, h⟩
  · exact hmachine (.catchReturn _) s s' h
  rcases bind_eq_error.1 h with h | ⟨text, s₂, -, h⟩
  · exact hmachine (.ofExcept _) s₁ s' h
  rcases bind_eq_error.1 h with h | ⟨_, s₃, -, h⟩
  · refine hmachine ?_ s₂ s' h
    exact .of_ok fun _ => ⟨_, _, rfl⟩
  · cases h

/-- No text ends with a return. -/
theorem run_ne_returned (t : Text) (s : Session) (v : Value) (s' : Session) :
    run t.source t.echoes s ≠ .error (.returned v) s' := by
  intro h
  rw [run_eq, bind_of_ok (stopped_eq _)] at h
  split at h
  · cases h
  unfold proceed at h
  rcases bind_eq_error.1 h with h | ⟨program, s₁, -, h⟩
  · rw [resolve_eq] at h
    split at h <;> cases h
  rw [bind_of_ok (stopped_eq _)] at h
  split at h
  · cases h
  rcases carryOut_cases t program with ⟨e, -, -, hcarry⟩ | ⟨-, hcarry⟩
  · rw [hcarry] at h
    exact echo_ne_returned e s₁ v s' h
  · rw [hcarry] at h
    exact interpretSafely_ne_error program s₁ _ s' h

end Session

/-- A return never crosses a call. No expression ends with one; a statement ends with one only after
a return statement of its own activation was executed; no statement of a program with nothing wrong
with it does, on any machine; and no text ends so in a session. -/
theorem Eval.return_stays_in_call (depth : Nat) :
    (∀ e m v m', run depth (.expr e) m ≠ .error (.returned v) m') ∧
    (∀ s m v m', run depth (.stmt s) m = .error (.returned v) m' → Returns depth s m v) ∧
    (∀ warns statements program,
      (Scope.resolve warns statements).statements = .ok program →
      (Scope.resolve warns statements).reached.Clean →
      ∀ s ∈ program, ∀ m v m', run depth (.stmt s) m ≠ .error (.returned v) m') ∧
    (∀ (t : Text) s v s', Session.run t.source t.echoes s ≠ .error (.returned v) s') := by
  refine ⟨returnless_expr depth, ?_, ?_, Session.run_ne_returned⟩
  · intro s m v m' h
    exact returns_of_returned h
  · intro warns statements program hr hc s hs
    exact ne_returned_of_resolved hr hc hs depth

private def returnKeyword : Token := ⟨.kwReturn, "return", .nil, 1⟩

private def leavesLoop : Function :=
  ⟨⟨.identifier, "f", .nil, 1⟩, [],
    [.whileStmt (.literal (.bool true)) (.block [.returnStmt returnKeyword none])], false, false⟩

/-- The body of the function ends with a return, by the return statement in its loop; its declaration
does not. -/
theorem Eval.return_stays_in_call_loop :
    Returns 5 (.block leavesLoop.body) (.start false 0) .nil ∧
      ∀ m v m', run 5 (.stmt (.funDecl leavesLoop)) m ≠ .error (.returned v) m' := by
  obtain ⟨-, hreturns, hresolved, -⟩ := return_stays_in_call 5
  have hresolve : Scope.resolve true [.funDecl leavesLoop] =
      ⟨.ok [.funDecl leavesLoop], .start true⟩ := by rfl
  refine ⟨hreturns _ _ _ _ rfl, ?_⟩
  apply hresolved true [.funDecl leavesLoop] [.funDecl leavesLoop] ?_ ?_ _ (.head _)
  · rw [hresolve]
  · rw [hresolve]
    intro token flaw hn
    exact List.not_mem_nil hn

end Lox
