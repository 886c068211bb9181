import Lox.Proofs.Machine.Chain
import Lox.Proofs.Machine.Confined
import Lox.Proofs.Machine.Origins
import Lox.Proofs.Machine.Returns

/-!
# What making an instance yields

Calling a class makes an instance, runs the initializer on it and yields the instance. A return
statement of the initializer, however, unwinds past the place that yields the instance to the call
itself, which takes the value of the statement instead.
-/

namespace Lox

open Eval Outcome

/-- The machine at the start of the initializer of a new instance, which is given its receiver. -/
def Machine.instantiate (m : Machine) (c : Class) : Machine :=
  Machine.receive { m with fields := m.fields.push .empty } (.object ⟨m.fields.size, c⟩)

namespace Eval

variable {depth : Nat} {m m₁ m₂ m' : Machine}

/-! ### Return statements that are executed -/

/-- A statement ends where the statement that it has come to does, unless it is a loop that a break
ends or that has run out of rounds. -/
theorem run_of_reached_error {s t : Stmt} {e : Exit} (hr : Reaches depth (.stmt s) m (.stmt t) m₁)
    (ht : run depth (.stmt t) m₁ = .error e m₂) (he : e ≠ .broke) :
    (∃ m', run (depth + 1) (.stmt s) m = .error e m') ∨
      ∃ m', run (depth + 1) (.stmt s) m = .error .exhausted m' := by
  cases hr with
  | onTrue hc hv =>
    refine .inl ⟨m₂, (bind_of_ok hc).trans ?_⟩
    rw [if_pos hv]
    exact bind_of_error ht
  | onFalse hc hv =>
    refine .inl ⟨m₂, (bind_of_ok hc).trans ?_⟩
    rw [if_neg (by simp [hv])]
    exact bind_of_error ht
  | @loopBody condition body _ m₃ _ v hrounds hc hv =>
    obtain ⟨left, hleft⟩ | hend := hrounds.loop_eq depth
    · cases left with
      | zero => exact .inr ⟨m₃, hleft⟩
      | succ left =>
        refine .inl ⟨m₂, hleft.trans ?_⟩
        simp only [loop, hc, hv, if_true, ht]
    · exact .inr hend
  | @block body _ _ _ _ _ _ hb hbefore =>
    have hbody := execAll_eq_error.2 ⟨_, t, _, _, hb, hbefore, ht⟩
    refine .inl ⟨{ m₂ with env := m.env }, ?_⟩
    change (execIn (run depth) m.env .empty body >>= fun _ => pure Value.nil) m = _
    exact bind_of_error (execIn_eq_error.2 ⟨m₂, hbody, rfl⟩)
  | call ha =>
    cases ha with
    | method hb => cases hb

/-- A statement that comes to a return statement of its own activation ends with its value, unless a
loop has run out of rounds. -/
theorem Returns.run_eq {s : Stmt} {v : Value} (h : Returns depth s m v) :
    (∃ m', run depth (.stmt s) m = .error (.returned v) m') ∨
      ∃ m', run depth (.stmt s) m = .error .exhausted m' := by
  obtain ⟨depth', keyword, value?, m', he, hv⟩ := h
  generalize hd : depth' + 1 = k at he
  generalize ht : Stmt.returnStmt keyword value? = t at he
  induction he with
  | here =>
    subst hd ht
    cases value? with
    | none =>
      obtain rfl : v = .nil := hv
      exact .inl ⟨_, rfl⟩
    | some value =>
      obtain ⟨m₁, hv⟩ := hv
      exact .inl ⟨m₁, bind_of_ok hv⟩
  | inside hr _ ih =>
    obtain ⟨m₁, hend⟩ | ⟨m₁, hend⟩ := ih hv hd ht
    · exact run_of_reached_error hr hend nofun
    · exact .inr ((run_of_reached_error hr hend nofun).elim id id)

theorem execAll_of_returns {body before after : List Stmt} {s : Stmt} {v : Value} {u : Unit}
    (hb : body = before ++ s :: after) (hr : execAll (run depth) before m = .ok u m₁)
    (h : Returns depth s m₁ v) :
    (∃ m', execAll (run depth) body m = .error (.returned v) m') ∨
      ∃ m', execAll (run depth) body m = .error .exhausted m' := by
  obtain ⟨m₂, hend⟩ | ⟨m₂, hend⟩ := h.run_eq
  · exact .inl ⟨m₂, execAll_eq_error.2 ⟨before, s, after, m₁, hb, hr, hend⟩⟩
  · exact .inr ⟨m₂, execAll_eq_error.2 ⟨before, s, after, m₁, hb, hr, hend⟩⟩

/-- Evaluating an expression runs a body that executes a return statement of its own, in whatever blocks
and loops of the body it stands. The statement hands over the given value. -/
def HandsBack (depth : Nat) (e : Expr) (m : Machine) (w : Value) : Prop :=
  ∃ s m₁, Reaches depth (.expr e) m (.stmt s) m₁ ∧ Returns depth s m₁ w

/-! ### Applying a function -/

section Apply

variable {f : Closure} {args : List Value} {vars : Table Value}

theorem apply_of_body_error {e : Exit} (hs : Starts f args m vars)
    (h : execAll (run depth) f.body (m.enter f.env vars) = .error e m₁)
    (he : ∀ v, e ≠ .delivered v) :
    apply (run depth) f args m = .error e { m₁ with env := m.env } := by
  rw [apply_of_starts (run depth) hs]
  refine bind_of_error ((deliver_execIn_error h).trans ?_)
  cases e with
  | delivered v => exact absurd rfl (he v)
  | _ => rfl

/-- A function that ends with a return has a body that does. -/
theorem body_of_apply_returned {w : Value}
    (h : apply (run depth) f args m = .error (.returned w) m') :
    ∃ vars m₁, Starts f args m vars ∧
      execAll (run depth) f.body (m.enter f.env vars) = .error (.returned w) m₁ := by
  obtain ⟨d, -, hfails⟩ | ⟨vars, hs⟩ := apply_cases (run depth) f args m
  · rw [hfails] at h
    cases h
  -- what comes after the body never ends so
  have hafter : ∀ result : Value,
      Run.Returnless (if f.isInit then receiver f else return result : Run Value) := by
    intro result m₁ w' m₂ hreceiver
    split at hreceiver
    · obtain ⟨this, hthis⟩ | ⟨d, -, hfails⟩ := receiver_cases f m₁
      · cases hthis.symm.trans hreceiver
      · cases hfails.symm.trans hreceiver
    · cases hreceiver
  rw [apply_of_starts (run depth) hs] at h
  obtain h | ⟨result, m₁, -, h⟩ := bind_eq_error.1 h
  · unfold deliver at h
    split at h
    · cases h
    · cases h
    · next hbody =>
      cases h
      obtain ⟨m₁, hbody, -⟩ := execIn_eq_error.1 hbody
      exact ⟨vars, m₁, hs, hbody⟩
  · exact absurd h (hafter result m₁ w m')

end Apply

/-! ### Making an instance -/

section Construct

variable {callee : Expr} {paren : Token} {arguments : List Expr} {c : Class} {args : List Value}
  {v : Value}

theorem call_eq_ok {callee' : Value} (hc : run depth (.expr callee) m = .ok callee' m₁)
    (ha : evalAll (run depth) arguments m₁ = .ok args m₂)
    (h : run (depth + 1) (.expr (.call callee paren arguments)) m = .ok v m') :
    arity? callee' = some args.length ∧
      Run.catchReturn (call (run depth) callee' args) m₂ = .ok v m' := by
  change (run depth (.expr callee) >>= _) m = _ at h
  rw [bind_of_ok hc, bind_of_ok ha] at h
  unfold callChecked at h
  cases hn : arity? callee' with
  | none =>
    rw [hn] at h
    cases h
  | some arity =>
    rw [hn] at h
    dsimp only at h
    split at h
    · cases h
    · next hne => exact ⟨congrArg some (Decidable.not_not.1 hne).symm, h⟩

section Body

variable (hc : run depth (.expr callee) m = .ok (.type c) m₁)
  (ha : evalAll (run depth) arguments m₁ = .ok args m₂)

include hc ha

theorem exists_initializer_of_reaches {s : Stmt} {m₃ : Machine}
    (hr : Reaches depth (.expr (.call callee paren arguments)) m (.stmt s) m₃) :
    ∃ f vars before after u, c.findMethod? "init" = some f ∧ f.body = before ++ s :: after ∧
      Starts (f.received m₂) args (m₂.instantiate c) vars ∧
      execAll (run depth) before ((m₂.instantiate c).enter (f.received m₂).env vars) = .ok u m₃ := by
  cases hr with
  | call happly hs hb hr =>
    cases happly with
    | function hc' => cases hc.symm.trans hc'
    | method hbinds =>
      cases hbinds with
      | initializer hc' ha' hn hf =>
        cases hc.symm.trans hc'
        cases ha.symm.trans ha'
        exact ⟨_, _, _, _, _, hf, hb, hs, hr⟩
      | chained hc' => cases hc.symm.trans hc'

theorem apply_of_handsBack {w : Value} (h : HandsBack depth (.call callee paren arguments) m w) :
    ∃ f, c.findMethod? "init" = some f ∧
      ((∃ m', apply (run depth) (f.received m₂) args (m₂.instantiate c) = .error (.returned w) m') ∨
        ∃ m', apply (run depth) (f.received m₂) args (m₂.instantiate c) = .error .exhausted m') := by
  obtain ⟨s, m₃, hr, hreturns⟩ := h
  obtain ⟨f, vars, before, after, u, hf, hb, hs, hbefore⟩ := exists_initializer_of_reaches hc ha hr
  refine ⟨f, hf, ?_⟩
  have hbody : (f.received m₂).body = before ++ s :: after := hb
  obtain ⟨m₄, hend⟩ | ⟨m₄, hend⟩ := execAll_of_returns hbody hbefore hreturns
  · exact .inl ⟨_, apply_of_body_error hs hend nofun⟩
  · exact .inr ⟨_, apply_of_body_error hs hend nofun⟩

variable (h : run (depth + 1) (.expr (.call callee paren arguments)) m = .ok v m')

include h

/-- Calling a class yields the new instance if the initializer executes no return statement, and the
value of that statement otherwise. -/
theorem construct_cases :
    v = .object ⟨m₂.fields.size, c⟩ ∧ (∀ w, ¬HandsBack depth (.call callee paren arguments) m w) ∨
      HandsBack depth (.call callee paren arguments) m v ∧
        ∀ w, HandsBack depth (.call callee paren arguments) m w → w = v := by
  obtain ⟨hn, hcall⟩ := call_eq_ok hc ha h
  change Run.catchReturn (construct (run depth) c args) m₂ = _ at hcall
  cases hi : c.findMethod? "init" with
  | none =>
    have hnew : construct (run depth) c args m₂ =
        .ok (.object ⟨m₂.fields.size, c⟩) { m₂ with fields := m₂.fields.push .empty } := by
      unfold construct
      rw [hi]
      rfl
    unfold Run.catchReturn at hcall
    rw [hnew] at hcall
    cases hcall
    refine .inl ⟨rfl, fun w hw => ?_⟩
    obtain ⟨f, hf, -⟩ := apply_of_handsBack hc ha hw
    rw [hi] at hf
    cases hf
  | some f =>
    have hnew : construct (run depth) c args m₂ =
        (apply (run depth) (f.received m₂) args >>= fun _ =>
          pure (Value.object ⟨m₂.fields.size, c⟩)) (m₂.instantiate c) := by
      unfold construct
      rw [hi]
      rfl
    have hhands : ∀ w, HandsBack depth (.call callee paren arguments) m w →
        (∃ m', apply (run depth) (f.received m₂) args (m₂.instantiate c) = .error (.returned w) m') ∨
          ∃ m', apply (run depth) (f.received m₂) args (m₂.instantiate c) = .error .exhausted m' := by
      intro w hw
      obtain ⟨g, hg, hend⟩ := apply_of_handsBack hc ha hw
      rw [hi] at hg
      cases hg
      exact hend
    unfold Run.catchReturn at hcall
    rw [hnew] at hcall
    cases happly : apply (run depth) (f.received m₂) args (m₂.instantiate c) with
    | ok r m₃ =>
      rw [bind_of_ok happly] at hcall
      cases hcall
      refine .inl ⟨rfl, fun w hw => ?_⟩
      rcases hhands w hw with ⟨m₄, hend⟩ | ⟨m₄, hend⟩ <;> cases happly.symm.trans hend
    | error e m₃ =>
      rw [bind_of_error happly] at hcall
      cases e with
      | returned w =>
        cases hcall
        refine .inr ⟨?_, fun w' hw => ?_⟩
        · obtain ⟨vars, m₄, hs, hbody⟩ := body_of_apply_returned happly
          obtain ⟨before, s, after, m₅, hb, hbefore, hend⟩ := execAll_eq_error.1 hbody
          have hbinds : Binds depth (.expr (.call callee paren arguments)) m f
              ⟨m₂.fields.size, c⟩ (some args) { m₂ with fields := m₂.fields.push .empty } :=
            .initializer hc ha (Option.some.inj hn).symm hi
          exact ⟨s, m₅, .call (.method hbinds) hs hb hbefore, returns_of_returned hend⟩
        · rcases hhands w' hw with ⟨m₄, hend⟩ | ⟨m₄, hend⟩ <;> cases happly.symm.trans hend
          rfl
      | delivered | broke | fault | defect | exhausted => cases hcall

end Body

end Construct

/-- What calling a class yields, if it yields anything. The class was given as many arguments as its
initializer has parameters, and the only body that the call runs is that of the initializer. If the
initializer executes a return statement, in whatever blocks and loops, the call yields the value of that
statement; so it yields the new instance if and only if every return statement that the initializer
executes hands over that instance. -/
theorem instance_yielded_iff {depth : Nat} {m m₁ m₂ m' : Machine} {callee : Expr} {paren : Token}
    {arguments : List Expr} {c : Class} {args : List Value} {v : Value}
    (hc : run depth (.expr callee) m = .ok (.type c) m₁)
    (ha : evalAll (run depth) arguments m₁ = .ok args m₂)
    (h : run (depth + 1) (.expr (.call callee paren arguments)) m = .ok v m') :
    args.length = c.arity ∧
    (∀ s m₃, Reaches depth (.expr (.call callee paren arguments)) m (.stmt s) m₃ →
      ∃ f, c.findMethod? "init" = some f ∧ s ∈ f.body) ∧
    (∀ w, HandsBack depth (.call callee paren arguments) m w → v = w) ∧
    (v = .object ⟨m₂.fields.size, c⟩ ↔
      ∀ w, HandsBack depth (.call callee paren arguments) m w → w = .object ⟨m₂.fields.size, c⟩) := by
  refine ⟨(Option.some.inj (call_eq_ok hc ha h).1).symm, ?_, ?_, ?_⟩
  · intro s m₃ hr
    obtain ⟨f, vars, before, after, u, hf, hb, -⟩ := exists_initializer_of_reaches hc ha hr
    exact ⟨f, hf, by simp [hb]⟩
  · intro w hw
    obtain ⟨-, hnone⟩ | ⟨-, hall⟩ := construct_cases hc ha h
    · exact absurd hw (hnone w)
    · exact (hall w hw).symm
  · obtain ⟨hv, hnone⟩ | ⟨hhands, hall⟩ := construct_cases hc ha h
    · exact ⟨fun _ w hw => absurd hw (hnone w), fun _ => hv⟩
    · constructor
      · intro hv w hw
        rw [hall w hw, hv]
      · intro hi
        exact hi v hhands

/-- A class whose initializer returns its argument from a loop. -/
private def returningInit : Stmt :=
  .classDecl (.ident "C" 1) none
    [⟨.ident "init" 1, [.ident "x" 1],
      [.whileStmt (.literal (.bool true)) (.block
        [.returnStmt ⟨.kwReturn, "return", .nil, 1⟩ (some (.variable (.ident "x" 1) (.hops 1)))])],
      false, false⟩]

private def initDeclared : Machine := leftBy 1 (.stmt returningInit) (.start false 0)

private def newReturned : Expr :=
  .call (.variable (.ident "C" 2) .free) ⟨.rightParen, ")", .nil, 2⟩ [.literal (.bool true)]

private def endsWithClass : EStateM.Result Exit Machine Value → Bool
  | .ok (.type _) _ => true
  | _ => false

private def endsWithTrue : EStateM.Result Exit Machine Value → Bool
  | .ok (.bool true) _ => true
  | _ => false

/-- The class has one parameter to initialize an instance with. The call yields the argument, so the
initializer has handed over something else than the instance. -/
theorem instance_yielded_iff_argument : ∃ c m₁ m',
    run 5 (.expr (.variable (.ident "C" 2) .free)) initDeclared = .ok (.type c) m₁ ∧
      run 6 (.expr newReturned) initDeclared = .ok (.bool true) m' ∧ 1 = c.arity ∧
      ¬∀ w, HandsBack 5 newReturned initDeclared w → w = .object ⟨m₁.fields.size, c⟩ := by
  have hclass : endsWithClass (run 5 (.expr (.variable (.ident "C" 2) .free)) initDeclared) = true := by
    decide +kernel
  have hyields : endsWithTrue (run 6 (.expr newReturned) initDeclared) = true := by decide +kernel
  unfold endsWithClass at hclass
  split at hclass
  · next c m₁ hc =>
    unfold endsWithTrue at hyields
    split at hyields
    · next m' h =>
      have ha : evalAll (run 5) [.literal (.bool true)] m₁ = .ok [.bool true] m₁ := rfl
      obtain ⟨harity, -, -, hiff⟩ := instance_yielded_iff hc ha h
      refine ⟨c, m₁, m', hc, h, harity, fun hall => ?_⟩
      cases hiff.2 hall
    · cases hyields
  · cases hclass

/-- A class whose initializer returns a value, and a call of it. -/
def initReturns : Text where
  source := "class C{init(){return true;}}print C();"
  echoes := false

/-- The call yields the value that the initializer returns, not an instance. -/
theorem instance_not_yielded :
    initReturns.complaints = [] ∧
      ((Session.new true 0).left (Session.run initReturns.source initReturns.echoes)).machine.out =
        #[.shown "true"] ∧
      ((Session.new true 0).left (Session.run initReturns.source initReturns.echoes)).reports = #[] := by
  decide +kernel

end Eval

end Lox
