import Lox.Proofs.Machine.Chain
import Lox.Proofs.Machine.Origins
import Lox.Proofs.Session.Course
import Lox.Proofs.Session.Told

/-!
# Binding parameters to arguments

The number of arguments of a call is checked once, against the arity of the callee. That suffices where
the call runs one body: a parameter without an argument comes up only in a chain of methods, whose arity
is that of its first method alone.
-/

namespace Lox

open Eval Outcome

/-! ### Functions as texts declare them -/

/-- A function that is run when it is read as a property has no parameters, methods have names, and
bodies consist of nodes that reading yields. -/
def Policy.readable : Policy where
  callable f := (f.isGetter = true → f.params = []) ∧ Stmt.allOf Node.isReadable f.body = true
  waiting f := f.name?.isSome ∧ (f.isGetter = true → f.params = []) ∧
    Stmt.allOf Node.isReadable f.body = true
  runs v := v.node.all Node.isReadable = true
  frames _ := True

theorem Function.params_of_getter {f : Function} (h : f.isReadable = true)
    (hget : f.isGetter = true) : f.params = [] := by
  simpa [Function.isReadable, hget] using h

theorem Policy.readable_lawful : Policy.readable.Lawful where
  part h _ hp _ := Node.all_part h hp
  initializer h := Node.all_initializer h
  block h hb _ _ := Stmt.allOf_iff.1 (Node.all_block h) _ (by simp [hb])
  call _ _ _ hf hb _ _ := Stmt.allOf_iff.1 hf.2 _ (by simp [hb])
  bind _ _ hf := hf.2
  inherit _ hf := hf.2
  lambda h := ⟨nofun, Node.all_lambda h⟩
  function h := ⟨Function.params_of_getter (Node.self_of_all h), Node.all_function h⟩
  method h hf _ _ _ := by
    have hself := List.all_eq_true.1 (Node.self_of_all h) _ hf
    have hbody := Node.all_method h hf
    unfold Policy.allows
    split
    · exact ⟨Function.params_of_getter hself, hbody⟩
    · exact ⟨rfl, Function.params_of_getter hself, hbody⟩
  push _ h := h
  write _ _ _ _ h := h

theorem Machine.Ran.obeys_readable {m : Machine} (hm : m.Ran Node.isReadable) :
    m.Obeys .readable := by
  induction hm with
  | start traced clock => exact obeys_start trivial
  | @ended m m' depth node _ hn he ih =>
    have hruns : Policy.readable.runs ⟨depth, node, m⟩ := hn
    have hk := Policy.readable_lawful.run_keeps depth hruns ih
    rcases he with ⟨v, hv⟩ | ⟨e, he⟩
    · exact (hk.ok hv).2.1
    · exact (hk.error he).2.1
  | inside _ hn hr ih => exact (Policy.readable_lawful.reaches hn ih hr).2
  | aside _ hframes hfields _ _ ih => exact ih.congr hframes hfields

/-! ### Variables for parameters -/

/-- Each parameter has the argument at the same position. Of several parameters with one name the last
one counts. -/
def Closure.Bound (f : Closure) (args : List Value) (vars : Table Value) : Prop :=
  ∀ (i : Nat) (p : Token), f.params[i]? = some p →
    (∀ (j : Nat) (q : Token), i < j → f.params[j]? = some q → q.lexeme ≠ p.lexeme) →
    ∃ a, args[i]? = some a ∧ vars.get? p.lexeme = some a

namespace Eval

variable {args : List Value}

theorem get?_bindParams_of_last {vars vars' : Table Value} {params : List Token}
    (h : bindParams vars params args = .ok vars') {i : Nat} {p : Token} (hp : params[i]? = some p)
    (hlast : ∀ (j : Nat) (q : Token), i < j → params[j]? = some q → q.lexeme ≠ p.lexeme) :
    ∃ a, args[i]? = some a ∧ vars'.get? p.lexeme = some a := by
  induction params generalizing vars args i with
  | nil => simp at hp
  | cons q params ih =>
    cases args with
    | nil => cases h
    | cons a args =>
      cases i with
      | zero =>
        cases hp
        refine ⟨a, rfl, ?_⟩
        have hothers : ∀ r ∈ params, r.lexeme ≠ p.lexeme := by
          intro r hr
          obtain ⟨j, hj⟩ := List.mem_iff_getElem?.1 hr
          exact hlast (j + 1) r (Nat.succ_pos j) hj
        have hrest : bindParams (vars.insert p.lexeme a) params args = .ok vars' := h
        rw [get?_bindParams hrest hothers, Table.get?_insert, if_pos rfl]
      | succ i =>
        exact ih h hp fun j r hj hr => hlast (j + 1) r (Nat.succ_lt_succ hj) hr

theorem Starts.bound {f : Closure} {m : Machine} {vars : Table Value} (hs : Starts f args m vars)
    (hget : f.isGetter = true → f.params = []) : f.Bound args vars := by
  obtain ⟨this, -, hvars⟩ := hs
  intro i p hp hlast
  obtain ⟨start, -, ⟨h, -⟩ | ⟨-, hbind⟩⟩ := callVars_cases hvars
  · rw [hget h] at hp
    simp at hp
  · exact get?_bindParams_of_last hbind hp hlast

theorem bindParams_eq_missing {params : List Token} (h : args.length < params.length)
    (vars : Table Value) :
    bindParams vars params args = .error .missingArgument := by
  induction params generalizing args vars with
  | nil => cases h
  | cons p params ih =>
    cases args with
    | nil => rfl
    | cons a args => exact ih (Nat.lt_of_succ_lt_succ h) _

/-! ### Calls that lack an argument -/

/-- Evaluating a call comes to a method of a chain: the callee is the chain, the number of arguments is
that of its arity, and the methods before have completed. The machine is the one that these have left. -/
inductive Turn (depth : Nat) :
    Expr → Machine → List Closure → Closure → Object → List Value → Machine → Prop where
  | chain {callee : Expr} {paren : Token} {arguments : List Expr} {m m₁ m₂ m₃ : Machine} {id : Nat}
      {before after : List Closure} {f : Closure} {o : Object} {args : List Value} {v : Value}
      (hc : run depth (.expr callee) m = .ok (.chain id (before ++ f :: after) o) m₁)
      (ha : evalAll (run depth) arguments m₁ = .ok args m₂)
      (hn : arity? (.chain id (before ++ f :: after) o) = some args.length)
      (hb : applyChain (run depth) o args before .nil m₂ = .ok v m₃) :
      Turn depth (.call callee paren arguments) m before f o args m₃

section Missing

variable {depth : Nat} {m m₁ m₂ m₃ : Machine} {e : Expr} {before : List Closure} {f : Closure}
  {o : Object} {args : List Value}

theorem Turn.ne_nil_of_missing (ht : Turn depth e m before f o args m₃) (hf : f.isGetter = false)
    (hlen : args.length < f.params.length) : before ≠ [] := by
  rintro rfl
  cases ht with
  | chain _ _ hn =>
    have harity : f.arity = args.length := Option.some.inj hn
    simp only [Closure.arity, hf] at harity
    exact Nat.ne_of_lt hlen harity.symm

theorem Applies.turn_of_missing {node : Node} (ha : Applies depth node m f args m₁)
    (hf : f.isGetter = false) (hlen : args.length < f.params.length) :
    ∃ e before g o s, node = .expr e ∧ Turn depth e m before g o args s ∧
      f = g.received s ∧ m₁ = s.receive (.object o) := by
  cases ha with
  | function hc ha hn =>
    simp only [Closure.arity, hf] at hn
    exact absurd hn (Nat.ne_of_lt hlen)
  | @method _ _ s g o _ hb =>
    have hg : g.isGetter = false := hf
    generalize hargs : some args = args? at hb
    cases hb with
    | initializer hc ha hn hi =>
      cases hargs
      have harity : args.length = g.params.length := by
        simpa [Class.arity, hi, Closure.arity, hg] using hn
      exact absurd harity (Nat.ne_of_lt hlen)
    | chained hc ha hn hb =>
      cases hargs
      exact ⟨_, _, g, o, s, rfl, .chain hc ha hn hb, rfl, rfl⟩
    | property => simp [hg] at hargs

theorem exists_chain_of_missing {node : Node} {m' : Machine}
    (h : run depth node m = .error (.defect .missingArgument) m') :
    ∃ depth' e s before f o args s',
      Origin (.defect .missingArgument) ⟨depth, node, m⟩ ⟨depth' + 1, .expr e, s⟩ ∧
      Turn depth' e s before f o args s' ∧ before ≠ [] ∧ args.length < f.params.length := by
  obtain ⟨depth', n, s, ho, hraises⟩ := exists_origin h nofun
  cases hraises with
  | missing ha hf hlen =>
    obtain ⟨e, before, g, o, s', rfl, ht, rfl, -⟩ := ha.turn_of_missing hf hlen
    exact ⟨depth', e, s, before, g, o, _, s', ho, ht, ht.ne_nil_of_missing hf hlen, hlen⟩
  | other hf => cases hf

theorem applyChain_append {rec : Recur} {after : List Closure} {r v : Value} {m' : Machine}
    (h : applyChain rec o args before r m = .ok v m') :
    applyChain rec o args (before ++ after) r m = applyChain rec o args after v m' := by
  induction before generalizing m r with
  | nil =>
    cases h
    rfl
  | cons f before ih =>
    obtain ⟨u, m₁, hf, h⟩ := bind_eq_ok.1 h
    exact (bind_of_ok hf).trans (ih h)

/-- A method of a chain that has more parameters than there are arguments ends the call, whatever the
methods before it have done. -/
theorem Turn.run_eq_missing (ht : Turn depth e m before f o args m₃) (hname : f.name?.isSome)
    (hf : f.isGetter = false) (hlen : args.length < f.params.length) :
    run (depth + 1) (.expr e) m = .error (.defect .missingArgument) (m₃.receive (.object o)) := by
  have happly : apply (run depth) (f.received m₃) args (m₃.receive (.object o)) =
      .error (.defect .missingArgument) (m₃.receive (.object o)) := by
    have hframe : (m₃.receive (.object o)).frames.held? m₃.frames.size "this" = some (.object o) := by
      simp [Machine.receive, Frames.held?]
    have hname' : (f.received m₃).name?.isSome := hname
    have hf' : (f.received m₃).isGetter = false := hf
    have hlen' : args.length < (f.received m₃).params.length := hlen
    have hvars : callVars (f.received m₃) (.object o) (m₃.receive (.object o)).frames.size args =
        .error .missingArgument := by
      unfold callVars
      rw [receiverVars_eq hname']
      change (if (f.received m₃).isGetter then _ else _) = _
      rw [hf']
      exact bindParams_eq_missing hlen' _
    unfold apply
    rw [bind_of_ok (receiver_eq rfl hframe)]
    change (Run.ofExcept (callVars (f.received m₃) (.object o) _ args) >>= _) _ = _
    rw [hvars]
    rfl
  cases ht with
  | @chain callee paren arguments _ m₁ m₂ _ id before after f o args v hc ha hn hb =>
    have hchain : applyChain (run depth) o args (before ++ f :: after) .nil m₂ =
        .error (.defect .missingArgument) (m₃.receive (.object o)) := by
      rw [applyChain_append hb]
      have hturn : Run.catchReturn (bindReceiver f (.object o) >>= fun bound =>
          apply (run depth) bound args) m₃ =
          .error (.defect .missingArgument) (m₃.receive (.object o)) := by
        unfold Run.catchReturn
        rw [show (bindReceiver f (.object o) >>= fun bound => apply (run depth) bound args) m₃ =
          apply (run depth) (f.received m₃) args (m₃.receive (.object o)) from rfl, happly]
      exact bind_of_error hturn
    rw [run_call hc ha hn]
    change Run.catchReturn (applyChain (run depth) o args (before ++ f :: after) .nil) m₂ = _
    unfold Run.catchReturn
    rw [hchain]

end Missing

/-- The only functions that a call applies are the callee, the initializer of a class and the methods of
a chain, all to the same arguments. Outside chains there is an argument for each parameter. -/
theorem Applies.length_params {depth : Nat} {m m₁ m₂ s : Machine} {callee : Expr} {paren : Token}
    {arguments : List Expr} {v : Value} {args' : List Value} {f : Closure}
    (hc : run depth (.expr callee) m = .ok v m₁)
    (ha : evalAll (run depth) arguments m₁ = .ok args m₂)
    (h : Applies depth (.expr (.call callee paren arguments)) m f args' s)
    (hget : f.isGetter = true → f.params = []) :
    args' = args ∧
      ((∀ id methods o, v ≠ .chain id methods o) → f.params.length = args.length) := by
  have harity : f.arity = f.params.length := by
    unfold Closure.arity
    split
    · next hf => rw [hget hf, List.length_nil]
    · rfl
  cases h with
  | function hc' ha' hn =>
    cases hc.symm.trans hc'
    cases ha.symm.trans ha'
    exact ⟨rfl, fun _ => harity.symm.trans hn.symm⟩
  | @method _ _ _ g _ _ hb =>
    cases hb with
    | @initializer _ _ _ _ _ _ c _ _ hc' ha' hn hi =>
      cases hc.symm.trans hc'
      cases ha.symm.trans ha'
      have hclass : c.arity = g.arity := by rw [Class.arity, hi]
      exact ⟨rfl, fun _ => harity.symm.trans (hclass.symm.trans hn.symm)⟩
    | chained hc' ha' =>
      cases hc.symm.trans hc'
      cases ha.symm.trans ha'
      exact ⟨rfl, fun hne => absurd rfl (hne _ _ _)⟩

/-- What the check of the number of arguments protects, on every machine that texts lead to. Whichever
bodies a call runs, they start with each parameter bound to the argument at the same position. Unless the
callee is a chain of methods, every function that the call applies has as many parameters as there are
arguments, so none is missing. A chain that has come to a method with more parameters than there are
arguments ends the call for want of an argument. No run whatever ends so but for the call of a chain that
has come to such a method, and that method is not the first one. -/
theorem arguments_bound {depth : Nat} {m m₁ m₂ : Machine} {callee : Expr} {paren : Token}
    {arguments : List Expr} {v : Value} {args : List Value} (hm : m.Ran Node.isReadable)
    (hn : (Node.expr (.call callee paren arguments)).all Node.isReadable = true)
    (hc : run depth (.expr callee) m = .ok v m₁)
    (ha : evalAll (run depth) arguments m₁ = .ok args m₂) :
    (∀ f args' s vars, Applies depth (.expr (.call callee paren arguments)) m f args' s →
      Starts f args' s vars → args' = args ∧ f.Bound args vars) ∧
    ((∀ id methods o, v ≠ .chain id methods o) →
      ∀ f args' s, Applies depth (.expr (.call callee paren arguments)) m f args' s →
        f.params.length = args.length ∧
          ∀ this frame, callVars f this frame args ≠ .error .missingArgument) ∧
    (∀ before f o args' m₃, Turn depth (.call callee paren arguments) m before f o args' m₃ →
      args' = args ∧ (args.length < f.params.length →
        run (depth + 1) (.expr (.call callee paren arguments)) m =
          .error (.defect .missingArgument) (m₃.receive (.object o)))) ∧
    (∀ depth' node m₃ m₄, run depth' node m₃ = .error (.defect .missingArgument) m₄ →
      ∃ depth'' e s before f o args' s',
        Origin (.defect .missingArgument) ⟨depth', node, m₃⟩ ⟨depth'' + 1, .expr e, s⟩ ∧
        Turn depth'' e s before f o args' s' ∧ before ≠ [] ∧ args'.length < f.params.length) := by
  have hruns : Policy.readable.runs ⟨depth + 1, .expr (.call callee paren arguments), m⟩ := hn
  have hcallee : Policy.readable.runs ⟨depth, .expr callee, m⟩ :=
    Node.all_part hn (by simp [Node.parts])
  have ho := hm.obeys_readable
  have happlied : ∀ {f args' s}, Applies depth (.expr (.call callee paren arguments)) m f args' s →
      f.isGetter = true → f.params = [] := fun happlies =>
    (Policy.readable_lawful.after_applies hruns ho happlies).2.1.1
  refine ⟨?_, ?_, ?_, fun _ _ _ _ h => exists_chain_of_missing h⟩
  · intro f args' s vars happlies hs
    obtain ⟨rfl, -⟩ := happlies.length_params hc ha (happlied happlies)
    exact ⟨rfl, hs.bound (happlied happlies)⟩
  · intro hne f args' s happlies
    have hlen := (happlies.length_params hc ha (happlied happlies)).2 hne
    exact ⟨hlen, fun this frame hvars => Nat.ne_of_lt (callVars_eq_missing hvars).2 hlen.symm⟩
  · intro before f o args' m₃ ht
    have hwaiting : Policy.readable.waiting f ∧ args' = args := by
      cases ht with
      | chain hc' ha' =>
        obtain ⟨-, -, hv⟩ := (Policy.readable_lawful.run_keeps depth hcallee ho).ok hc'
        cases hc.symm.trans hc'
        cases ha.symm.trans ha'
        exact ⟨hv.1 f (by simp), rfl⟩
    obtain ⟨⟨hname, hget, -⟩, rfl⟩ := hwaiting
    refine ⟨rfl, fun hlen => ht.run_eq_missing hname ?_ hlen⟩
    -- a getter has no parameters that could lack an argument
    by_contra hf
    rw [hget (Bool.eq_true_of_not_eq_false hf)] at hlen
    cases hlen

private def plainClass : Stmt :=
  .classDecl (.ident "A" 1) none [⟨.ident "m" 1, [], [], false, false⟩]

/-- A subclass of it whose method has one. -/
private def longerClass : Stmt :=
  .classDecl (.ident "B" 1) (some (.ident "A" 1, .free))
    [⟨.ident "m" 1, [.ident "a" 1], [.print (.variable (.ident "a" 1) (.hops 0))], false, false⟩]

private def longerDeclared : Machine :=
  leftBy 1 (.stmt longerClass) (leftBy 1 (.stmt plainClass) (.start false 0))

private theorem longerDeclared_ran : longerDeclared.Ran Node.isReadable := by
  have hplain : (Node.stmt plainClass).all Node.isReadable = true := by decide +kernel
  have hlonger : (Node.stmt longerClass).all Node.isReadable = true := by decide +kernel
  exact ((Machine.Ran.start false 0).ended hplain (endsIn_leftBy ..)).ended hlonger (endsIn_leftBy ..)

private def longerMethods : Expr :=
  .get (.call (.variable (.ident "B" 1) .free) ⟨.rightParen, ")", .nil, 1⟩ []) (.ident "m" 1)

/-- Whether a run ends with a chain of two methods, of which the first takes no arguments and completes
and the second has a parameter. -/
private def endsWithLonger : EStateM.Result Exit Machine Value → Bool
  | .ok (.chain _ [f, g] o) m =>
    f.arity == 0 && 0 < g.params.length &&
      match applyChain (run 3) o [] [f] .nil m with
      | .ok _ _ => true
      | .error _ _ => false
  | _ => false

/-- Without arguments the first method is run, and the second one ends the call. -/
theorem arguments_bound_longer : ∃ m', run 4
    (.expr (.call longerMethods ⟨.rightParen, ")", .nil, 1⟩ [])) longerDeclared =
      .error (.defect .missingArgument) m' := by
  have hreadable : (Node.expr (.call longerMethods ⟨.rightParen, ")", .nil, 1⟩ [])).all
      Node.isReadable = true := by decide +kernel
  have hends : endsWithLonger (run 3 (.expr longerMethods) longerDeclared) = true := by decide +kernel
  unfold endsWithLonger at hends
  split at hends
  · next id f g o m₁ hc =>
    simp only [Bool.and_eq_true, beq_iff_eq, decide_eq_true_eq] at hends
    obtain ⟨⟨harity, hlen⟩, hfirst⟩ := hends
    split at hfirst
    · next r m₃ hb =>
      obtain ⟨-, -, hturn, -⟩ := arguments_bound longerDeclared_ran hreadable hc rfl
      have hc' : run 3 (.expr longerMethods) longerDeclared = .ok (.chain id ([f] ++ g :: []) o) m₁ :=
        hc
      have hn : arity? (.chain id ([f] ++ g :: []) o) = some ([] : List Value).length :=
        congrArg some harity
      exact ⟨_, (hturn [f] g o [] m₃ (.chain hc' rfl hn hb)).2 hlen⟩
    · cases hfirst
  · cases hends

/-- A method is redefined with a parameter more and called without arguments. -/
def longerText : Text where
  source := "class A{m(){}}class B<A{m(a){print a;}}B().m();"
  echoes := false

private def longerProgram : List Stmt :=
  [plainClass, longerClass, .expression (.call longerMethods ⟨.rightParen, ")", .nil, 1⟩ [])]

private def lacksArgument : EStateM.Result Exit Machine Unit → Bool
  | .error (.defect .missingArgument) _ => true
  | _ => false

/-- The number of arguments passes the check, and the run breaks down in binding the parameter. -/
theorem arguments_not_bound : ∃ v s',
    Session.run longerText.source longerText.echoes (.new true 0) = .ok v s' ∧
      s'.reports.back? = some (.failure "IndexError") := by
  have hadmits : Admits ⟨longerText.source, false⟩ longerProgram := .of_yields (by decide +kernel)
  have hlacks : lacksArgument (course longerProgram (.start false 0)) = true := by decide +kernel
  unfold lacksArgument at hlacks
  split at hlacks
  · next m hcourse =>
    obtain ⟨v, hv⟩ := Session.exists_run_finished hadmits (s := .new true 0) rfl
    exact ⟨v, _, hv, Session.finished_reports hcourse (by simp)⟩
  · cases hlacks

end Eval

end Lox
