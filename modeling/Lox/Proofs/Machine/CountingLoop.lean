import Lox.Proofs.Machine.Bounds
import Lox.Proofs.Machine.Calls
import Lox.Proofs.Scope.Checks
import Lox.Proofs.Scope.Forms
import Lox.Proofs.Tree.Same
import Lox.Token.Scan
import Lox.Tree.Parse

/-!
# Counting loops

A counting loop is read as a conditional loop in blocks. Here it is given a meaning of its own, in terms
of its parts, and the tree that is read has this meaning.

## Main results

* `CountingLoop.tree_runs`: the tree of a loop does what the loop does, if a round that ends with an
  increment is a scope of its own.
* `CountingLoop.plain_runs_differently`: without that scope the loop may leave another function behind.

## Design notes

Running nodes is bounded, and the blocks in the tree count towards the bound. `ComesTo` leaves the
bound out, so that a loop and its tree can be compared.

The initializer has a scope of its own, which all rounds share. Whether a round that ends with an
increment is a scope too is a parameter: names in the body and the increment are resolved with it, and a
frame is opened for it. It shows in the functions that are made in the body, since a call looks for a
receiver in the innermost frame of the function.
-/

namespace Lox

open Eval Outcome

namespace Eval

variable {r : Ending} {m : Machine}

/-- Running a node has an outcome for some bound on nesting that is not reached. -/
def ComesTo (node : Node) (m : Machine) (r : Ending) : Prop :=
  ∃ depth, run depth node m = r ∧ ∀ m', r ≠ .error .exhausted m'

namespace ComesTo

variable {node : Node} {m : Machine} {r r' : Ending}

theorem eventually (h : ComesTo node m r) :
    ∃ depth, ∀ depth' ≥ depth, run depth' node m = r := by
  obtain ⟨depth, rfl, hsettled⟩ := h
  refine ⟨depth, fun depth' hle => ?_⟩
  obtain hsame | ⟨m', hexhausted⟩ := run_mono hle node m
  · exact hsame
  · exact absurd hexhausted (hsettled m')

theorem settled (h : ComesTo node m r) (m' : Machine) : r ≠ .error .exhausted m' := by
  obtain ⟨-, -, hsettled⟩ := h
  exact hsettled m'

theorem of_run (depth : Nat) (h : run depth node m = r) (hr : ∀ m', r ≠ .error .exhausted m') :
    ComesTo node m r := ⟨depth, h, hr⟩

end ComesTo

/-- What a block makes of how its statements end: it has no value, and its scope is left. -/
def leave (env : Env) : Ending → Ending
  | .ok _ m => .ok .nil { m with env := env }
  | .error e m => .error e { m with env := env }

def Ending.env : Ending → Env
  | .ok _ m => m.env
  | .error _ m => m.env

theorem env_leave (env : Env) (r : Ending) : (leave env r).env = env := by
  cases r <;> rfl

/-- What a statement makes of how its expression ends. -/
def discard : Ending → Ending
  | .ok _ m => .ok .nil m
  | .error e m => .error e m

theorem leave_discard (env : Env) (r : Ending) : leave env (discard r) = leave env r := by
  cases r <;> rfl

theorem settled_leave {env : Env} :
    (∀ m, leave env r ≠ .error .exhausted m) ↔ ∀ m, r ≠ .error .exhausted m := by
  cases r with
  | ok v m => simp [leave]
  | error e m => simp [leave]

theorem settled_discard : (∀ m, discard r ≠ .error .exhausted m) ↔ ∀ m, r ≠ .error .exhausted m := by
  cases r <;> simp [discard]

theorem comesTo_literal {value : Literal} :
    ComesTo (.expr (.literal value)) m r ↔ r = .ok (.ofLiteral value) m := by
  constructor
  · intro h
    obtain ⟨depth, hdepth⟩ := h.eventually
    exact (hdepth (depth + 1) (Nat.le_succ depth)).symm
  · rintro rfl
    exact .of_run 1 rfl (by simp)

theorem run_expression (depth : Nat) (e : Expr) (m : Machine) :
    run (depth + 1) (.stmt (.expression e)) m = discard (run depth (.expr e) m) := by
  change (do let _ ← run depth (.expr e); return Value.nil : Run Value) m = _
  cases h : run depth (.expr e) m with
  | ok v m' => rw [bind_of_ok h]; rfl
  | error e m' => rw [bind_of_error h]; rfl

theorem comesTo_expression {e : Expr} :
    ComesTo (.stmt (.expression e)) m r ↔ ∃ r', ComesTo (.expr e) m r' ∧ r = discard r' := by
  constructor
  · intro h
    obtain ⟨depth, hdepth⟩ := h.eventually
    have hrun := hdepth (depth + 1) (Nat.le_succ depth)
    rw [run_expression] at hrun
    exact ⟨_, .of_run _ rfl (settled_discard.1 (hrun ▸ h.settled)), hrun.symm⟩
  · rintro ⟨r', h, rfl⟩
    obtain ⟨depth, hdepth⟩ := h.eventually
    refine .of_run (depth + 1) ?_ (settled_discard.2 h.settled)
    rw [run_expression, hdepth depth (Nat.le_refl depth)]

theorem execIn_eq_ok {rec : Recur} {env : Env} {vars : Table Value} {body : List Stmt}
    {m' : Machine} (h : execAll rec body (m.enter env vars) = .ok () m') :
    execIn rec env vars body m = .ok () { m' with env := m.env } := by
  change Run.within (m.frames.size :: env) (execAll rec body)
    { m with frames := m.frames.push (.named vars) } = _
  unfold Run.within
  unfold Machine.enter at h
  rw [h]

theorem run_block_pair (depth : Nat) (first second : Stmt) (m : Machine) :
    run (depth + 1) (.stmt (.block [first, second])) m =
      match run depth (.stmt first) (m.enter m.env .empty) with
      | .ok _ m' => leave m.env (run depth (.stmt second) m')
      | .error e m' => leave m.env (.error e m') := by
  have hblock : run (depth + 1) (.stmt (.block [first, second])) m =
      (execIn (run depth) m.env .empty [first, second] >>= fun _ => pure Value.nil) m := rfl
  have hall : execAll (run depth) [first, second] = (do
      let _ ← run depth (.stmt first)
      let _ ← run depth (.stmt second)) := by
    simp [execAll]
  rw [hblock]
  cases hfirst : run depth (.stmt first) (m.enter m.env .empty) with
  | error e m' =>
    exact bind_of_error (execIn_eq_error.2 ⟨m', by rw [hall, bind_of_error hfirst], rfl⟩)
  | ok v m' =>
    dsimp only
    cases hsecond : run depth (.stmt second) m' with
    | error e m'' =>
      refine bind_of_error (execIn_eq_error.2 ⟨m'', ?_, rfl⟩)
      rw [hall, bind_of_ok hfirst, bind_of_error hsecond]
    | ok w m'' =>
      have hbody : execAll (run depth) [first, second] (m.enter m.env .empty) = .ok () m'' := by
        rw [hall, bind_of_ok hfirst, bind_of_ok hsecond]
        rfl
      exact bind_of_ok (execIn_eq_ok hbody)

theorem comesTo_block_pair {first second : Stmt} :
    ComesTo (.stmt (.block [first, second])) m r ↔
      (∃ v m' r', ComesTo (.stmt first) (m.enter m.env .empty) (.ok v m') ∧
        ComesTo (.stmt second) m' r' ∧ r = leave m.env r') ∨
      ∃ e m', ComesTo (.stmt first) (m.enter m.env .empty) (.error e m') ∧
        r = leave m.env (.error e m') := by
  constructor
  · intro h
    -- the block is one deeper than its statements, so it is run with a bound that is one larger
    obtain ⟨depth, hdepth⟩ := h.eventually
    have hrun := hdepth (depth + 1) (Nat.le_succ depth)
    have hsettled := h.settled
    rw [← hrun] at hsettled ⊢
    rw [run_block_pair] at hsettled ⊢
    cases hfirst : run depth (.stmt first) (m.enter m.env .empty) with
    | ok v m' =>
      rw [hfirst] at hsettled
      exact .inl ⟨v, m', _, .of_run _ hfirst (by simp), .of_run _ rfl (settled_leave.1 hsettled), rfl⟩
    | error e m' =>
      rw [hfirst] at hsettled
      exact .inr ⟨e, m', .of_run _ hfirst (settled_leave.1 hsettled), rfl⟩
  · rintro (⟨v, m', r', hfirst, hsecond, rfl⟩ | ⟨e, m', hfirst, rfl⟩)
    · obtain ⟨depth₁, hdepth₁⟩ := hfirst.eventually
      obtain ⟨depth₂, hdepth₂⟩ := hsecond.eventually
      refine .of_run (max depth₁ depth₂ + 1) ?_ (settled_leave.2 hsecond.settled)
      rw [run_block_pair, hdepth₁ _ (Nat.le_max_left _ _)]
      dsimp only
      rw [hdepth₂ _ (Nat.le_max_right _ _)]
    · obtain ⟨depth, hdepth⟩ := hfirst.eventually
      refine .of_run (depth + 1) ?_ (settled_leave.2 hfirst.settled)
      rw [run_block_pair, hdepth depth (Nat.le_refl depth)]

end Eval

/-! ### The loop by its parts -/

/-- The parts of a counting loop. -/
structure CountingLoop where
  init? : Option Stmt
  condition? : Option Expr
  increment? : Option Expr
  body : Stmt

namespace CountingLoop

variable {l : CountingLoop} {m : Machine} {r : Ending}

def tree (l : CountingLoop) : Stmt :=
  Tree.Grammar.desugarFor l.init? l.condition? l.increment? l.body

section Resolving

open Scope Scope.Resolving

def scopedIf {α : Type} (needed : Bool) (x : Resolving α) : Resolving α :=
  if needed then inScope .empty x else x

/-- Resolves the parts in the order in which they stand in the tree. The initializer has a scope
around the whole loop. With `framed`, an increment has one that it shares with the body. -/
def resolve (l : CountingLoop) (framed : Bool) : Resolving CountingLoop :=
  scopedIf l.init?.isSome do
    let init? ← l.init?.mapM Stmt.resolve
    let condition? ← l.condition?.mapM Expr.resolve
    scopedIf (framed && l.increment?.isSome) do
      let body ← l.body.resolve
      let increment? ← l.increment?.mapM Expr.resolve
      return ⟨init?, condition?, increment?, body⟩

end Resolving

def Tests (l : CountingLoop) (m : Machine) (r : Ending) : Prop :=
  match l.condition? with
  | some condition => ComesTo (.expr condition) m r
  | none => r = .ok (.bool true) m

/-- The machine on which the body of a round is run. -/
def opened : Bool → Machine → Machine
  | true, m => m.enter m.env .empty
  | false, m => m

/-- One round: the body and, if that is completed, the increment once. With `framed`, a round that ends
with an increment is a scope. -/
inductive Round (l : CountingLoop) (framed : Bool) (m : Machine) : Ending → Prop where
  | bare {r : Ending} (hn : l.increment? = none) (hb : ComesTo (.stmt l.body) m r) : Round l framed m r
  | counted {increment : Expr} {v : Value} {m' : Machine} {r : Ending}
      (hn : l.increment? = some increment)
      (hb : ComesTo (.stmt l.body) (opened framed m) (.ok v m'))
      (hi : ComesTo (.expr increment) m' r) : Round l framed m (leave m.env r)
  | cut {increment : Expr} {e : Exit} {m' : Machine} (hn : l.increment? = some increment)
      (hb : ComesTo (.stmt l.body) (opened framed m) (.error e m')) :
      Round l framed m (leave m.env (.error e m'))

/-- The rounds from a machine on. The condition is tested before each of them. A break ends them all,
and any other exit leaves the loop. -/
inductive Rounds (l : CountingLoop) (framed : Bool) : Machine → Ending → Prop where
  | done {m m' : Machine} {v : Value} (ht : l.Tests m (.ok v m')) (hv : v.isTruthy = false) :
      Rounds l framed m (.ok .nil m')
  | untested {m m' : Machine} {e : Exit} (ht : l.Tests m (.error e m')) : Rounds l framed m (.error e m')
  | next {m m' m'' : Machine} {v w : Value} {r : Ending} (ht : l.Tests m (.ok v m'))
      (hv : v.isTruthy = true) (hr : l.Round framed m' (.ok w m'')) (hmore : Rounds l framed m'' r) :
      Rounds l framed m r
  | broken {m m' m'' : Machine} {v : Value} (ht : l.Tests m (.ok v m')) (hv : v.isTruthy = true)
      (hr : l.Round framed m' (.error .broke m'')) : Rounds l framed m (.ok .nil m'')
  | left {m m' m'' : Machine} {v : Value} {e : Exit} (ht : l.Tests m (.ok v m'))
      (hv : v.isTruthy = true) (hr : l.Round framed m' (.error e m'')) (he : e ≠ .broke) :
      Rounds l framed m (.error e m'')

/-- The loop: the initializer, once and in a scope of its own, and then the rounds. -/
inductive Runs (l : CountingLoop) (framed : Bool) (m : Machine) : Ending → Prop where
  | bare {r : Ending} (hn : l.init? = none) (hr : l.Rounds framed m r) : Runs l framed m r
  | initialized {init : Stmt} {v : Value} {m' : Machine} {r : Ending} (hn : l.init? = some init)
      (hi : ComesTo (.stmt init) (m.enter m.env .empty) (.ok v m')) (hr : l.Rounds framed m' r) :
      Runs l framed m (leave m.env r)
  | failed {init : Stmt} {e : Exit} {m' : Machine} (hn : l.init? = some init)
      (hi : ComesTo (.stmt init) (m.enter m.env .empty) (.error e m')) :
      Runs l framed m (leave m.env (.error e m'))

/-! ### Resolving -/

theorem resolve_tree (l : CountingLoop) : l.tree.resolve = tree <$> l.resolve true := by
  obtain ⟨init?, condition?, increment?, body⟩ := l
  -- the blocks of the tree are the scopes of the parts, in each of the eight shapes
  cases init? <;> cases condition? <;> cases increment? <;>
    simp [tree, Tree.Grammar.desugarFor, resolve, scopedIf, Stmt.resolve, Stmt.resolveAll,
      Expr.resolve, Scope.Resolving.inScope]

open Scope.Resolving in
theorem init_of_resolve {l' : CountingLoop} {s s' : Scope.Resolution} (h : l.resolve true s = .ok l' s') :
    l'.init?.isSome = l.init?.isSome := by
  have hscoped : ∀ {α : Type} {needed : Bool} {x : Scope.Resolving α} {p : α → Prop},
      Gives x p → Gives (scopedIf needed x) p := by
    intro α needed x p hx
    unfold scopedIf
    split
    · exact hx.inScope .empty
    · exact hx
  have hinit : Gives (l.init?.mapM Stmt.resolve) fun init? => init?.isSome = l.init?.isSome := by
    cases l.init? with
    | none => exact .pure rfl
    | some init => exact .next fun init' => .pure rfl
  have hall : Gives (l.resolve true) fun l' => l'.init?.isSome = l.init?.isSome :=
    hscoped (hinit.bind fun _ hi => .next fun _ => hscoped (.next fun _ => .next fun _ => .pure hi))
  exact hall s l' s' h

/-! ### Running -/

def round (l : CountingLoop) : Stmt :=
  match l.increment? with
  | some increment => .block [l.body, .expression increment]
  | none => l.body

def loop (l : CountingLoop) : Stmt :=
  .whileStmt (l.condition?.getD (.literal (.bool true))) l.round

theorem tree_eq (l : CountingLoop) :
    l.tree = match l.init? with
      | some init => .block [init, l.loop]
      | none => l.loop := rfl

theorem comesTo_condition :
    ComesTo (.expr (l.condition?.getD (.literal (.bool true)))) m r ↔ l.Tests m r := by
  unfold Tests
  cases l.condition? with
  | none => exact comesTo_literal
  | some condition => exact Iff.rfl

theorem comesTo_round : ComesTo (.stmt l.round) m r ↔ l.Round true m r := by
  cases hn : l.increment? with
  | none =>
    have hround : l.round = l.body := by rw [round, hn]
    rw [hround]
    constructor
    · exact .bare hn
    · rintro (⟨-, hb⟩ | ⟨hn', -, -⟩ | ⟨hn', -⟩)
      · exact hb
      · rw [hn] at hn'
        cases hn'
      · rw [hn] at hn'
        cases hn'
  | some increment =>
    have hround : l.round = .block [l.body, .expression increment] := by rw [round, hn]
    rw [hround, comesTo_block_pair]
    constructor
    · rintro (⟨v, m', r', hb, hi, rfl⟩ | ⟨e, m', hb, rfl⟩)
      · obtain ⟨r'', hincrement, rfl⟩ := comesTo_expression.1 hi
        rw [leave_discard]
        exact .counted hn hb hincrement
      · exact .cut hn hb
    · rintro (⟨hn', -⟩ | ⟨hn', hb, hi⟩ | ⟨hn', hb⟩)
      · rw [hn] at hn'
        cases hn'
      · rw [hn] at hn'
        cases hn'
        exact .inl ⟨_, _, _, hb, comesTo_expression.2 ⟨_, hi, rfl⟩, (leave_discard _ _).symm⟩
      · exact .inr ⟨_, _, hb, rfl⟩

theorem rounds_of_loop {depth rounds : Nat}
    (h : Eval.loop (run depth) (l.condition?.getD (.literal (.bool true))) l.round rounds m = r)
    (hr : ∀ m', r ≠ .error .exhausted m') : l.Rounds true m r := by
  induction rounds generalizing m with
  -- no rounds are left: the bound is reached, which is no ending
  | zero => exact absurd h.symm (hr m)
  | succ rounds ih =>
    unfold Eval.loop at h
    cases htest : run depth (.expr (l.condition?.getD (.literal (.bool true)))) m with
    | error e m' =>
      rw [htest] at h
      subst h
      exact .untested (comesTo_condition.1 (.of_run _ htest hr))
    | ok v m' =>
      have htests := comesTo_condition.1 (.of_run _ htest (by simp))
      rw [htest] at h
      dsimp only at h
      cases hv : v.isTruthy with
      | false =>
        rw [hv] at h
        subst h
        exact .done htests hv
      | true =>
        rw [hv, if_pos rfl] at h
        cases hround : run depth (.stmt l.round) m' with
        | ok w m'' =>
          rw [hround] at h
          exact .next htests hv (comesTo_round.1 (.of_run _ hround (by simp))) (ih h)
        | error e m'' =>
          rw [hround] at h
          by_cases he : e = .broke
          · subst he
            subst h
            exact .broken htests hv (comesTo_round.1 (.of_run _ hround (by simp)))
          · have hleft : r = .error e m'' := by
              cases e <;> simp_all
            subst hleft
            exact .left htests hv (comesTo_round.1 (.of_run _ hround hr)) he

theorem Tests.settled (h : l.Tests m r) (m' : Machine) :
    r ≠ .error .exhausted m' := (comesTo_condition.2 h).settled m'

theorem Round.settled (h : l.Round true m r) (m' : Machine) :
    r ≠ .error .exhausted m' := (comesTo_round.2 h).settled m'

theorem Rounds.settled (h : l.Rounds true m r) (m' : Machine) : r ≠ .error .exhausted m' := by
  induction h with
  | done => simp
  | untested ht => exact ht.settled m'
  | next _ _ _ _ ih => exact ih
  | broken => simp
  | left _ _ hr _ => exact hr.settled m'

theorem Rounds.loop_eq (h : l.Rounds true m r) :
    ∃ enough, ∀ depth ≥ enough, ∀ rounds ≥ enough,
      Eval.loop (run depth) (l.condition?.getD (.literal (.bool true))) l.round (rounds + 1) m = r := by
  -- the bound on nesting serves all rounds, while each takes one off the bound on rounds
  induction h with
  | done ht hv =>
    obtain ⟨depth, htest⟩ := (comesTo_condition.2 ht).eventually
    refine ⟨depth, fun depth' hd rounds _ => ?_⟩
    simp only [Eval.loop, htest depth' hd, hv, Bool.false_eq_true, if_false]
  | untested ht =>
    obtain ⟨depth, htest⟩ := (comesTo_condition.2 ht).eventually
    refine ⟨depth, fun depth' hd rounds _ => ?_⟩
    simp only [Eval.loop, htest depth' hd]
  | next ht hv hr _ ih =>
    obtain ⟨depth₁, htest⟩ := (comesTo_condition.2 ht).eventually
    obtain ⟨depth₂, hround⟩ := (comesTo_round.2 hr).eventually
    obtain ⟨enough, hmore⟩ := ih
    refine ⟨depth₁ + depth₂ + enough + 1, fun depth' hd rounds hn => ?_⟩
    obtain ⟨rounds, rfl⟩ : ∃ n, rounds = n + 1 := ⟨rounds - 1, by omega⟩
    rw [Eval.loop]
    simp only [htest depth' (by omega), hv, if_true, hround depth' (by omega)]
    exact hmore depth' (by omega) rounds (by omega)
  | broken ht hv hr | left ht hv hr =>
    obtain ⟨depth₁, htest⟩ := (comesTo_condition.2 ht).eventually
    obtain ⟨depth₂, hround⟩ := (comesTo_round.2 hr).eventually
    refine ⟨depth₁ + depth₂, fun depth' hd rounds _ => ?_⟩
    simp only [Eval.loop, htest depth' (by omega), hv, if_true, hround depth' (by omega)]

theorem comesTo_loop : ComesTo (.stmt l.loop) m r ↔ l.Rounds true m r := by
  constructor
  · intro h
    obtain ⟨depth, hdepth⟩ := h.eventually
    exact rounds_of_loop (hdepth (depth + 1) (Nat.le_succ depth)) h.settled
  · intro h
    obtain ⟨enough, hloop⟩ := h.loop_eq
    exact .of_run (enough + 2) (hloop (enough + 1) (Nat.le_succ _) enough (Nat.le_refl _)) h.settled

theorem comesTo_tree : ComesTo (.stmt l.tree) m r ↔ l.Runs true m r := by
  cases hn : l.init? with
  | none =>
    have htree : l.tree = l.loop := by rw [tree_eq, hn]
    rw [htree, comesTo_loop]
    constructor
    · exact .bare hn
    · rintro (⟨-, hr⟩ | ⟨hn', -, -⟩ | ⟨hn', -⟩)
      · exact hr
      · rw [hn] at hn'
        cases hn'
      · rw [hn] at hn'
        cases hn'
  | some init =>
    have htree : l.tree = .block [init, l.loop] := by rw [tree_eq, hn]
    rw [htree, comesTo_block_pair]
    constructor
    · rintro (⟨v, m', r', hi, hr, rfl⟩ | ⟨e, m', hi, rfl⟩)
      · exact .initialized hn hi (comesTo_loop.1 hr)
      · exact .failed hn hi
    · rintro (⟨hn', -⟩ | ⟨hn', hi, hr⟩ | ⟨hn', hi⟩)
      · rw [hn] at hn'
        cases hn'
      · rw [hn] at hn'
        cases hn'
        exact .inl ⟨_, _, _, hi, comesTo_loop.2 hr, rfl⟩
      · rw [hn] at hn'
        cases hn'
        exact .inr ⟨_, _, hi, rfl⟩

theorem Runs.env (h : l.Runs true m r) (hi : l.init?.isSome = true) : Ending.env r = m.env := by
  cases h with
  | bare hn => simp [hn] at hi
  | initialized => exact env_leave _ _
  | failed => exact env_leave _ _

theorem held_of_resolve {tree : Stmt} {s s' : Scope.Resolution} (h : l.tree.resolve s = .ok tree s')
    (hi : l.init?.isSome = true) : s'.held = s.held := by
  have hdeclared : l.tree.declared = [] := by
    obtain ⟨init, hinit⟩ := Option.isSome_iff_exists.1 hi
    rw [tree_eq, hinit]
    rfl
  have hleads := Stmt.resolve_leads l.tree h
  rw [hdeclared] at hleads
  exact hleads.held_eq

/-- The tree as which a counting loop is read, once it is resolved, does what the loop does: it is the
tree of the resolved parts, and it ends as the loop ends, from every machine. After a loop with an
initializer the names in scope and the environment are those before it. -/
theorem tree_runs {l : CountingLoop} {tree : Stmt} {s s' : Scope.Resolution}
    (h : l.tree.resolve s = .ok tree s') :
    ∃ l' : CountingLoop, l.resolve true s = .ok l' s' ∧ tree = l'.tree ∧
      (∀ m r, ComesTo (.stmt tree) m r ↔ l'.Runs true m r) ∧
      (l.init?.isSome = true → s'.held = s.held ∧
        ∀ m r, ComesTo (.stmt tree) m r → Ending.env r = m.env) := by
  have hparts := h
  rw [resolve_tree, map_eq_pure_bind] at hparts
  obtain ⟨l', s₁, hl', hpure⟩ := bind_eq_ok.1 hparts
  obtain ⟨rfl, rfl⟩ := pure_eq_ok.1 hpure
  refine ⟨l', hl', rfl, fun _ _ => comesTo_tree, fun hi => ⟨held_of_resolve h hi, fun m r hr => ?_⟩⟩
  exact (comesTo_tree.1 hr).env ((init_of_resolve hl').trans hi)

def once : CountingLoop where
  init? := some (.varDecl (.ident "going" 1) (some (.literal (.bool true))))
  condition? := some (.variable (.ident "going" 1) .free)
  increment? := some (.assign (.ident "going" 1) .free (.literal (.bool false)))
  body := .print (.variable (.ident "going" 1) .free)

theorem tree_runs_once :
    (Tree.parse (Token.scan
      "for (var going = true; going; going = false) print going;").tokens).statements = [once.tree] ∧
    ∃ tree s', once.tree.resolve (.start true) = .ok tree s' ∧
      ∃ l' m', once.resolve true (.start true) = .ok l' s' ∧
        l'.Runs true (.start false 0) (.ok .nil m') ∧ m'.out = #[.shown "true"] ∧
        m'.env = Machine.globals := by
  have hcomesTo : ∀ tree s', once.tree.resolve (.start true) = .ok tree s' →
      ∃ m', ComesTo (.stmt tree) (.start false 0) (.ok .nil m') ∧ m'.out = #[.shown "true"] ∧
        m'.env = Machine.globals := by
    intro tree s' h
    -- the addresses of the resolved parts, written out
    obtain rfl : tree = CountingLoop.tree { once with
        condition? := some (.variable (.ident "going" 1) (.hops 0))
        increment? := some (.assign (.ident "going" 1) (.hops 1) (.literal (.bool false)))
        body := .print (.variable (.ident "going" 1) (.hops 1)) } := by
      cases h
      rfl
    exact ⟨_, .of_run 10 rfl (by simp), rfl, rfl⟩
  obtain ⟨tree, s', h⟩ : ∃ tree s', once.tree.resolve (.start true) = .ok tree s' := ⟨_, _, rfl⟩
  obtain ⟨m', hm', hout, henv⟩ := hcomesTo tree s' h
  obtain ⟨l', hl', -, hruns, -⟩ := tree_runs h
  exact ⟨Stmt.eq_of_sameAll (by decide +kernel), tree, s', h, l', m', hl', (hruns _ _).1 hm', hout, henv⟩

/-- The function that is made in a loop. -/
def madeBody : List Stmt := [.returnStmt ⟨.kwReturn, "return", .nil, 1⟩ (some (.literal (.bool true)))]

def unmade (address : Address) : Expr := .unary ⟨.bang, "!", .nil, 1⟩ (.variable (.ident "f" 1) address)

def make (address : Address) : Stmt :=
  .expression (.assign (.ident "f" 1) address (.lambda [] madeBody))

/-- A loop that makes a function, in one round. -/
def making : CountingLoop := ⟨none, some (unmade .free), some (.literal .nil), make .free⟩

/-- Resolving in a method that has declared `f`. -/
def inMethod : Scope.Resolution :=
  { Scope.Resolution.start true with
    scopes := [Table.empty.insert "f" ⟨true, true⟩, Table.empty.insert "this" ⟨true, true⟩]
    function? := some .method
    inClass := true }

/-- The machine in such a method, with what `f` holds. -/
def methodMachine (f : Value) : Machine :=
  let this := Table.empty.insert "this" (.object ⟨0, .mk 0 "C" none .empty .empty⟩)
  { Machine.start false 0 with
    frames := #[.named .empty, .named this, .named (this.insert "f" f)]
    fields := #[.empty]
    env := [2, 1, 0]
    fresh := 1 }

/-- The machine after a round that is no scope. -/
def plainMade : Machine :=
  { methodMachine (.function ⟨1, none, [], madeBody, [2, 1, 0], false, false, false⟩) with fresh := 2 }

/-- The call of the function that was made. -/
def callMade : Expr := .call (.variable (.ident "f" 1) (.hops 0)) ⟨.rightParen, ")", .nil, 1⟩ []

/-- In a method, the loop whose rounds are no scopes makes a function that cannot be called: the function
finds the receiver of the method in its innermost frame, and has no name to go on with. The function that
the tree of the loop makes can be called. -/
theorem plain_runs_differently :
    (Tree.parse (Token.scan
      "for (; !f; nil) f = fun () { return true; };").tokens).statements = [making.tree] ∧
    ∃ tree s plain s' m m', making.tree.resolve inMethod = .ok tree s ∧
      making.resolve false inMethod = .ok plain s' ∧
      ComesTo (.stmt tree) (methodMachine .nil) (.ok .nil m) ∧
      plain.Runs false (methodMachine .nil) (.ok .nil m') ∧
      (∃ m₁, ComesTo (.expr callMade) m (.ok (.bool true) m₁)) ∧
      ∃ m₁, ComesTo (.expr callMade) m' (.error (.defect .unnamedFunction) m₁) := by
  obtain ⟨plain, s', hplain⟩ : ∃ plain s', making.resolve false inMethod = .ok plain s' := ⟨_, _, rfl⟩
  obtain ⟨tree, s, htree⟩ : ∃ tree s, making.tree.resolve inMethod = .ok tree s := ⟨_, _, rfl⟩
  have hscoped : ∃ m, ComesTo (.stmt tree) (methodMachine .nil) (.ok .nil m) ∧
      ∃ m₁, ComesTo (.expr callMade) m (.ok (.bool true) m₁) := by
    cases htree
    exact ⟨_, .of_run 10 rfl (by simp), _, .of_run 10 rfl (by simp)⟩
  -- one round, after which there is a function and the condition no longer holds
  have hruns : ∃ m', plain.Runs false (methodMachine .nil) (.ok .nil m') ∧
      ∃ m₁, ComesTo (.expr callMade) m' (.error (.defect .unnamedFunction) m₁) := by
    cases hplain
    have htest : ComesTo (.expr (unmade (.hops 0))) (methodMachine .nil)
        (.ok (.bool true) (methodMachine .nil)) := .of_run 10 rfl (by simp)
    have hbody : ComesTo (.stmt (make (.hops 0))) (methodMachine .nil) (.ok .nil plainMade) :=
      .of_run 10 rfl (by simp)
    have hdone : ComesTo (.expr (unmade (.hops 0))) plainMade (.ok (.bool false) plainMade) :=
      .of_run 10 rfl (by simp)
    have hround : Round ⟨none, some (unmade (.hops 0)), some (.literal .nil), make (.hops 0)⟩ false
        (methodMachine .nil) (leave [2, 1, 0] (.ok .nil plainMade)) :=
      .counted rfl hbody (comesTo_literal.2 rfl)
    exact ⟨plainMade, .bare rfl (.next htest rfl hround (.done hdone rfl)), _, .of_run 10 rfl (by simp)⟩
  obtain ⟨m, hm, hcalled⟩ := hscoped
  obtain ⟨m', hm', hfailed⟩ := hruns
  exact ⟨Stmt.eq_of_sameAll (by decide +kernel), tree, s, plain, s', m, m', htree, hplain, hm, hm', hcalled, hfailed⟩

end CountingLoop

end Lox
