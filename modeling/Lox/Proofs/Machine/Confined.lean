import Lox.Proofs.Machine.Obedience
import Lox.Proofs.Machine.Unwinding
import Lox.Proofs.Scope.Loops

/-!
# Where a break ends

A break unwinds to the innermost loop that is being run, in whatever function that loop stands. If every
break belongs to a loop of its own function, that is the loop around it: no expression ends with a
break, since every body that a call runs keeps its breaks.
-/

namespace Lox

open Eval Outcome

/-- Whether every break in a node belongs to a loop of its own function, the node itself standing in a
loop or not. -/
def Node.isConfined (inLoop : Bool) : Node → Bool
  | .expr e => e.isConfined
  | .stmt s => s.isConfined inLoop

theorem Node.exists_isConfined_part {inLoop : Bool} {node part : Node}
    (h : node.isConfined inLoop = true) (hp : part ∈ node.parts) :
    ∃ inLoop', part.isConfined inLoop' = true := by
  cases node with
  | expr e =>
    refine ⟨false, ?_⟩
    cases e <;> grind [Node.parts, Node.isConfined, Expr.isConfined, Expr.areConfined_iff]
  | stmt s =>
    cases s with
    | whileStmt condition body =>
      exact ⟨true, by grind [Node.parts, Node.isConfined, Stmt.isConfined]⟩
    | ifStmt condition onTrue onFalse? =>
      refine ⟨inLoop, ?_⟩
      cases onFalse? <;> grind [Node.parts, Node.isConfined, Stmt.isConfined]
    | returnStmt keyword value? =>
      refine ⟨inLoop, ?_⟩
      cases value? <;> grind [Node.parts, Node.isConfined, Stmt.isConfined]
    | _ => exact ⟨inLoop, by grind [Node.parts, Node.isConfined, Stmt.isConfined]⟩

/-! ### The policy -/

/-- Every break in a function belongs to a loop of it, and so do the breaks of the nodes that are
run. -/
def Policy.confined : Policy where
  callable f := Stmt.areConfined false f.body = true
  waiting f := Stmt.areConfined false f.body = true
  runs v := ∃ inLoop, v.node.isConfined inLoop = true
  frames _ := True

theorem Policy.confined_lawful : Policy.confined.Lawful where
  part h _ hp _ := h.elim fun _ h => Node.exists_isConfined_part h hp
  initializer h := ⟨false, h.elim fun _ h => h⟩
  block h hb _ _ := by
    obtain ⟨inLoop, h⟩ := h
    exact ⟨inLoop, Stmt.areConfined_iff.1 h _ (by simp [hb])⟩
  call _ _ _ hf hb _ _ := ⟨false, Stmt.areConfined_iff.1 hf _ (by simp [hb])⟩
  bind _ _ hf := hf
  inherit _ hf := hf
  lambda h := h.elim fun _ h => h
  function {_ f _} h := by
    obtain ⟨inLoop, h⟩ := h
    exact (Function.isConfined_eq f).symm.trans h
  method h hf _ _ _ := by
    obtain ⟨inLoop, h⟩ := h
    have hbody := Function.areConfined_iff.1 h _ hf
    unfold Policy.allows
    split
    · exact hbody
    · exact hbody
  push _ h := h
  write _ _ _ _ h := h

/-! ### Calls keep breaks -/

namespace Eval

variable {depth : Nat} {m m' : Machine}

theorem Reaches.stmt_isConfined {s t : Stmt} {inLoop : Bool}
    (hr : Reaches depth (.stmt s) m (.stmt t) m') (hs : s.isConfined inLoop = true) :
    t.isConfined (inLoop || s.isLoop) = true := by
  cases hr with
  | @onTrue condition _ onFalse? =>
    cases onFalse? <;> simp_all [Stmt.isConfined, Stmt.isLoop]
  | onFalse => simp_all [Stmt.isConfined, Stmt.isLoop]
  | loopBody => simp_all [Stmt.isConfined, Stmt.isLoop]
  | block hb =>
    have ht := Stmt.areConfined_iff.1 hs t (by simp [hb])
    simpa [Stmt.isLoop] using ht
  | call ha =>
    cases ha with
    | method hb => cases hb

theorem Reaches.expr_isConfined {e : Expr} {n : Node} (hr : Reaches depth (.expr e) m n m')
    (he : e.isConfined = true) (ho : m.Obeys .confined) : n.isConfined false = true := by
  have hruns : Policy.confined.runs ⟨depth + 1, .expr e, m⟩ := ⟨false, he⟩
  cases n with
  | expr x =>
    obtain ⟨⟨_, hx⟩, -⟩ := Policy.confined_lawful.reaches hruns ho hr
    exact hx
  | stmt t =>
    cases hr with
    | call ha _ hb _ =>
      obtain ⟨-, hf, -⟩ := Policy.confined_lawful.after_applies hruns ho ha
      exact Stmt.areConfined_iff.1 hf t (by simp [hb])

theorem avoids_broke {node : Node} (hnode : node.isConfined false = true) (ho : m.Obeys .confined) :
    (run depth node).AvoidsAt (· = .broke) m := by
  induction depth generalizing node m with
  | zero =>
    rintro e m' h rfl
    cases h
  | succ depth ih =>
    rintro exit m' h rfl
    have hruns : Policy.confined.runs ⟨depth + 1, node, m⟩ := ⟨false, hnode⟩
    have hreaches : ∀ {n m₁}, Reaches depth node m n m₁ → _ := Policy.confined_lawful.reaches hruns ho
    cases node with
    | expr e =>
      obtain hraises | ⟨n, m₁, m₂, hr, hn⟩ := traced_expr e _ m' h
      · cases hraises with
        | broke he => cases he
        | other hother => cases hother
      · exact ih (hr.expr_isConfined hnode ho) (hreaches hr).2 .broke m₂ hn rfl
    | stmt s =>
      have hexpr : ∀ x m₁, Reaches depth (.stmt s) m (.expr x) m₁ →
          (run depth (.expr x)).AvoidsAt (· = .broke) m₁ := by
        intro x m₁ hr
        obtain ⟨⟨_, hx⟩, ho₁⟩ := hreaches hr
        exact ih hx ho₁
      obtain ⟨keyword, rfl, -⟩ | ⟨_, _, _, -, he⟩ | ⟨hloop, t, m₁, m₂, hr, ht⟩ :=
        exists_reaches_of_unwinds (.inl rfl) hexpr h
      · cases hnode
      · cases he
      · have hs : s.isLoop = false := by
          by_contra hs
          exact hloop (Bool.eq_true_of_not_eq_false hs) rfl
        have hconfined := hr.stmt_isConfined hnode
        rw [hs, Bool.or_false] at hconfined
        have hnode' : (Node.stmt t).isConfined false = true := hconfined
        exact ih hnode' (hreaches hr).2 .broke m₂ ht rfl

/-! ### Statements that end with a break -/

/-- Running a statement comes to a break of the same activation outside all loops in the statement, on
the given machine. -/
inductive Breaks : Nat → Stmt → Machine → Machine → Prop where
  | here {depth : Nat} {keyword : Token} {m : Machine} :
      Breaks (depth + 1) (.breakStmt keyword) m m
  | inside {depth : Nat} {s t : Stmt} {m m₁ m' : Machine}
      (hr : Reaches depth (.stmt s) m (.stmt t) m₁) (hs : s.isLoop = false)
      (h : Breaks depth t m₁ m') : Breaks (depth + 1) s m m'

section Breaks

variable {s : Stmt} (hs : ∃ inLoop, s.isConfined inLoop = true) (ho : m.Obeys .confined)

include hs ho

theorem confined_of_reaches {n : Node} {m₁ : Machine} (hr : Reaches depth (.stmt s) m n m₁) :
    (∃ inLoop, n.isConfined inLoop = true) ∧ m₁.Obeys .confined := by
  have hruns : Policy.confined.runs ⟨depth + 1, .stmt s, m⟩ := hs
  exact Policy.confined_lawful.reaches hruns ho hr

theorem env_of_condition {c : Expr} {m₁ m₂ : Machine} {v : Value}
    (hr : Reaches depth (.stmt s) m (.expr c) m₁) (hc : run depth (.expr c) m₁ = .ok v m₂) :
    m₂.env = m₁.env := by
  obtain ⟨⟨inLoop, hconfined⟩, ho₁⟩ := confined_of_reaches hs ho hr
  have hruns : Policy.confined.runs ⟨depth, .expr c, m₁⟩ := ⟨inLoop, hconfined⟩
  exact ((Policy.confined_lawful.run_keeps depth hruns ho₁).ok hc).1

theorem run_of_broke {t : Stmt} {m₁ : Machine} (hr : Reaches depth (.stmt s) m (.stmt t) m₁)
    (hloop : s.isLoop = false)
    (ht : run depth (.stmt t) m₁ = .error .broke { m' with env := m₁.env }) :
    run (depth + 1) (.stmt s) m = .error .broke { m' with env := m.env } := by
  cases hr with
  | onTrue hc hv =>
    rw [env_of_condition hs ho .condition hc] at ht
    refine (bind_of_ok hc).trans ?_
    rw [if_pos hv]
    exact bind_of_error ht
  | onFalse hc hv =>
    rw [env_of_condition hs ho .condition hc] at ht
    refine (bind_of_ok hc).trans ?_
    rw [if_neg (by simp [hv])]
    exact bind_of_error ht
  | loopBody => cases hloop
  | @block body _ _ _ _ _ _ hb hbefore =>
    have hbody := execAll_eq_error.2 ⟨_, t, _, _, hb, hbefore, ht⟩
    change (execIn (run depth) m.env .empty body >>= fun _ => pure Value.nil) m = _
    exact bind_of_error (execIn_eq_error.2 ⟨_, hbody, rfl⟩)
  | call ha =>
    cases ha with
    | method hb => cases hb

end Breaks

/-- A break ends the statements around it, up to the loop. -/
theorem Breaks.run_eq {s : Stmt} (h : Breaks depth s m m')
    (hs : ∃ inLoop, s.isConfined inLoop = true) (ho : m.Obeys .confined) :
    run depth (.stmt s) m = .error .broke { m' with env := m.env } := by
  induction h with
  | here => rfl
  | inside hr hloop _ ih =>
    obtain ⟨ht, ho'⟩ := confined_of_reaches hs ho hr
    exact run_of_broke hs ho hr hloop (ih ht ho')

theorem broke_iff {s : Stmt} (hs : ∃ inLoop, s.isConfined inLoop = true) (ho : m.Obeys .confined) :
    run depth (.stmt s) m = .error .broke m' ↔
      ∃ m₁, Breaks depth s m m₁ ∧ m' = { m₁ with env := m.env } := by
  have hbreaks : ∀ {depth s m m'}, (∃ inLoop, s.isConfined inLoop = true) → m.Obeys .confined →
      run depth (.stmt s) m = .error .broke m' → ∃ m₁, Breaks depth s m m₁ := by
    intro depth
    induction depth with
    | zero => exact fun _ _ h => by cases h
    | succ depth ih =>
      intro s m m' hs ho h
      have hexpr : ∀ x m₁, Reaches depth (.stmt s) m (.expr x) m₁ →
          (run depth (.expr x)).AvoidsAt (· = .broke) m₁ := by
        intro x m₁ hr
        obtain ⟨⟨_, hx⟩, ho₁⟩ := confined_of_reaches hs ho hr
        exact avoids_broke hx ho₁
      obtain ⟨keyword, rfl, -⟩ | ⟨_, _, _, -, he⟩ | ⟨hloop, t, m₁, m₂, hr, ht⟩ :=
        exists_reaches_of_unwinds (.inl rfl) hexpr h
      · exact ⟨m, .here⟩
      · cases he
      · obtain ⟨ht', ho₁⟩ := confined_of_reaches hs ho hr
        obtain ⟨m₃, hb⟩ := ih ht' ho₁ ht
        exact ⟨m₃, .inside hr (Bool.eq_false_iff.2 fun h => hloop h rfl) hb⟩
  constructor
  · intro h
    obtain ⟨m₁, hb⟩ := hbreaks hs ho h
    exact ⟨m₁, hb, (EStateM.Result.error.inj (h.symm.trans (hb.run_eq hs ho))).2⟩
  · rintro ⟨m₁, hb, rfl⟩
    exact hb.run_eq hs ho

theorem Breaks.isConfined_eq_false {s : Stmt} (h : Breaks depth s m m') (ho : m.Obeys .confined) :
    s.isConfined false = false := by
  by_contra hs
  rw [Bool.not_eq_false] at hs
  have hnode : (Node.stmt s).isConfined false = true := hs
  exact avoids_broke hnode ho _ _ (h.run_eq ⟨false, hs⟩ ho) rfl

/-! ### Loops -/

theorem Rounds.loop_eq {condition : Expr} {body : Stmt} (h : Rounds depth condition body m m')
    (rounds : Nat) :
    (∃ left, loop (run depth) condition body rounds m = loop (run depth) condition body left m') ∨
      ∃ m₁, loop (run depth) condition body rounds m = .error .exhausted m₁ := by
  induction h with
  | none => exact .inl ⟨rounds, rfl⟩
  | @next m₁ m₂ m' v w hr hc hv hb ih =>
    obtain ⟨left, hleft⟩ | hend := ih
    · cases left with
      | zero => exact .inr ⟨m₁, hleft⟩
      | succ left =>
        refine .inl ⟨left, hleft.trans ?_⟩
        simp only [loop, hc, hv, if_true, hb]
    · exact .inr hend

theorem run_loop_of_breaks {condition : Expr} {body : Stmt} {m₁ : Machine}
    (hs : ∃ inLoop, (Stmt.whileStmt condition body).isConfined inLoop = true)
    (ho : m.Obeys .confined)
    (hr : Reaches depth (.stmt (.whileStmt condition body)) m (.stmt body) m₁)
    (h : Breaks depth body m₁ m') :
    run (depth + 1) (.stmt (.whileStmt condition body)) m = .ok .nil { m' with env := m.env } ∨
      ∃ m₂, run (depth + 1) (.stmt (.whileStmt condition body)) m = .error .exhausted m₂ := by
  have hruns : Policy.confined.runs ⟨depth + 1, .stmt (.whileStmt condition body), m⟩ := hs
  obtain ⟨hbody, ho₁⟩ := confined_of_reaches hs ho hr
  have hbroke := h.run_eq hbody ho₁
  cases hr with
  | @loopBody _ _ _ m₂ _ v hrounds hc hv =>
    obtain ⟨henv, -⟩ := Policy.confined_lawful.after_rounds hruns ho hrounds
    rw [env_of_condition hs ho (.loopCondition hrounds) hc, henv] at hbroke
    obtain ⟨left, hleft⟩ | hend := hrounds.loop_eq depth
    · cases left with
      | zero => exact .inr ⟨m₂, hleft⟩
      | succ left =>
        refine .inl (hleft.trans ?_)
        simp only [loop, hc, hv, if_true, hbroke]
    · exact .inr hend
  | call ha =>
    cases ha with
    | method hb => cases hb

end Eval

/-! ### Moments -/

/-- The innermost loop around a statement in its own activation: calls stand between it and what is
further out. -/
def enclosingLoop? : List Moment → Option Moment
  | [] => none
  | v :: outer =>
    match v.node with
    | .stmt s => if s.isLoop then some v else enclosingLoop? outer
    | .expr _ => none

section Visited

variable {roots : Moment → Prop}
  (hroots : ∀ v, roots v → v.node.isConfined false = true ∧ v.machine.Obeys .confined)
  {v : Moment} {outer : List Moment} (h : Visited roots (v :: outer))

include hroots h

theorem Visited.confined :
    (∃ inLoop, v.node.isConfined inLoop = true) ∧ v.machine.Obeys .confined :=
  Policy.confined_lawful.visited (fun v hv => ⟨⟨false, (hroots v hv).1⟩, (hroots v hv).2⟩) h

theorem Visited.exists_loop_of_breaks {s : Stmt} (hv : v.node = .stmt s) {m' : Machine}
    (hb : Breaks v.depth s v.machine m') :
    ∃ loop, enclosingLoop? outer = some loop ∧
      (run loop.depth loop.node loop.machine = .ok .nil { m' with env := loop.machine.env } ∨
        ∃ m₁, run loop.depth loop.node loop.machine = .error .exhausted m₁) := by
  generalize hm : v :: outer = moments at h
  induction h generalizing v outer s with
  | root hroot =>
    cases hm
    obtain ⟨hs, ho⟩ := hroots _ hroot
    rw [hv] at hs
    exact absurd hs (Bool.eq_false_iff.1 (hb.isConfined_eq_false ho))
  | @nested depth node node' m m₁ outer h hr ih =>
    cases hm
    obtain rfl : node' = .stmt s := hv
    obtain ⟨hnode, ho⟩ := Visited.confined hroots h
    cases node with
    | expr e =>
      obtain ⟨_, he⟩ := hnode
      have hs := hr.expr_isConfined he ho
      have ho' := (Visited.confined hroots (h.nested hr)).2
      exact absurd hs (Bool.eq_false_iff.1 (hb.isConfined_eq_false ho'))
    | stmt t =>
      by_cases hloop : t.isLoop = true
      · refine ⟨⟨depth + 1, .stmt t, m⟩, by simp [enclosingLoop?, hloop], ?_⟩
        cases t with
        | whileStmt condition body =>
          obtain rfl : s = body := by
            cases hr with
            | loopBody => rfl
            | call ha =>
              cases ha with
              | method hb => cases hb
          exact run_loop_of_breaks hnode ho hr hb
        | _ => cases hloop
      · have hfalse := Bool.eq_false_iff.2 hloop
        obtain ⟨loop, hl, hend⟩ := ih rfl (.inside hr hfalse hb) rfl
        exact ⟨loop, by simpa [enclosingLoop?, hfalse] using hl, hend⟩

end Visited

end Lox
