import Lox.Proofs.Machine.Confined
import Lox.Proofs.Session.Reachable
import Lox.Proofs.Session.Statics

/-!
# Breaks in a session

Resolving does not ask where a break stands. If every break of the texts belongs to a loop of its own
function, then a break ends exactly that loop; without that, a call may end a loop of its caller, or the
program.
-/

namespace Lox

open Eval Outcome

theorem Text.Enters.isConfined {t : Text} {program : List Stmt} {m : Machine} {v : Moment}
    (h : t.Enters program m v) (hp : Stmt.areConfined false program = true) :
    v.node.isConfined false = true := by
  have hstmt : ∀ {ss m v}, Interpreted ss m v → Stmt.areConfined false ss = true →
      v.node.isConfined false = true := by
    intro ss m v h hss
    induction h with
    | here => exact Stmt.areConfined_iff.1 hss _ (by simp)
    | later _ _ ih =>
      exact ih (Stmt.areConfined_iff.2 fun s hs => Stmt.areConfined_iff.1 hss s (by simp [hs]))
  obtain ⟨e, rfl, henters, -⟩ | ⟨henters, -⟩ := Session.carryOut_cases t program
  · rw [(henters m v).1 h]
    exact Stmt.areConfined_iff.1 hp (.expression e) (by simp)
  · exact hstmt ((henters m v).1 h) hp

namespace Session

theorem confined_persists {programs : List Stmt → Prop} :
    Persists programs (fun v => v.node.isConfined false = true) (Machine.Obeys .confined) where
  ends {node m} hm _ hr := by
    have hruns : Policy.confined.runs ⟨bound, node, m⟩ := ⟨false, hr⟩
    have hk := Policy.confined_lawful.run_keeps bound hruns hm
    cases hrun : Eval.run bound node m with
    | ok v m' => exact (hk.ok hrun).2.1
    | error e m' => exact (hk.error hrun).2.1
  write hm line := hm.congr rfl rfl

theorem Enters.confined {s : Session} {texts : List Text} {traced : Bool} {clock : Clock}
    (hstart : s.machine = .start traced clock) (hflag : s.flags.error = false)
    (hadmits : ∀ t ∈ texts, ∃ program, Admits t program)
    (hconfined : ∀ t ∈ texts, Stmt.areConfined false t.statements = true) {v : Moment}
    (h : s.Enters texts v) :
    v.node.isConfined false = true ∧ v.machine.Obeys .confined := by
  have hroots : ∀ {texts : List Text} {s : Session} {v},
      (∀ t ∈ texts, Stmt.areConfined false t.statements = true) → s.Enters texts v →
        v.node.isConfined false = true := by
    intro texts
    induction texts with
    | nil => exact fun _ h => h.elim
    | cons t texts ih =>
      rintro s v hconfined (⟨program, ht, h⟩ | h)
      · refine h.isConfined ?_
        rw [Scope.resolve_isConfined ht.resolved]
        exact hconfined t (by simp)
      · exact ih (fun t ht => hconfined t (by simp [ht])) h
  have hcalm : s.machine.Obeys .confined := by
    rw [hstart]
    exact Machine.obeys_start trivial
  refine ⟨hroots hconfined h, ?_⟩
  exact (confined_persists.entered
    (fun t ht program hp => (⟨t, ht, hp⟩ : admitted texts program)) (fun _ h => hroots hconfined h)
    hadmits hcalm hflag h).2

/-- Some texts are admitted and run one after another in a session that has run nothing before, and
every break in them belongs to a loop of its own function. Then no statement that a program consists of
ends with a break, and no expression does, whatever it calls. A statement ends so if and only if it
comes to a break of its own activation outside all loops in it. A break that is come to has a loop
around it in the same activation, and the innermost one has ended with it, normally and in the
environment in which it started. -/
theorem break_ends_loop {s : Session} {texts : List Text} {traced : Bool} {clock : Clock}
    (hstart : s.machine = .start traced clock) (hflag : s.flags.error = false)
    (hadmits : ∀ t ∈ texts, ∃ program, Admits t program)
    (hconfined : ∀ t ∈ texts, Stmt.areConfined false t.statements = true) :
    (∀ v, s.Enters texts v → ∀ m', Eval.run v.depth v.node v.machine ≠ .error .broke m') ∧
    (∀ v outer e, Visited (s.Enters texts) (v :: outer) → v.node = .expr e →
      ∀ m', Eval.run v.depth v.node v.machine ≠ .error .broke m') ∧
    (∀ v outer t, Visited (s.Enters texts) (v :: outer) → v.node = .stmt t →
      ∀ m', Eval.run v.depth v.node v.machine = .error .broke m' ↔
        ∃ m, Breaks v.depth t v.machine m ∧ m' = { m with env := v.machine.env }) ∧
    (∀ depth keyword m outer,
      Visited (s.Enters texts) (⟨depth + 1, .stmt (.breakStmt keyword), m⟩ :: outer) →
      ∃ loop, enclosingLoop? outer = some loop ∧
        (Eval.run loop.depth loop.node loop.machine =
            .ok .nil { m with env := loop.machine.env } ∨
          ∃ m', Eval.run loop.depth loop.node loop.machine = .error .exhausted m')) := by
  have hroots : ∀ v, s.Enters texts v →
      v.node.isConfined false = true ∧ v.machine.Obeys .confined :=
    fun v hv => Enters.confined hstart hflag hadmits hconfined hv
  refine ⟨?_, ?_, ?_, ?_⟩
  · intro v hv m' h
    obtain ⟨hnode, ho⟩ := hroots v hv
    exact avoids_broke hnode ho _ m' h rfl
  · rintro ⟨depth, node, m⟩ outer e hv rfl m' h
    obtain ⟨⟨inLoop, he⟩, ho⟩ := hv.confined hroots
    have hnode : (Node.expr e).isConfined false = true := he
    exact avoids_broke hnode ho _ m' h rfl
  · rintro ⟨depth, node, m⟩ outer t hv rfl m'
    obtain ⟨ht, ho⟩ := hv.confined hroots
    exact broke_iff ht ho
  · intro depth keyword m outer hv
    exact Visited.exists_loop_of_breaks hroots hv rfl .here

/-- A function with a loop of its own is called in a loop. -/
def loopsText : Text where
  source := "fun f(){while(true)break;}while(true){f();break;}"
  echoes := false

def loopsBreak : Stmt := .breakStmt ⟨.kwBreak, "break", .nil, 1⟩

def loopsInner : Stmt := .whileStmt (.literal (.bool true)) loopsBreak

def loopsCall : Expr := .call (.variable (.ident "f" 1) .free) ⟨.rightParen, ")", .nil, 1⟩ []

def loopsBody : Stmt := .block [.expression loopsCall, loopsBreak]

def loopsFunction : Stmt := .funDecl ⟨.ident "f" 1, [], [loopsInner], false, false⟩

def loopsOuter : Stmt := .whileStmt (.literal (.bool true)) loopsBody

theorem loopsText_admits : Admits loopsText [loopsFunction, loopsOuter] := .of_yields (by decide +kernel)

def loopsDepth : Nat := bound - 6

def loopsClosure : Closure := ⟨0, some "f", [], [loopsInner], [0], false, false, false⟩

def loopsMachine : Machine :=
  { Machine.start false 0 with
    frames := #[.named ((Table.empty.insert "clock" (.native .clock)).insert "f"
      (.function loopsClosure))]
    fresh := 1 }

/-- The machine in the block around the call. -/
def loopsOutside : Machine := loopsMachine.enter loopsMachine.env .empty

def loopsInside : Machine := loopsOutside.enter [0] (Table.empty.insert "this" .nil)

def loopsMoments : List Moment :=
  [⟨loopsDepth + 1, .stmt loopsBreak, loopsInside⟩, ⟨loopsDepth + 2, .stmt loopsInner, loopsInside⟩,
    ⟨loopsDepth + 3, .expr loopsCall, loopsOutside⟩,
    ⟨loopsDepth + 4, .stmt (.expression loopsCall), loopsOutside⟩,
    ⟨loopsDepth + 5, .stmt loopsBody, loopsMachine⟩,
    ⟨loopsDepth + 6, .stmt loopsOuter, loopsMachine⟩]

theorem visited_loopsMoments :
    Visited ((Session.new true 0).Enters [loopsText]) loopsMoments := by
  have hdeclare : Eval.run bound (.stmt loopsFunction) (.start false 0) = .ok .nil loopsMachine :=
    rfl
  have hroot : (Session.new true 0).Enters [loopsText]
      ⟨loopsDepth + 6, .stmt loopsOuter, loopsMachine⟩ :=
    .inl ⟨_, loopsText_admits, .later (.inl hdeclare) .here⟩
  have hcallee : Eval.run (loopsDepth + 2) (.expr (.variable (.ident "f" 1) .free)) loopsOutside =
      .ok (.function loopsClosure) loopsOutside := rfl
  have hstarts : Starts loopsClosure [] loopsOutside (Table.empty.insert "this" .nil) :=
    ⟨.nil, rfl, rfl⟩
  have hcall : Reaches (loopsDepth + 2) (.expr loopsCall) loopsOutside (.stmt loopsInner)
      loopsInside :=
    .call (.function hcallee rfl rfl) hstarts (List.nil_append _).symm rfl
  have houter := (Visited.root hroot).nested (.loopBody .none rfl rfl)
  exact (((houter.nested (.block (List.nil_append _).symm rfl)).nested .expression).nested
    hcall).nested (.loopBody .none rfl rfl)

/-- The break in the function ends the loop of the function. -/
theorem break_ends_loop_called :
    enclosingLoop? loopsMoments.tail = some ⟨loopsDepth + 2, .stmt loopsInner, loopsInside⟩ ∧
      (Eval.run (loopsDepth + 2) (.stmt loopsInner) loopsInside = .ok .nil loopsInside ∨
        ∃ m', Eval.run (loopsDepth + 2) (.stmt loopsInner) loopsInside = .error .exhausted m') := by
  have hadmits : ∀ t ∈ [loopsText], ∃ program, Admits t program := by
    intro t ht
    rw [List.mem_singleton.1 ht]
    exact ⟨_, loopsText_admits⟩
  have hconfined : ∀ t ∈ [loopsText], Stmt.areConfined false t.statements = true := by
    intro t ht
    rw [List.mem_singleton.1 ht, ← Scope.resolve_isConfined loopsText_admits.resolved]
    rfl
  obtain ⟨-, -, -, hbreak⟩ := break_ends_loop (s := .new true 0) rfl rfl hadmits hconfined
  obtain ⟨loop, hloop, hend⟩ := hbreak _ _ _ _ visited_loopsMoments
  obtain rfl : _ = loop := Option.some.inj hloop
  exact ⟨rfl, hend⟩

/-- A function without a loop breaks, and is called in a loop. -/
def strayBreak : Text where
  source := "fun f(){break;}while(true)f();print nil;"
  echoes := false

def loneBreak : Text where
  source := "break;"
  echoes := false

/-- The texts are admitted. The call in the loop ends the loop, and what follows it is run; the break
outside all loops reaches the program. -/
theorem break_leaves_function :
    strayBreak.complaints = [] ∧
      ((new true 0).left (run strayBreak.source strayBreak.echoes)).machine.out = #[.shown "nil"] ∧
      ((new true 0).left (run strayBreak.source strayBreak.echoes)).reports = #[] ∧
      ((new true 0).left (run loneBreak.source loneBreak.echoes)).reports =
        #[.failure "BreakException"] := by
  decide +kernel

end Session

end Lox
