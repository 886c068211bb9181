import Lox.Proofs.Machine.Recast
import Lox.Proofs.Scope.Recast
import Lox.Proofs.Session.Run

/-!
# Sessions on other lines

What a session does depends neither on the lines of tokens, nor on what was written or reported
before, nor on the flag of warnings.
-/

namespace Lox

open Outcome

def Report.relined (f : Nat → Nat) : Report → Report
  | .scanning complaint => .scanning { complaint with line := f complaint.line }
  | .reading lastLine complaint =>
    .reading (f lastLine) { complaint with token? := complaint.token?.map (Token.relined f) }
  | .scoping notice => .scoping (notice.relined f)
  | .running token fault => .running (token.relined f) fault
  | .failure category => .failure category
  | .noSuchFile path => .noSuchFile path
  | .misuse message => .misuse message

/-- What is changed: the lines, the output and the reports, which some others come before, and the flag
of warnings, which may have been raised before. -/
structure Session.Recasting extends Lox.Recasting where
  filed : Array Report
  warned : Bool

def Flags.recast (warned : Bool) (flags : Flags) : Flags :=
  { flags with warning := warned || flags.warning }

/-- A session with its lines changed, with more output and reports before its own, and with a warning
before it. -/
def Session.recast (c : Session.Recasting) (s : Session) : Session :=
  { s with
    machine := s.machine.recast c.toRecasting
    flags := s.flags.recast c.warned
    reports := c.filed ++ s.reports.map (Report.relined c.line) }

variable {α β : Type}

abbrev Step.Recasts (c : Session.Recasting) (value : α → β) (x : Step α) (y : Step β)
    (s : Session) : Prop :=
  Mirrors (Session.recast c) (Exit.relined c.line) value x y s

theorem Flags.recast_false (flags : Flags) : flags.recast false = flags := by
  simp [Flags.recast]

@[simp] theorem Flags.raise_recast (warned : Bool) (flags : Flags) (report : Report)
    (f : Nat → Nat) :
    (flags.recast warned).raise (report.relined f) = (flags.raise report).recast warned := by
  cases report with
  | scoping notice =>
    cases notice <;> simp [Flags.raise, Flags.recast, Report.relined, Scope.Notice.relined]
  | _ => rfl

namespace Session

open Step

variable {c : Session.Recasting} {s : Session}

theorem recasts_file (report : Report) :
    Recasts c id (file report) (file (report.relined c.line)) s :=
  .modify (by simp [Session.recast])

theorem recasts_onMachine {value : α → β} {x : Run α} {y : Run β}
    (h : Run.Recasts c.toRecasting value x y s.machine) :
    Recasts c value (onMachine x) (onMachine y) s := by
  change onMachine y (s.recast c) = Outcome.recast _ _ _ (onMachine x s)
  unfold onMachine
  cases hx : x s.machine with
  | ok a m =>
    have hy : y (s.recast c).machine = _ := h.ok hx
    rw [hy]
    rfl
  | error e m =>
    have hy : y (s.recast c).machine = _ := h.error hx
    rw [hy]
    rfl

theorem recasts_write (line : Line) : Recasts c id (write line) (write line) s :=
  recasts_onMachine (Run.recasts_write line)

theorem recasts_runNode (node : Node) :
    Recasts c (Value.relined c.line) (runNode node) (runNode (node.relined c.line)) s :=
  recasts_onMachine (Eval.recasts_run c.toRecasting _ node _)

theorem recasts_runFaulted (token : Token) (fault : Fault) :
    Recasts c (Value.relined c.line) (runFaulted token fault)
      (runFaulted (token.relined c.line) fault) s :=
  (recasts_file (.running token fault)).bind fun _ _ => .pure rfl

theorem recasts_interpret (last : Value) (statements : List Stmt) :
    Recasts c (Value.relined c.line) (interpret last statements)
      (interpret (last.relined c.line) (Stmt.relinedAll c.line statements)) s := by
  induction statements generalizing last s with
  | nil => exact .pure rfl
  | cons t ts ih =>
    have hnode := recasts_runNode (c := c) (s := s) (.stmt t)
    change interpret _ (t.relined c.line :: Stmt.relinedAll c.line ts) (s.recast c) =
      Outcome.recast _ _ _ (interpret last (t :: ts) s)
    unfold interpret
    cases hx : runNode (.stmt t) s with
    | ok v s' =>
      have hy : runNode (.stmt (t.relined c.line)) (s.recast c) = _ := hnode.ok hx
      rw [hy]
      exact ih v
    | error e s' =>
      have hy : runNode (.stmt (t.relined c.line)) (s.recast c) = _ := hnode.error hx
      rw [hy]
      cases e with
      | returned v => exact ih v
      | fault token cause => exact recasts_runFaulted token cause
      | _ => rfl

theorem recasts_recordFailure (intro category message : String) :
    Recasts c id (recordFailure intro category message) (recordFailure intro category message) s :=
  (recasts_write _).bind fun _ _ => recasts_file (.failure category)

theorem recasts_runFailed (exit : Exit) :
    Recasts c (Value.relined c.line) (runFailed exit) (runFailed (exit.relined c.line)) s := by
  have hcategory : (exit.relined c.line).category = exit.category := by cases exit <;> rfl
  have hmessage : (exit.relined c.line).message = exit.message := by cases exit <;> rfl
  unfold runFailed
  rw [hcategory, hmessage]
  exact (recasts_recordFailure _ _ _).bind fun _ _ => .pure rfl

/-- A program is run in the same way on other lines. -/
theorem recasts_interpretSafely (statements : List Stmt) :
    Recasts c (Value.relined c.line) (interpretSafely statements)
      (interpretSafely (Stmt.relinedAll c.line statements)) s := by
  have hprogram := recasts_interpret (c := c) (s := s) .nil statements
  change interpretSafely (Stmt.relinedAll c.line statements) (s.recast c) =
    Outcome.recast _ _ _ (interpretSafely statements s)
  unfold interpretSafely
  cases hx : interpret .nil statements s with
  | ok v s' =>
    have hy : interpret .nil (Stmt.relinedAll c.line statements) (s.recast c) = _ := hprogram.ok hx
    rw [hy]
    rfl
  | error e s' =>
    have hy : interpret .nil (Stmt.relinedAll c.line statements) (s.recast c) = _ :=
      hprogram.error hx
    rw [hy]
    exact recasts_runFailed e

theorem recasts_echo (e : Expr) :
    Recasts c (Value.relined c.line) (echo e) (echo (e.relined c.line)) s := by
  have hvalue := Run.recasts_catchReturn (Eval.recasts_run c.toRecasting Eval.bound (.expr e) s.machine)
  refine (recasts_onMachine hvalue).bind fun v s₁ => ?_
  rw [Value.print_relined]
  refine (recasts_onMachine (Run.recasts_ofExcept_self _)).bind fun text s₂ => ?_
  exact (recasts_write _).bind fun _ _ => .pure rfl

end Session

end Lox
