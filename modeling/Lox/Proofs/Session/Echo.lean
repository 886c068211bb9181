import Lox.Proofs.Machine.Bounds
import Lox.Proofs.Session.Course

/-!
# Showing the value of a line

At the prompt a line that is a single expression shows its value. That is all that sets it apart
from the same line without a prompt, as long as there is a value that can be shown. If there is
none, nothing is reported: what went wrong leaves the line and ends the prompt.
-/

namespace Lox

open Eval Outcome

/-- Within a depth an expression has a value that can be shown. -/
def Eval.Shows (depth : Nat) (e : Expr) (m : Machine) : Prop :=
  ∃ v m' text, run depth (.expr e) m = .ok v m' ∧ v.print = .ok text

theorem Eval.run_of_ok {depth depth' : Nat} (hle : depth ≤ depth') {node : Node} {m m' : Machine}
    {v : Value} (h : run depth node m = .ok v m') : run depth' node m = .ok v m' := by
  obtain hsame | ⟨m'', hexhausted⟩ := run_mono hle node m
  · exact hsame.trans h
  · rw [h] at hexhausted
    cases hexhausted

theorem Eval.exists_bound_eq_succ : ∃ depth, bound = depth + 1 := ⟨bound - 1, by decide⟩

namespace Session

variable {s s' : Session} {source : String}

/-! ### Texts that are carried out -/

def heard (s : Session) (source : String) : Session :=
  ({ s with started := true } : Session).filed (Text.mk source false).complaints

def begun (s : Session) (source : String) : Session :=
  (s.heard source).filed
    ((Scope.resolve true (Text.mk source false).statements).reached.notices.map .scoping)

def carried? (s : Session) (source : String) : Option (List Stmt) :=
  match (Scope.resolve true (Text.mk source false).statements).statements with
  | .ok program => if s.attached && (s.begun source).flags.error then none else some program
  | .error _ => none

theorem run_eq_begun (source : String) (echoes : Bool) (s : Session) :
    run source echoes s =
      if s.attached && (s.heard source).flags.error then .ok .nil (s.heard source)
      else
        match (Scope.resolve true (Text.mk source false).statements).statements with
        | .ok program =>
          if s.attached && (s.begun source).flags.error then .ok .nil (s.begun source)
          else carryOut ⟨source, echoes⟩ program (s.begun source)
        | .error d => .error (.defect d) (s.begun source) := by
  have hread : run source echoes s =
      (do if ← stopped then return Value.nil
          proceed ⟨source, echoes⟩) (s.heard source) := run_eq ⟨source, echoes⟩ s
  rw [hread, bind_of_ok (stopped_eq _)]
  change (if s.attached && (s.heard source).flags.error then (pure .nil : Step Value)
    else proceed ⟨source, echoes⟩) (s.heard source) = _
  split
  · rfl
  · unfold proceed
    have hresolve : resolve true (Text.mk source echoes).statements (s.heard source) =
        match (Scope.resolve true (Text.mk source false).statements).statements with
        | .ok program => .ok program (s.begun source)
        | .error d => .error (.defect d) (s.begun source) := resolve_eq _ _ _
    cases hprogram : (Scope.resolve true (Text.mk source false).statements).statements with
    | error d =>
      rw [hprogram] at hresolve
      exact bind_of_error hresolve
    | ok program =>
      rw [hprogram] at hresolve
      rw [bind_of_ok hresolve, bind_of_ok (stopped_eq _)]
      change (if s.attached && (s.begun source).flags.error then (pure .nil : Step Value)
        else carryOut ⟨source, echoes⟩ program) (s.begun source) = _
      dsimp only
      split <;> rfl

theorem heard_error (h : (s.attached && (s.begun source).flags.error) = false) :
    (s.attached && (s.heard source).flags.error) = false := by
  unfold begun at h
  rw [filed_error, Bool.and_or_distrib_left, Bool.or_eq_false_iff] at h
  exact h.1

theorem run_of_carried {program : List Stmt} (h : s.carried? source = some program) (echoes : Bool) :
    run source echoes s = carryOut ⟨source, echoes⟩ program (s.begun source) := by
  unfold carried? at h
  split at h
  · next program' hprogram =>
    split at h
    · cases h
    · next hgoes =>
      cases h
      have hbegun := Bool.eq_false_iff.2 hgoes
      rw [run_eq_begun, heard_error hbegun, hprogram]
      dsimp only
      rw [hbegun]
      rfl
  · cases h

/-- A text with nothing wrong with it is carried out. -/
theorem carried?_of_admits {program : List Stmt} (h : Admits ⟨source, false⟩ program)
    (hs : s.flags.error = false) :
    s.carried? source = some program := by
  have hbegun : (s.begun source).flags.error = false := by
    unfold begun heard
    rw [filed_error, filed_error, h.complaints, h.clean.any_isError]
    simpa using hs
  unfold carried?
  rw [h.resolved, hbegun, Bool.and_false]
  rfl

/-- A text that is read without errors has a program. -/
theorem exists_program_of_heard (h : (s.heard source).flags.error = false) :
    ∃ program, (Scope.resolve true (Text.mk source false).statements).statements = .ok program := by
  refine Text.exists_resolved ?_
  by_contra hne
  unfold heard at h
  rw [filed_error, Text.any_isError_complaints hne, Bool.or_true] at h
  cases h

/-- A text that is not a single expression is run in one way, whether or not values are shown. Only
a session that does not heed its flags can fail at it, and only for want of a program. -/
theorem exists_run_of_not_lone (h : ∀ e, s.carried? source ≠ some [.expression e]) :
    ∃ r, (∀ echoes, run source echoes s = r) ∧ ((∃ v s', r = .ok v s') ∨
      s.attached = false ∧ ∃ d s', r = .error (.defect d) s') := by
  cases hcarried : s.carried? source with
  | some program =>
    have hcarryOut : ∀ echoes, carryOut ⟨source, echoes⟩ program = interpretSafely program := by
      intro echoes
      obtain ⟨e, rfl, -⟩ | ⟨-, hsafely⟩ := carryOut_cases ⟨source, echoes⟩ program
      · exact absurd hcarried (h e)
      · exact hsafely
    refine ⟨interpretSafely program (s.begun source), fun echoes => ?_, .inl ?_⟩
    · rw [run_of_carried hcarried, hcarryOut]
    · exact exists_interpretSafely program (s.begun source)
  | none =>
    simp only [run_eq_begun]
    cases hheard : s.attached && (s.heard source).flags.error with
    | true => exact ⟨_, fun _ => rfl, .inl ⟨_, _, rfl⟩⟩
    | false =>
      unfold carried? at hcarried
      cases hprogram : (Scope.resolve true (Text.mk source false).statements).statements with
      | error d =>
        refine ⟨_, fun _ => rfl, .inr ⟨?_, d, _, rfl⟩⟩
        by_contra ha
        rw [Bool.not_eq_false] at ha
        rw [ha, Bool.true_and] at hheard
        obtain ⟨program, hp⟩ := exists_program_of_heard hheard
        rw [hp] at hprogram
        cases hprogram
      | ok program =>
        rw [hprogram] at hcarried
        dsimp only at hcarried
        split at hcarried
        · next hstop =>
          rw [hstop]
          exact ⟨_, fun _ => rfl, .inl ⟨_, _, rfl⟩⟩
        · cases hcarried

/-! ### Single expressions -/

theorem echo_eq (e : Expr) (s : Session) :
    echo e s =
      match Eval.run bound (.expr e) s.machine with
      | .ok v m =>
        match v.print with
        | .ok text => .ok v (({ s with machine := m } : Session).wrote (.echo text))
        | .error d => .error (.defect d) { s with machine := m }
      | .error exit m => .error exit { s with machine := m } := by
  have hcatch : Run.catchReturn (Eval.run bound (.expr e)) s.machine =
      Eval.run bound (.expr e) s.machine := by
    unfold Run.catchReturn
    split
    · next hreturned => exact absurd hreturned (returnless_expr bound e _ _ _)
    · rfl
  unfold echo
  cases hrun : Eval.run bound (.expr e) s.machine with
  | error exit m => exact bind_of_error (onMachine_of_error (hcatch.trans hrun))
  | ok v m =>
    rw [bind_of_ok (onMachine_of_ok (hcatch.trans hrun))]
    dsimp only
    cases v.print with
    | error d => rfl
    | ok text => rfl

theorem echo_eq_ok {e : Expr} {v : Value} :
    echo e s = .ok v s' ↔ ∃ m text, Eval.run bound (.expr e) s.machine = .ok v m ∧
      v.print = .ok text ∧ s' = ({ s with machine := m } : Session).wrote (.echo text) := by
  rw [echo_eq]
  cases Eval.run bound (.expr e) s.machine with
  | error exit m => simp
  | ok w m =>
    dsimp only
    cases htext : w.print with
    | error d => grind
    | ok text => grind

theorem echo_eq_fault {e : Expr} {token : Token} {fault : Fault} :
    echo e s = .error (.fault token fault) s' ↔
      ∃ m, Eval.run bound (.expr e) s.machine = .error (.fault token fault) m ∧
        s' = { s with machine := m } := by
  rw [echo_eq]
  cases Eval.run bound (.expr e) s.machine with
  | error exit m => grind
  | ok w m =>
    dsimp only
    cases w.print <;> simp

theorem run_expression {depth : Nat} (hdepth : bound = depth + 1) (e : Expr) :
    Eval.run bound (.stmt (.expression e)) =
      (do let _ ← Eval.run depth (.expr e); return .nil) := by
  rw [hdepth]
  rfl

theorem returnless_expression (e : Expr) :
    (Eval.run bound (.stmt (.expression e))).Returnless := by
  obtain ⟨depth, hdepth⟩ := exists_bound_eq_succ
  intro m v m' h
  rw [run_expression hdepth] at h
  obtain hreturned | ⟨w, m₁, -, hnil⟩ := bind_eq_error.1 h
  · exact returnless_expr depth e m v m' hreturned
  · cases hnil

/-- A single expression as a statement may nest one level less deep than it may on its own. -/
theorem course_expression {depth : Nat} (hdepth : bound = depth + 1) (e : Expr) (m : Machine) :
    course [.expression e] m =
      match Eval.run depth (.expr e) m with
      | .ok _ m' => .ok () m'
      | .error exit m' => .error exit m' := by
  unfold course execAll
  rw [run_expression hdepth]
  cases hrun : Eval.run depth (.expr e) m with
  | ok v m' => exact bind_of_ok (bind_of_ok hrun)
  | error exit m' => exact bind_of_error (bind_of_error hrun)

/-- If a text is run once with showing its value and once without, what is shown is all the
difference. -/
def EchoesOnly (s : Session) (source : String) : Prop :=
  run source true s = run source false s ∨
    ∃ w s' v text, run source false s = .ok w s' ∧ v.print = .ok text ∧
      run source true s = .ok v (s'.wrote (.echo text))

section Lone

variable {s : Session} {source : String} {e : Expr} (h : s.carried? source = some [.expression e])

include h

theorem run_true_of_lone : run source true s = echo e (s.begun source) := run_of_carried h true

theorem exists_run_false_of_lone :
    ∃ w, run source false s =
      .ok w ((s.begun source).finished (course [.expression e] s.machine)) := by
  have hreturnless : ∀ t ∈ [Stmt.expression e], (Eval.run bound (.stmt t)).Returnless := by
    intro t ht
    rw [List.mem_singleton.1 ht]
    exact returnless_expression e
  obtain ⟨w, hw⟩ := exists_interpretSafely_finished hreturnless (s.begun source)
  exact ⟨w, (run_of_carried h false).trans hw⟩

theorem echoesOnly_of_shows {depth : Nat} (hlt : depth < bound) (hshows : Shows depth e s.machine) :
    s.EchoesOnly source := by
  obtain ⟨v, m, text, hv, htext⟩ := hshows
  obtain ⟨depth', hdepth'⟩ := exists_bound_eq_succ
  obtain ⟨w, hfalse⟩ := exists_run_false_of_lone h
  rw [course_expression hdepth', run_of_ok (by omega) hv] at hfalse
  refine .inr ⟨w, _, v, text, hfalse, htext, ?_⟩
  rw [run_true_of_lone h]
  exact echo_eq_ok.2 ⟨m, text, run_of_ok hlt.le hv, htext, rfl⟩

theorem shows_of_echoesOnly (honly : s.EchoesOnly source) :
    ∃ depth < bound, Shows depth e s.machine := by
  obtain ⟨depth, hdepth⟩ := exists_bound_eq_succ
  obtain ⟨w, hfalse⟩ := exists_run_false_of_lone h
  obtain ⟨v, s', htrue, hreports⟩ : ∃ v s', run source true s = .ok v s' ∧
      s'.reports = ((s.begun source).finished (course [.expression e] s.machine)).reports := by
    obtain hsame | ⟨w', s', v, text, hfalse', -, htrue⟩ := honly
    · exact ⟨w, _, hsame.trans hfalse, rfl⟩
    · rw [hfalse] at hfalse'
      cases hfalse'
      exact ⟨v, _, htrue, rfl⟩
  rw [run_true_of_lone h] at htrue
  obtain ⟨m, text, hv, htext, rfl⟩ := echo_eq_ok.1 htrue
  obtain hsame | ⟨m', hexhausted⟩ := run_mono (by omega : depth ≤ bound) (.expr e) s.machine
  · exact ⟨depth, by omega, v, m, text, hsame.symm.trans hv, htext⟩
  · -- the statement reaches the bound, and only that is recorded
    rw [course_expression hdepth, hexhausted] at hreports
    simp [finished, failed, wrote, filed] at hreports

end Lone

/-! ### Lines -/

/-- A fault leaves a text if and only if the text is a single expression that shows its value, and
the expression ends with the fault. Nothing is then reported of it. -/
theorem run_eq_fault_iff {token : Token} {fault : Fault} :
    run source true s = .error (.fault token fault) s' ↔
      ∃ e m, s.carried? source = some [.expression e] ∧
        Eval.run bound (.expr e) s.machine = .error (.fault token fault) m ∧
        s' = { s.begun source with machine := m } := by
  by_cases hlone : ∃ e, s.carried? source = some [.expression e]
  · obtain ⟨e, he⟩ := hlone
    rw [run_true_of_lone he, echo_eq_fault]
    constructor
    · rintro ⟨m, hm, hs'⟩
      exact ⟨e, m, he, hm, hs'⟩
    · rintro ⟨e', m, he', hm, hs'⟩
      rw [he] at he'
      cases he'
      exact ⟨m, hm, hs'⟩
  · rw [not_exists] at hlone
    obtain ⟨r, hr, hends⟩ := exists_run_of_not_lone hlone
    rw [hr]
    constructor
    · rintro rfl
      obtain ⟨v, s₁, hok⟩ | ⟨-, d, s₁, hdefect⟩ := hends
      · cases hok
      · cases hdefect
    · rintro ⟨e, m, he, -⟩
      exact absurd he (hlone e)

theorem exists_run_eq_ok_iff (ha : s.attached = true) :
    (∃ v s', run source true s = .ok v s') ↔
      ∀ e, s.carried? source = some [.expression e] → Shows bound e s.machine := by
  by_cases hlone : ∃ e, s.carried? source = some [.expression e]
  · obtain ⟨e, he⟩ := hlone
    rw [run_true_of_lone he]
    constructor
    · rintro ⟨v, s', hv⟩ e' he'
      rw [he] at he'
      cases he'
      obtain ⟨m, text, hrun, htext, -⟩ := echo_eq_ok.1 hv
      exact ⟨v, m, text, hrun, htext⟩
    · intro hshows
      obtain ⟨v, m, text, hrun, htext⟩ := hshows e he
      exact ⟨v, _, echo_eq_ok.2 ⟨m, text, hrun, htext, rfl⟩⟩
  · rw [not_exists] at hlone
    obtain ⟨r, hr, hends⟩ := exists_run_of_not_lone hlone
    refine ⟨fun _ e he => absurd he (hlone e), fun _ => ?_⟩
    obtain ⟨v, s', hok⟩ | ⟨hdetached, -⟩ := hends
    · exact ⟨v, s', (hr true).trans hok⟩
    · rw [ha] at hdetached
      cases hdetached

theorem turn_eq_true_iff {line : String} (hline : line.isEmpty = false) (s : Session) :
    (∃ s', turn line s = .ok true s') ↔ ∃ v s', run line true s.prompted = .ok v s' := by
  rw [turn_of_nonempty hline]
  unfold answer
  cases hrun : run line true s.prompted with
  | ok v s' =>
    rw [bind_of_ok hrun]
    exact ⟨fun _ => ⟨v, s', rfl⟩, fun _ => ⟨_, rfl⟩⟩
  | error e s' =>
    rw [bind_of_error hrun]
    constructor
    · rintro ⟨s₁, hfailed⟩
      cases hfailed
    · rintro ⟨v, s₁, hok⟩
      cases hok

theorem carried?_prompted (s : Session) (source : String) :
    s.prompted.carried? source = s.carried? source := rfl

/-- Showing its value changes nothing else about a text if and only if the text is not carried out
as a single expression, or the expression has a value that can be shown. A fault leaves the text if
and only if it is carried out as a single expression that ends with the fault; then nothing is
reported of it. The prompt of a session that heeds its flags goes on after a line if and only if the
line is not carried out as a single expression, or the expression has a value that can be shown. -/
theorem echoesOnly_iff (s : Session) (source : String) :
    (s.EchoesOnly source ↔ ∀ e, s.carried? source = some [.expression e] →
      ∃ depth < bound, Shows depth e s.machine) ∧
    (∀ token fault s', run source true s = .error (.fault token fault) s' ↔
      ∃ e m, s.carried? source = some [.expression e] ∧
        Eval.run bound (.expr e) s.machine = .error (.fault token fault) m ∧
        s' = { s.begun source with machine := m }) ∧
    (s.attached = true → source.isEmpty = false →
      ((∃ s', turn source s = .ok true s') ↔
        ∀ e, s.carried? source = some [.expression e] → Shows bound e s.prompted.machine)) := by
  refine ⟨⟨fun honly e he => shows_of_echoesOnly he honly, fun hshows => ?_⟩,
    fun token fault s' => run_eq_fault_iff, fun ha hline => ?_⟩
  · by_cases hlone : ∃ e, s.carried? source = some [.expression e]
    · obtain ⟨e, he⟩ := hlone
      obtain ⟨depth, hlt, hdepth⟩ := hshows e he
      exact echoesOnly_of_shows he hlt hdepth
    · obtain ⟨r, hr, -⟩ := exists_run_of_not_lone (not_exists.1 hlone)
      exact .inl ((hr true).trans (hr false).symm)
  · rw [turn_eq_true_iff hline, exists_run_eq_ok_iff (s := s.prompted) ha, carried?_prompted]

/-- The fault of a line that reads an unknown variable leaves it, is not reported, and ends the
prompt. Without showing its value the line reports the fault. -/
theorem echo_leaks_fault :
    (∃ s', run "x;" true (new true 0) =
        .error (.fault (.ident "x" 1) (.undefinedVariable "x")) s' ∧
      s'.reports = #[] ∧ s'.flags.runtimeError = false) ∧
    (∃ w s', run "x;" false (new true 0) = .ok w s' ∧
      s'.reports = #[.running (.ident "x" 1) (.undefinedVariable "x")] ∧
      s'.flags.runtimeError = true) ∧
    ¬∃ s', turn "x;" (new true 0) = .ok true s' := by
  have hcarried : (new true 0).carried? "x;" = some unknownProgram :=
    carried?_of_admits unknown_admits rfl
  have hnotices : (Scope.resolve true (Text.mk "x;" false).statements).reached.notices = [] := by
    decide +kernel
  have hbegun : (new true 0).begun "x;" = { new true 0 with started := true } := by
    unfold begun heard
    rw [unknown_admits.complaints, hnotices]
    rfl
  refine ⟨?_, ?_, ?_⟩
  · have hfault : Eval.run bound (.expr (.variable (.ident "x" 1) .free)) (new true 0).machine =
        .error (.fault (.ident "x" 1) (.undefinedVariable "x")) (new true 0).machine := by
      rfl
    have hrun := run_eq_fault_iff.2 ⟨_, _, hcarried, hfault, rfl⟩
    rw [hbegun] at hrun
    exact ⟨_, hrun, rfl, rfl⟩
  · have hcourse : course unknownProgram (new true 0).machine =
        .error (.fault (.ident "x" 1) (.undefinedVariable "x")) (new true 0).machine := by
      rfl
    obtain ⟨w, hrun⟩ := exists_run_false_of_lone hcarried
    change run "x;" false (new true 0) =
      .ok w (((new true 0).begun "x;").finished (course unknownProgram _)) at hrun
    rw [hbegun, hcourse] at hrun
    exact ⟨w, _, hrun, rfl, rfl⟩
  · have hfault : Eval.run bound (.expr (.variable (.ident "x" 1) .free))
        (new true 0).prompted.machine =
          .error (.fault (.ident "x" 1) (.undefinedVariable "x"))
            (new true 0).prompted.machine := by
      rfl
    rw [turn_eq_true_iff (by decide), exists_run_eq_ok_iff (s := (new true 0).prompted) rfl]
    intro hshows
    obtain ⟨v, m, text, hv, -⟩ := hshows _ hcarried
    rw [hfault] at hv
    cases hv

end Session

end Lox
