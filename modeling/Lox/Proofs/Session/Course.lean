import Lox.Proofs.Machine.Returns
import Lox.Proofs.Session.Reject
import Lox.Proofs.Session.Split

/-!
# The course of a program

The statements of a program are run in a row until one of them does not complete. A fault is
reported, any other failure is noted and recorded, and nothing of it leaves the program.
-/

namespace Lox

open Eval Outcome

variable {t : Text} {program : List Stmt}

/-- How the statements of a program end, if they are run in a row on a machine. -/
def Eval.course (program : List Stmt) (m : Machine) : EStateM.Result Exit Machine Unit :=
  execAll (run bound) program m

/-! ### Texts -/

theorem Text.any_isError_complaints (h : t.complaints ≠ []) :
    t.complaints.any Report.isError = true := by
  obtain ⟨report, hr⟩ := List.exists_mem_of_ne_nil _ h
  refine List.any_eq_true.2 ⟨report, hr, ?_⟩
  simp only [Text.complaints, List.mem_append, List.mem_map] at hr
  obtain ⟨_, -, rfl⟩ | ⟨_, -, rfl⟩ := hr
  · rfl
  · rfl

theorem Admits.isRejected (h : Admits t program) : t.isRejected = false := by
  unfold Text.isRejected
  rw [Text.reports_of_nil h.complaints]
  exact h.clean.any_isError

theorem Admits.unique {program' : List Stmt} (h : Admits t program) (h' : Admits t program') :
    program = program' :=
  Except.ok.inj (h.resolved.symm.trans h'.resolved)

theorem Text.isRejected_eq_false_iff : t.isRejected = false ↔ ∃ program, Admits t program := by
  constructor
  · intro h
    have hc : t.complaints = [] := by
      by_contra hne
      rw [Text.isRejected, Text.reports_of_ne_nil hne, Text.any_isError_complaints hne] at h
      cases h
    obtain ⟨program, hprogram⟩ := Text.exists_resolved hc
    obtain ⟨hscan, hread⟩ := List.append_eq_nil_iff.1 hc
    rw [Text.isRejected, Text.reports_of_nil hc, List.any_eq_false] at h
    refine ⟨program, List.map_eq_nil_iff.1 hscan, List.map_eq_nil_iff.1 hread, hprogram, ?_⟩
    intro token flaw hn
    exact h _ (List.mem_map_of_mem hn) rfl
  · rintro ⟨program, h⟩
    exact h.isRejected

theorem Admits.returnless (h : Admits t program) : ∀ s ∈ program, (run bound (.stmt s)).Returnless :=
  fun _ hs => ne_returned_of_resolved h.resolved h.clean hs bound

/-! ### Sessions -/

namespace Session

variable {program : List Stmt} {s : Session}

def wrote (s : Session) (line : Line) : Session :=
  { s with machine := { s.machine with out := s.machine.out.push line } }

/-- The session after a failure of a program was noted and recorded. -/
def failed (s : Session) (exit : Exit) : Session :=
  (s.wrote (.notice ("[异常] 执行时发生异常: " ++ exit.message))).filed [.failure exit.category]

/-- The session after the statements of a program have ended in the given way. -/
def finished (s : Session) : EStateM.Result Exit Machine Unit → Session
  | .ok _ m => { s with machine := m }
  | .error (.fault token fault) m =>
    ({ s with machine := m } : Session).filed [.running token fault]
  | .error exit m => ({ s with machine := m } : Session).failed exit

theorem runFailed_eq (exit : Exit) (s : Session) : runFailed exit s = .ok .nil (s.failed exit) := rfl

theorem runFaulted_eq (token : Token) (fault : Fault) (s : Session) :
    runFaulted token fault s = .ok .nil (s.filed [.running token fault]) := rfl

theorem exists_interpretSafely_finished (h : ∀ t ∈ program, (Eval.run bound (.stmt t)).Returnless)
    (s : Session) :
    ∃ v, interpretSafely program s = .ok v (s.finished (course program s.machine)) := by
  cases hcourse : course program s.machine with
  | ok u m =>
    obtain ⟨v, hv⟩ := interpret_append hcourse .nil
    refine ⟨v, ?_⟩
    have hrun : interpret .nil program s = .ok v { s with machine := m } := by
      have hnil := hv []
      rwa [List.append_nil] at hnil
    unfold interpretSafely
    rw [hrun]
    rfl
  | error exit m =>
    -- The statements before the one that fails complete.
    obtain ⟨before, t, after, m₁, rfl, hbefore, ht⟩ := execAll_eq_error.1 hcourse
    obtain ⟨v, hv⟩ := interpret_append hbefore .nil
    refine ⟨.nil, ?_⟩
    unfold interpretSafely
    rw [hv, interpret_cons, ht]
    cases exit with
    | returned value => exact absurd ht (h t (by simp) m₁ value m)
    | fault token fault =>
      dsimp only
      rw [runFaulted_eq]
      rfl
    | delivered | broke | defect | exhausted => exact runFailed_eq _ _

theorem exists_run_finished {source : String} (h : Admits ⟨source, false⟩ program)
    (hs : s.flags.error = false) :
    ∃ v, run source false s =
      .ok v ((s.entered ⟨source, false⟩).finished (course program s.machine)) := by
  obtain ⟨v, hv⟩ := exists_interpretSafely_finished h.returnless (s.entered ⟨source, false⟩)
  exact ⟨v, (run_of_admits h hs).trans hv⟩

theorem finished_reports {m₀ m : Machine} {exit : Exit} (h : course program m₀ = .error exit m)
    (hne : ∀ token fault, exit ≠ .fault token fault) :
    (s.finished (course program m₀)).reports.back? = some (.failure exit.category) := by
  rw [h]
  cases exit with
  | fault token fault => exact absurd rfl (hne token fault)
  | returned | delivered | broke | defect | exhausted => simp [finished, failed, wrote, filed]

def unknownProgram : List Stmt := [.expression (.variable (.ident "x" 1) .free)]

theorem unknown_admits : Admits ⟨"x;", false⟩ unknownProgram := .of_yields (by decide +kernel)

/-! ### Flags -/

@[simp]
theorem finished_attached (s : Session) (r : EStateM.Result Exit Machine Unit) :
    (s.finished r).attached = s.attached := by
  cases r with
  | ok u m => rfl
  | error exit m => cases exit <;> rfl

theorem finished_error (s : Session) (r : EStateM.Result Exit Machine Unit) :
    (s.finished r).flags.error = s.flags.error := by
  cases r with
  | ok u m => rfl
  | error exit m => cases exit <;> rfl

/-- The flag of errors of a run is raised by a fault only. -/
theorem finished_runtimeError_iff (hs : s.flags.runtimeError = false)
    (r : EStateM.Result Exit Machine Unit) :
    (s.finished r).flags.runtimeError = true ↔
      ∃ token fault m, r = .error (.fault token fault) m := by
  cases r with
  | ok u m => simp [finished, hs]
  | error exit m => cases exit <;> simp [finished, failed, wrote, filed, Flags.raise, hs]

end Session

end Lox
