import Lox.Proofs.Machine.Preservation
import Lox.Proofs.Tree.Readable
import Lox.Proofs.Tree.Same
import Lox.Session

/-!
# Running a text, stage by stage

A text is scanned and read, then resolved, then carried out. What the stages complain about is filed
on the way, and in an attached session the flag of errors stops the text after a stage.

What holds of a machine between texts is kept by the programs of a session, one after another, if it is
kept wherever one of them is entered (`Session.Persists`).
-/

namespace Lox

open Eval Outcome

def Report.isError : Report → Bool
  | .scanning _ | .reading .. | .scoping (.flawed ..) => true
  | _ => false

theorem Flags.raise_error (flags : Flags) (report : Report) :
    (flags.raise report).error = (flags.error || report.isError) := by
  cases report with
  | scoping notice => cases notice <;> simp [Flags.raise, Report.isError]
  | _ => simp [Flags.raise, Report.isError]

def Report.isWarning : Report → Bool
  | .scoping (.unused _) => true
  | _ => false

theorem Flags.raise_warning (flags : Flags) (report : Report) :
    (flags.raise report).warning = (flags.warning || report.isWarning) := by
  cases report with
  | scoping notice => cases notice <;> simp [Flags.raise, Report.isWarning]
  | _ => simp [Flags.raise, Report.isWarning]

theorem Flags.foldl_raise {flag : Flags → Bool} {kind : Report → Bool}
    (h : ∀ flags report, flag (flags.raise report) = (flag flags || kind report))
    (reports : List Report) (flags : Flags) :
    flag (reports.foldl Flags.raise flags) = (flag flags || reports.any kind) := by
  induction reports generalizing flags with
  | nil => simp
  | cons report reports ih =>
    rw [List.foldl_cons, ih, h, List.any_cons, Bool.or_assoc]

theorem Scope.Resolution.Clean.any_isError {r : Scope.Resolution} (h : r.Clean) :
    (r.notices.map Report.scoping).any Report.isError = false := by
  rw [List.any_map, List.any_eq_false]
  intro notice hn
  cases notice with
  | flawed token flaw => exact absurd hn (h token flaw)
  | unused name => simp [Report.isError]

namespace Session

def filed (s : Session) (reports : List Report) : Session :=
  { s with flags := reports.foldl Flags.raise s.flags, reports := s.reports ++ reports.toArray }

theorem fileAll_eq (reports : List Report) (s : Session) :
    fileAll reports s = .ok () (s.filed reports) := by
  induction reports generalizing s with
  | nil => simp [fileAll, filed, pure, EStateM.pure]
  | cons report reports ih =>
    change fileAll reports (s.filed [report]) = _
    rw [ih]
    simp [filed]

theorem filed_filed (s : Session) (reports reports' : List Report) :
    (s.filed reports).filed reports' = s.filed (reports ++ reports') := by
  simp [filed]

theorem filed_error (s : Session) (reports : List Report) :
    (s.filed reports).flags.error = (s.flags.error || reports.any Report.isError) :=
  Flags.foldl_raise Flags.raise_error reports s.flags

theorem filed_warning (s : Session) (reports : List Report) :
    (s.filed reports).flags.warning = (s.flags.warning || reports.any Report.isWarning) :=
  Flags.foldl_raise Flags.raise_warning reports s.flags

end Session

/-- A text that is to be run. -/
structure Text where
  source : String
  /-- Whether the value of a single expression is shown. -/
  echoes : Bool

/-- The moments at which a program comes to one of its statements. A return ends its statement
only. -/
inductive Interpreted : List Stmt → Machine → Moment → Prop where
  | here {s : Stmt} {ss : List Stmt} {m : Machine} :
      Interpreted (s :: ss) m ⟨bound, .stmt s, m⟩
  | later {s : Stmt} {ss : List Stmt} {m m' : Machine} {v : Value} {moment : Moment}
      (hs : run bound (.stmt s) m = .ok v m' ∨ run bound (.stmt s) m = .error (.returned v) m')
      (h : Interpreted ss m' moment) : Interpreted (s :: ss) m moment

def Text.Enters (t : Text) (program : List Stmt) (m : Machine) (moment : Moment) : Prop :=
  match t.echoes, program with
  | true, [.expression e] => moment = ⟨bound, .expr e, m⟩
  | _, _ => Interpreted program m moment

/-- What is complained about before a text is resolved. -/
def Text.complaints (t : Text) : List Report :=
  (Token.scan t.source).complaints.map .scanning ++
    (Tree.parse (Token.scan t.source).tokens).complaints.map (.reading (Token.scan t.source).lastLine)

def Text.statements (t : Text) : List Stmt := (Tree.parse (Token.scan t.source).tokens).statements

/-- A text is scanned, read and resolved without complaint. -/
structure Admits (t : Text) (program : List Stmt) : Prop where
  scanned : (Token.scan t.source).complaints = []
  read : (Tree.parse (Token.scan t.source).tokens).complaints = []
  resolved : (Scope.resolve true t.statements).statements = .ok program
  clean : (Scope.resolve true t.statements).reached.Clean

/-- The programs of some texts. -/
def admitted (texts : List Text) (program : List Stmt) : Prop := ∃ t ∈ texts, Admits t program

/-- Whether a text is read and resolved to a program, with no complaint and no flaw. -/
def Text.yields (t : Text) (program : List Stmt) : Bool :=
  t.complaints.isEmpty && Stmt.areYielded program (Scope.resolve true t.statements).statements &&
    (Scope.resolve true t.statements).reached.notices.all fun
      | .flawed _ _ => false
      | .unused _ => true

theorem Admits.of_yields {t : Text} {program : List Stmt} (h : t.yields program = true) :
    Admits t program := by
  simp only [Text.yields, Text.complaints, Bool.and_eq_true, List.isEmpty_iff, List.append_eq_nil_iff,
    List.map_eq_nil_iff, List.all_eq_true] at h
  obtain ⟨⟨⟨hscan, hread⟩, hyielded⟩, hnotices⟩ := h
  exact ⟨hscan, hread, Stmt.eq_of_areYielded hyielded, fun _ _ hmem => by simpa using hnotices _ hmem⟩

theorem Admits.complaints {t : Text} {program : List Stmt} (h : Admits t program) :
    t.complaints = [] := by
  unfold Text.complaints
  rw [h.scanned, h.read]
  rfl

namespace Session

/-- What is left of running a text once it is admitted. -/
def carryOut (t : Text) (program : List Stmt) : Step Value :=
  match t.echoes, program with
  | true, [.expression e] => echo e
  | _, _ => interpretSafely program

/-- A text that is a single expression may show its value; all else is run statement by
statement. -/
theorem carryOut_cases (t : Text) (program : List Stmt) :
    (∃ e, program = [.expression e] ∧
        (∀ m moment, t.Enters program m moment ↔ moment = ⟨bound, .expr e, m⟩) ∧
        carryOut t program = echo e) ∨
      ((∀ m moment, t.Enters program m moment ↔ Interpreted program m moment) ∧
        carryOut t program = interpretSafely program) := by
  unfold Text.Enters carryOut
  split
  · exact Or.inl ⟨_, rfl, fun _ _ => Iff.rfl, rfl⟩
  · exact Or.inr ⟨fun _ _ => Iff.rfl, rfl⟩

def proceed (t : Text) : Step Value := do
  let program ← resolve true t.statements
  if ← stopped then return .nil
  carryOut t program

theorem parse_eq (t : Text) (s : Session) :
    parse t.source s = .ok t.statements (s.filed t.complaints) := by
  have hscan : scan t.source s =
      .ok (Token.scan t.source) (s.filed ((Token.scan t.source).complaints.map .scanning)) :=
    bind_of_ok (fileAll_eq _ s)
  unfold parse
  rw [bind_of_ok hscan]
  unfold read
  rw [bind_of_ok (fileAll_eq _ _), filed_filed]
  rfl

theorem run_eq (t : Text) (s : Session) :
    run t.source t.echoes s =
      (do if ← stopped then return Value.nil
          proceed t) ({ s with started := true }.filed t.complaints) := by
  unfold run
  rw [bind_of_ok (rfl : start s = .ok () { s with started := true }), bind_of_ok (parse_eq t _)]
  rfl

theorem stopped_eq (s : Session) : stopped s = .ok (s.attached && s.flags.error) s := rfl

theorem resolve_eq (warns : Bool) (statements : List Stmt) (s : Session) :
    resolve warns statements s =
      match (Scope.resolve warns statements).statements with
      | .ok program => .ok program
          (s.filed ((Scope.resolve warns statements).reached.notices.map .scoping))
      | .error d => .error (.defect d)
          (s.filed ((Scope.resolve warns statements).reached.notices.map .scoping)) := by
  unfold resolve
  rw [bind_of_ok (fileAll_eq _ s)]
  cases (Scope.resolve warns statements).statements <;> rfl

theorem interpretSafely_ne_error (program : List Stmt) (s : Session) (e : Exit) (s' : Session) :
    interpretSafely program s ≠ .error e s' := by
  intro h
  unfold interpretSafely at h
  split at h
  · cases h
  · next hr => exact hr e s' h

def entered (s : Session) (t : Text) : Session :=
  ({ s with started := true } : Session).filed
    ((Scope.resolve true t.statements).reached.notices.map .scoping)

theorem entered_error {t : Text} {program : List Stmt} (h : Admits t program) (s : Session) :
    (s.entered t).flags.error = s.flags.error := by
  unfold entered
  rw [filed_error, h.clean.any_isError, Bool.or_false]

/-- A text with nothing wrong with it is carried out. -/
theorem run_of_admits {t : Text} {program : List Stmt} (h : Admits t program) {s : Session}
    (hs : s.flags.error = false) :
    run t.source t.echoes s = carryOut t program (s.entered t) := by
  have hnone : ({ s with started := true } : Session).filed [] = { s with started := true } := by
    simp [filed]
  have hresolve : resolve true t.statements { s with started := true } =
      .ok program (s.entered t) := by
    rw [resolve_eq, h.resolved]
    rfl
  rw [run_eq, h.complaints, hnone, bind_of_ok (stopped_eq _)]
  simp only [hs, Bool.and_false, Bool.false_eq_true, if_false]
  unfold proceed
  rw [bind_of_ok hresolve, bind_of_ok (stopped_eq _), entered_error h, hs]
  simp only [Bool.and_false, Bool.false_eq_true, if_false]

end Session

/-! ### Between texts -/

/-- What a computation on the machine of a session leaves: a machine as it should be between texts, and
the flag of errors in texts as it was. -/
def Session.Leaves (calm : Machine → Prop) {α : Type} (x : Step α) (s : Session) : Prop :=
  match x s with
  | .ok _ s' | .error _ s' => calm s'.machine ∧ s'.flags.error = s.flags.error

/-- What holds of a machine between texts: running the nodes at which programs are entered keeps it, and
what is written does not matter. -/
structure Session.Persists (programs : List Stmt → Prop) (roots : Moment → Prop)
    (calm : Machine → Prop) : Prop where
  ends {node : Node} {m : Machine} (hm : calm m) (hl : Located programs [] node)
    (hr : roots ⟨bound, node, m⟩) :
    match Eval.run bound node m with
    | .ok _ m' | .error _ m' => calm m'
  write {m : Machine} (hm : calm m) (line : Line) : calm { m with out := m.out.push line }

namespace Session

variable {s : Session} {α : Type}

theorem interpret_cons {last : Value} {t : Stmt} {ss : List Stmt} :
    interpret last (t :: ss) s =
      match Eval.run bound (.stmt t) s.machine with
      | .ok v m' | .error (.returned v) m' => interpret v ss { s with machine := m' }
      | .error (.fault token fault) m' => runFaulted token fault { s with machine := m' }
      | .error e m' => .error e { s with machine := m' } := by
  simp only [interpret, runNode, onMachine]
  cases Eval.run bound (.stmt t) s.machine with
  | ok v m' => rfl
  | error e m' => cases e <;> rfl

theorem onMachine_of_ok {body : Run α} {a : α} {m : Machine} (h : body s.machine = .ok a m) :
    onMachine body s = .ok a { s with machine := m } := by
  unfold onMachine
  rw [h]

theorem onMachine_of_error {body : Run α} {exit : Exit} {m : Machine}
    (h : body s.machine = .error exit m) :
    onMachine body s = .error exit { s with machine := m } := by
  unfold onMachine
  rw [h]

theorem onMachine_bind {β : Type} (x : Run α) (f : α → Run β) :
    onMachine (x >>= f) = onMachine x >>= fun a => onMachine (f a) := by
  funext s
  cases hx : x s.machine with
  | ok a m =>
    rw [bind_of_ok (onMachine_of_ok hx)]
    unfold onMachine
    rw [bind_of_ok hx]
  | error e m =>
    rw [bind_of_error (onMachine_of_error hx)]
    exact onMachine_of_error (bind_of_error hx)

section Run

variable {programs : List Stmt → Prop} {roots : Moment → Prop} {calm : Machine → Prop}

variable {s : Session}

theorem Persists.interpreted (hc : Persists programs roots calm) {before ss : List Stmt} {m : Machine}
    {moment : Moment} (h : Interpreted ss m moment) (hp : programs (before ++ ss)) (hm : calm m)
    (hr : ∀ moment, Interpreted ss m moment → roots moment) :
    Located programs [] moment.node ∧ calm moment.machine := by
  induction h generalizing before with
  | here => exact ⟨.top hp, hm⟩
  | @later t ss m m' v moment hrun h ih =>
    have hp' : programs ((before ++ [t]) ++ ss) := by simpa using hp
    have hm' : calm m' := by
      have hcalm := hc.ends hm (.top hp) (hr _ .here)
      obtain hrun | hrun := hrun <;> rwa [hrun] at hcalm
    exact ih hp' hm' fun moment h => hr moment (.later hrun h)

theorem Persists.leaves_interpret (hc : Persists programs roots calm) {before ss : List Stmt}
    {last : Value} (hp : programs (before ++ ss)) (hs : calm s.machine)
    (hr : ∀ moment, Interpreted ss s.machine moment → roots moment) :
    Leaves calm (interpret last ss) s := by
  induction ss generalizing before last s with
  | nil => exact ⟨hs, rfl⟩
  | cons t ss ih =>
    have hcalm := hc.ends hs (.top hp) (hr _ .here)
    have hp' : programs ((before ++ [t]) ++ ss) := by simpa using hp
    -- Where the statement ends with a value or a return, the rest follows.
    have hrest : ∀ {v m'}, calm m' →
        (Eval.run bound (.stmt t) s.machine = .ok v m' ∨
          Eval.run bound (.stmt t) s.machine = .error (.returned v) m') →
        Leaves calm (interpret v ss) { s with machine := m' } := fun hm hrun =>
      ih (s := { s with machine := _ }) hp' hm fun moment h => hr moment (.later hrun h)
    unfold Leaves
    rw [interpret_cons]
    cases hrun : Eval.run bound (.stmt t) s.machine with
    | ok v m' =>
      rw [hrun] at hcalm
      exact hrest hcalm (.inl hrun)
    | error e m' =>
      rw [hrun] at hcalm
      cases e with
      | returned v => exact hrest hcalm (.inr hrun)
      | fault => exact ⟨hcalm, rfl⟩
      | delivered | broke | defect | exhausted => exact ⟨hcalm, rfl⟩

theorem Persists.leaves_interpretSafely (hc : Persists programs roots calm) {program : List Stmt}
    (hp : programs program) (hs : calm s.machine)
    (hr : ∀ moment, Interpreted program s.machine moment → roots moment) :
    Leaves calm (interpretSafely program) s := by
  have hp' : programs ([] ++ program) := hp
  have h : Leaves calm (interpret .nil program) s := hc.leaves_interpret hp' hs hr
  unfold Leaves at h ⊢
  unfold interpretSafely
  cases hi : interpret .nil program s with
  | ok v s' => rwa [hi] at h
  | error e s' =>
    rw [hi] at h
    exact ⟨hc.write h.1 _, h.2⟩

/-- The value of a single expression is shown. -/
theorem Persists.leaves_echo (hc : Persists programs roots calm) {e : Expr}
    (hl : Located programs [] (.expr e)) (hs : calm s.machine)
    (hr : roots ⟨bound, .expr e, s.machine⟩) : Leaves calm (echo e) s := by
  have hcalm := hc.ends hs hl hr
  have hecho : echo e = onMachine (do
      let value ← Run.catchReturn (Eval.run bound (.expr e))
      let text ← Run.ofExcept value.print
      Run.write (.echo text)
      return value) := by
    simp only [onMachine_bind]
    rfl
  -- what is left to do once there is a value
  have hshow : ∀ (v : Value) (m : Machine), calm m →
      Run.catchReturn (Eval.run bound (.expr e)) s.machine = .ok v m → Leaves calm (echo e) s := by
    intro v m hm hrun
    unfold Leaves
    rw [hecho]
    unfold onMachine
    rw [bind_of_ok hrun]
    cases v.print with
    | error d => exact ⟨hm, rfl⟩
    | ok text => exact ⟨hc.write hm _, rfl⟩
  have hfail : ∀ (x : Exit) (m : Machine), calm m →
      Run.catchReturn (Eval.run bound (.expr e)) s.machine = .error x m →
        Leaves calm (echo e) s := by
    intro x m hm hrun
    unfold Leaves
    rw [hecho]
    unfold onMachine
    rw [bind_of_error hrun]
    exact ⟨hm, rfl⟩
  cases hrun : Eval.run bound (.expr e) s.machine with
  | ok v m =>
    rw [hrun] at hcalm
    exact hshow v m hcalm (by rw [Run.catchReturn, hrun])
  | error x m =>
    rw [hrun] at hcalm
    cases x with
    | returned v => exact hshow v m hcalm (by rw [Run.catchReturn, hrun])
    | _ => exact hfail _ m hcalm (by rw [Run.catchReturn, hrun])

theorem Persists.carried (hc : Persists programs roots calm) {t : Text} {program : List Stmt}
    (hp : programs program) (hs : calm s.machine)
    (hr : ∀ moment, t.Enters program s.machine moment → roots moment) :
    Leaves calm (carryOut t program) s ∧ ∀ moment, t.Enters program s.machine moment →
      Located programs [] moment.node ∧ calm moment.machine := by
  obtain ⟨e, rfl, henters, hcarryOut⟩ | ⟨henters, hcarryOut⟩ := carryOut_cases t program
  · have hl : Located programs [] (.expr e) :=
      .part (.top (show programs ([] ++ .expression e :: []) from hp)) (List.mem_singleton.2 rfl)
    rw [hcarryOut]
    refine ⟨hc.leaves_echo hl hs (hr _ ((henters _ _).2 rfl)), ?_⟩
    intro moment h
    cases (henters _ _).1 h
    exact ⟨hl, hs⟩
  · simp only [henters] at hr ⊢
    rw [hcarryOut]
    refine ⟨hc.leaves_interpretSafely hp hs hr, fun moment h => ?_⟩
    exact hc.interpreted h (show programs ([] ++ program) from hp) hs hr

end Run

def after (s : Session) (t : Text) : Session :=
  match run t.source t.echoes s with
  | .ok _ s' => s'
  | .error _ s' => s'

/-- The moments at which the programs of a session are entered, one text after the other. -/
def Enters : Session → List Text → Moment → Prop
  | _, [], _ => False
  | s, t :: ts, moment =>
    (∃ program, Admits t program ∧ t.Enters program s.machine moment) ∨
      Enters (s.after t) ts moment

theorem Persists.entered {programs : List Stmt → Prop} {roots : Moment → Prop} {calm : Machine → Prop}
    (hc : Persists programs roots calm) {texts : List Text}
    (hprograms : ∀ t ∈ texts, ∀ program, Admits t program → programs program)
    (hroots : ∀ moment, s.Enters texts moment → roots moment)
    (hadmits : ∀ t ∈ texts, ∃ program, Admits t program) (hs : calm s.machine)
    (hflag : s.flags.error = false) {moment : Moment} (h : s.Enters texts moment) :
    Located programs [] moment.node ∧ calm moment.machine := by
  induction texts generalizing s with
  | nil => exact h.elim
  | cons t texts ih =>
    have hentry : ∀ program, Admits t program → ∀ moment,
        t.Enters program s.machine moment → roots moment :=
      fun program ht moment h => hroots moment (.inl ⟨program, ht, h⟩)
    rcases h with ⟨program, ht, h⟩ | h
    · exact (hc.carried (hprograms t (by simp) program ht) hs (hentry program ht)).2 moment h
    · obtain ⟨program, ht⟩ := hadmits t (by simp)
      have hleaves : Leaves calm (carryOut t program) (s.entered t) :=
        (hc.carried (s := s.entered t) (hprograms t (by simp) program ht) hs (hentry program ht)).1
      have hafter : calm (s.after t).machine ∧ (s.after t).flags.error = false := by
        unfold Leaves at hleaves
        unfold after
        rw [run_of_admits ht hflag]
        rw [entered_error ht, hflag] at hleaves
        cases hp : carryOut t program (s.entered t) <;> rwa [hp] at hleaves
      exact ih (fun u hu => hprograms u (by simp [hu])) (fun moment h => hroots moment (.inr h))
        (fun u hu => hadmits u (by simp [hu])) hafter.1 hafter.2 h

end Session

end Lox
