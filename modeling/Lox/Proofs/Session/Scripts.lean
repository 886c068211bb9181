import Lox.Command
import Lox.Proofs.Session.Course
import Lox.Proofs.Session.Reachable

/-!
# Exit codes of scripts

The exit code of a script tells whether its text is a program and whether the program ran without a
fault. Failures of other kinds do not show in it, and a session that does not heed its flags has no
exit code to give.
-/

namespace Lox

open Eval Outcome

def Script.readable? (path : String) (contents : Contents) : Option String :=
  if hasNul path then none
  else
    match contents with
    | .bytes data => (text data).toOption
    | _ => none

/-- A machine with more output before its own. -/
def Machine.preceded (before : Array Line) (m : Machine) : Machine :=
  { m with out := before ++ m.out }

theorem Machine.recast_id (before : Array Line) :
    Machine.recast ⟨id, before⟩ = Machine.preceded before := by
  funext m
  simp [Machine.recast, Machine.preceded, Frame.relined_id, Value.map_relined_id]

namespace Command

variable {path : String}

/-- A text that does not start with a dash is no option. -/
theorem Argument.ofText_eq_plain (h : path.toList.head? ≠ some '-') :
    Argument.ofText path = .plain := by
  unfold Argument.ofText
  cases hcs : path.toList with
  | nil => rfl
  | cons c cs =>
    rw [hcs] at h
    split
    · next heq => simp_all
    · next heq => simp_all
    · rfl

/-- After two dashes any script can be named. -/
theorem ofOptions_dashes (hne : path ≠ "") : ofOptions ["--", path] = .script path false := by
  have hempty : path.isEmpty = false := by simpa using hne
  simp [ofOptions, List.span, List.span.loop, Found.take, Found.nothing,
    Found.addRest, Found.command, hempty]

/-- A script that does not start with a dash is named by itself. -/
theorem ofOptions_path (hne : path ≠ "") (h : path.toList.head? ≠ some '-') :
    ofOptions [path] = .script path false := by
  have hempty : path.isEmpty = false := by simpa using hne
  have hdashes : path ≠ "--" := by
    rintro rfl
    exact h rfl
  have hplain := Argument.ofText_eq_plain h
  simp [ofOptions, List.span, List.span.loop, hdashes, hplain, Found.take,
    Found.nothing, Found.addPlain, Found.addRest, Found.command, hempty]

end Command

namespace Session

variable {path text : String} {s : Session}

def opened (s : Session) (debug : Bool) : Session :=
  { s with
    machine := { s.machine with traced := debug && s.attached }
    started := true
    debug := debug
    flags :=
      if s.attached then { s.flags with error := false, runtimeError := false } else s.flags }

def announced (s : Session) (path : String) (debug : Bool) : Session :=
  let s' := (s.opened debug).wrote (.notice ("[执行文件] " ++ path))
  if debug then s'.wrote (.trace "开始执行文件...") else s'

def concluded (s : Session) (debug : Bool) : Session :=
  if debug then s.wrote (.trace "文件执行完成") else s

/-! ### What a script does -/

theorem forgiveErrors_eq (s : Session) :
    forgiveErrors s = .ok () { s with flags :=
      if s.attached then { s.flags with error := false, runtimeError := false } else s.flags } := by
  change EStateM.Result.ok () (if s.attached = true then _ else _) = _
  split <;> rfl

/-- A script is opened, and unless that fails its text is run. -/
theorem runScript_eq (path : String) (debug : Bool) (contents : Script.Contents) (s : Session) :
    runScript path debug contents s =
      (if Script.hasNul path then scriptUnreadable path .nulInName
      else
        match contents with
        | .missing => do
          file (.noSuchFile path)
          return some Script.dataError
        | .blocked obstacle => scriptUnreadable path (.blocked path obstacle)
        | .bytes data =>
          match Script.text data with
          | .ok text => runReadable path text
          | .error error => scriptUnreadable path error) (s.opened debug) := by
  unfold runScript
  rw [bind_of_ok (rfl : setDebug debug s = .ok () _), bind_of_ok (forgiveErrors_eq _)]
  rfl

theorem scriptFailed_eq (path category message : String) (s : Session) :
    scriptFailed path category message s = .ok (some Script.softwareError)
      ((s.wrote (.notice ("[异常] 执行 " ++ path ++ " 时发生异常: " ++ message))).filed
        [.failure category]) := rfl

theorem runScript_of_readable {contents : Script.Contents}
    (h : Script.readable? path contents = some text) (debug : Bool) (s : Session) :
    runScript path debug contents s = runReadable path text (s.opened debug) := by
  rw [runScript_eq]
  unfold Script.readable? at h
  split at h
  · cases h
  · next hnul =>
    rw [if_neg hnul]
    cases contents with
    | bytes data =>
      dsimp only at h ⊢
      cases htext : Script.text data with
      | ok text' =>
        rw [htext] at h
        cases h
        rfl
      | error error =>
        rw [htext] at h
        cases h
    | missing | blocked => cases h

theorem exists_runScript_of_unreadable {contents : Script.Contents}
    (h : Script.readable? path contents = none) :
    ∃ code lines reports, ∀ debug s, ∃ s', runScript path debug contents s = .ok code s' ∧
      s'.machine.out = s.machine.out ++ lines ∧ s'.reports = s.reports ++ reports := by
  have hunreadable : ∀ error, ∃ code lines reports, ∀ debug (s : Session), ∃ s',
      scriptUnreadable path error (s.opened debug) = .ok code s' ∧
        s'.machine.out = s.machine.out ++ lines ∧ s'.reports = s.reports ++ reports := by
    intro error
    refine ⟨_, #[.notice ("[异常] 执行 " ++ path ++ " 时发生异常: " ++ error.message)],
      #[.failure error.category], fun debug s => ⟨_, scriptFailed_eq _ _ _ _, ?_, rfl⟩⟩
    exact Array.push_eq_append
  simp only [runScript_eq]
  unfold Script.readable? at h
  split at h
  · next hnul =>
    simp only [hnul, if_true]
    exact hunreadable .nulInName
  · next hnul =>
    simp only [hnul]
    cases contents with
    | missing =>
      refine ⟨_, #[], #[.noSuchFile path], fun debug s => ⟨_, rfl, ?_, ?_⟩⟩
      · exact Array.append_empty.symm
      · rfl
    | blocked obstacle => exact hunreadable _
    | bytes data =>
      dsimp only at h ⊢
      cases htext : Script.text data with
      | ok text =>
        rw [htext] at h
        cases h
      | error error => exact hunreadable error

theorem runReadable_eq (path text : String) (debug : Bool) (s : Session) :
    runReadable path text (s.opened debug) =
      match run text false (s.announced path debug) with
      | .ok _ s' => exitCode (s'.concluded debug)
      | .error e s' => scriptFailed path e.category e.message s' := by
  have hannounce : write (.notice ("[执行文件] " ++ path)) (s.opened debug) =
      .ok () ((s.opened debug).wrote (.notice ("[执行文件] " ++ path))) := rfl
  have hrun : runText path text (s.opened debug) =
      match run text false (s.announced path debug) with
      | .ok _ s' => .ok () (s'.concluded debug)
      | .error e s' => .error e s' := by
    unfold runText
    rw [bind_of_ok hannounce, bind_of_ok (get_eq_ok.2 ⟨rfl, rfl⟩)]
    cases debug with
    | false =>
      change (run text false >>= fun _ => pure ()) (s.announced path false) = _
      cases h : run text false (s.announced path false) with
      | ok v s' => exact bind_of_ok h
      | error e s' => exact bind_of_error h
    | true =>
      change (run text false >>= fun _ => write (.trace "文件执行完成")) (s.announced path true) = _
      cases h : run text false (s.announced path true) with
      | ok v s' => exact bind_of_ok h
      | error e s' => exact bind_of_error h
  unfold runReadable
  rw [hrun]
  cases run text false (s.announced path debug) <;> rfl

theorem concluded_false (s : Session) : s.concluded false = s := rfl

theorem concluded_reports (s : Session) (debug : Bool) :
    (s.concluded debug).reports = s.reports := by
  cases debug <;> rfl

/-! ### Exit codes -/

def code (s : Session) : Option Nat :=
  if s.attached && s.flags.error then some Script.dataError
  else if s.attached && s.flags.runtimeError then some Script.softwareError
  else none

theorem exitCode_eq (s : Session) : exitCode s = .ok s.code s := by
  change (if s.attached && s.flags.error then pure (some Script.dataError)
    else if s.attached && s.flags.runtimeError then pure (some Script.softwareError)
    else pure none : Step (Option Nat)) s = _
  unfold code
  split
  · rfl
  · split <;> rfl

theorem code_of_error (ha : s.attached = true) (he : s.flags.error = true) :
    s.code = some Script.dataError := by
  simp [code, ha, he]

theorem code_of_detached (ha : s.attached = false) : s.code = none := by
  simp [code, ha]

theorem code_eq_some_iff (ha : s.attached = true) (he : s.flags.error = false) :
    s.code = some Script.softwareError ↔ s.flags.runtimeError = true := by
  simp [code, ha, he]

theorem code_eq_none_iff (ha : s.attached = true) (he : s.flags.error = false) :
    s.code = none ↔ s.flags.runtimeError = false := by
  simp [code, ha, he]

theorem code_ne_dataError (he : s.flags.error = false) : s.code ≠ some Script.dataError := by
  cases ha : s.attached <;> cases hr : s.flags.runtimeError <;>
    simp [code, ha, he, hr, Script.dataError, Script.softwareError]

theorem announced_attached (s : Session) (path : String) (debug : Bool) :
    (s.announced path debug).attached = s.attached := by
  cases debug <;> rfl

theorem announced_started (s : Session) (path : String) (debug : Bool) :
    ({ s.announced path debug with started := true } : Session) = s.announced path debug := by
  cases debug <;> rfl

theorem announced_flags (ha : s.attached = true) (path : String) (debug : Bool) :
    (s.announced path debug).flags = { s.flags with error := false, runtimeError := false } := by
  have hopened : (s.opened debug).flags = { s.flags with error := false, runtimeError := false } :=
    if_pos ha
  cases debug <;> exact hopened

theorem runReadable_of_ok {debug : Bool} {s' : Session} {v : Value}
    (h : run text false (s.announced path debug) = .ok v s') :
    runReadable path text (s.opened debug) = .ok s'.code (s'.concluded debug) := by
  rw [runReadable_eq, h]
  dsimp only
  rw [exitCode_eq]
  cases debug <;> rfl

theorem runReadable_of_rejected (h : (Text.mk text false).isRejected = true) (ha : s.attached = true)
    (path : String) (debug : Bool) :
    runReadable path text (s.opened debug) = .ok (some Script.dataError)
      (((s.announced path debug).filed (Text.mk text false).reports).concluded debug) := by
  have hattached := (announced_attached s path debug).trans ha
  have hrun := run_of_rejected h hattached (by rw [announced_flags ha])
  rw [announced_started] at hrun
  have herror : ((s.announced path debug).filed (Text.mk text false).reports).flags.error =
      true := by
    rw [filed_error]
    exact Bool.or_eq_true_iff.2 (.inr h)
  have hkept : ((s.announced path debug).filed (Text.mk text false).reports).attached = true :=
    hattached
  rw [runReadable_of_ok hrun, code_of_error hkept herror]

def scriptEnd (s : Session) (path text : String) (debug : Bool) (program : List Stmt) : Session :=
  ((s.announced path debug).entered ⟨text, false⟩).finished
    (course program (s.announced path debug).machine)

theorem scriptEnd_attached (s : Session) (path text : String) (debug : Bool)
    (program : List Stmt) : (s.scriptEnd path text debug program).attached = s.attached := by
  unfold scriptEnd
  rw [finished_attached]
  exact announced_attached s path debug

theorem entered_runtimeError (s : Session) (t : Text) :
    (s.entered t).flags.runtimeError = s.flags.runtimeError := by
  unfold entered
  rw [filed_runtimeError]
  simp [List.any_map, Function.comp_def, Report.isFault]

section Admits

variable {path text : String} {debug : Bool} {program : List Stmt}
  (h : Admits ⟨text, false⟩ program) {s : Session}
  (he : (s.announced path debug).flags.error = false)

include h he

theorem runReadable_of_admits :
    runReadable path text (s.opened debug) = .ok (s.scriptEnd path text debug program).code
      ((s.scriptEnd path text debug program).concluded debug) := by
  obtain ⟨v, hrun⟩ := exists_run_finished h he
  exact runReadable_of_ok hrun

theorem scriptEnd_error : (s.scriptEnd path text debug program).flags.error = false := by
  unfold scriptEnd
  rw [finished_error, entered_error h, he]

section Attached

variable (ha : s.attached = true) (hr : (s.announced path debug).flags.runtimeError = false)

include ha hr

theorem scriptEnd_code_iff :
    (s.scriptEnd path text debug program).code = some Script.softwareError ↔
      ∃ token fault m,
        course program (s.announced path debug).machine = .error (.fault token fault) m := by
  rw [code_eq_some_iff ((scriptEnd_attached _ _ _ _ _).trans ha) (scriptEnd_error h he)]
  exact finished_runtimeError_iff ((entered_runtimeError _ _).trans hr) _

theorem scriptEnd_code_eq_none_iff :
    (s.scriptEnd path text debug program).code = none ↔
      ¬∃ token fault m,
        course program (s.announced path debug).machine = .error (.fault token fault) m := by
  rw [code_eq_none_iff ((scriptEnd_attached _ _ _ _ _).trans ha) (scriptEnd_error h he),
    ← Bool.not_eq_true]
  exact not_congr (finished_runtimeError_iff ((entered_runtimeError _ _).trans hr) _)

end Attached

end Admits

/-- In a session that heeds its flags a script that can be read has an exit code or none. It has the
one for errors in texts if and only if the text is rejected. It has the one for runs that failed if
and only if the text is a program that ends with a fault. It has none if and only if the text is a
program all of whose statements complete, or one that ends early in another way; of that only the
record of the failure tells. To reach the bound of runs, as a program does that would not end, is to end
early in another way. -/
theorem exitCode_iff {s : Session} (ha : s.attached = true) {path text : String}
    {contents : Script.Contents} (hread : Script.readable? path contents = some text)
    (debug : Bool) :
    ∃ code s', runScript path debug contents s = .ok code s' ∧
      (code = some Script.dataError ↔ (Text.mk text false).isRejected = true) ∧
      (code = some Script.softwareError ↔ ∃ program token fault m, Admits ⟨text, false⟩ program ∧
        course program (s.announced path debug).machine = .error (.fault token fault) m) ∧
      (code = none ↔ ∃ program, Admits ⟨text, false⟩ program ∧
        ((∃ m, course program (s.announced path debug).machine = .ok () m) ∨
          ∃ exit m, course program (s.announced path debug).machine = .error exit m ∧
            (∀ token fault, exit ≠ .fault token fault) ∧
            s'.reports.back? = some (.failure exit.category))) := by
  rw [runScript_of_readable hread]
  by_cases h : (Text.mk text false).isRejected = true
  · have hnone : ∀ program, ¬Admits ⟨text, false⟩ program := by
      intro program hp
      rw [hp.isRejected] at h
      cases h
    refine ⟨_, _, runReadable_of_rejected h ha path debug, ?_, ?_, ?_⟩
    · simp [h]
    · simp [hnone, Script.dataError, Script.softwareError]
    · simp [hnone]
  · obtain ⟨program, hp⟩ := Text.isRejected_eq_false_iff.1 (Bool.eq_false_iff.2 h)
    have hunique : ∀ {program'}, Admits ⟨text, false⟩ program' → program' = program :=
      fun h' => h'.unique hp
    have hflags := announced_flags ha path debug
    have he : (s.announced path debug).flags.error = false := by rw [hflags]
    have hr : (s.announced path debug).flags.runtimeError = false := by rw [hflags]
    refine ⟨_, _, runReadable_of_admits hp he, ?_, ?_, ?_⟩
    · simp [h, code_ne_dataError (scriptEnd_error hp he)]
    · rw [scriptEnd_code_iff hp he ha hr]
      constructor
      · rintro ⟨token, fault, m, hm⟩
        exact ⟨program, token, fault, m, hp, hm⟩
      · rintro ⟨program', token, fault, m, hp', hm⟩
        exact ⟨token, fault, m, hunique hp' ▸ hm⟩
    · rw [scriptEnd_code_eq_none_iff hp he ha hr]
      constructor
      · intro hnone
        refine ⟨program, hp, ?_⟩
        cases hcourse : course program (s.announced path debug).machine with
        | ok u m => exact .inl ⟨m, rfl⟩
        | error exit m =>
          have hne : ∀ token fault, exit ≠ .fault token fault := by
            rintro token fault rfl
            exact hnone ⟨token, fault, m, hcourse⟩
          refine .inr ⟨exit, m, rfl, hne, ?_⟩
          rw [concluded_reports]
          exact finished_reports hcourse hne
      · rintro ⟨program', hp', hends⟩ ⟨token, fault, m, hm⟩
        rw [hunique hp', hm] at hends
        obtain ⟨m', hm'⟩ | ⟨exit, m', hm', hne, -⟩ := hends
        · cases hm'
        · cases hm'
          exact hne token fault rfl

def unknownScript : Script.Contents := .bytes [120, 59]

/-- The script ends with a fault, and has the exit code for it. -/
theorem exitCode_iff_unknown :
    ∃ s', runScript "x.lox" true unknownScript (new true 0) = .ok (some 70) s' := by
  have hread : Script.readable? "x.lox" unknownScript = some "x;" := rfl
  have hcourse : course unknownProgram ((new true 0).announced "x.lox" true).machine =
      .error (.fault (.ident "x" 1) (.undefinedVariable "x"))
        ((new true 0).announced "x.lox" true).machine :=
    rfl
  obtain ⟨code, s', hrun, -, hcode, -⟩ := exitCode_iff (s := new true 0) rfl hread true
  rw [hcode.2 ⟨_, _, _, _, unknown_admits, hcourse⟩] at hrun
  exact ⟨s', hrun⟩

def addingScript : Script.Contents :=
  .bytes [110, 105, 108, 43, 110, 105, 108, 59, 112, 114, 105, 110, 116, 32, 110, 105, 108, 59]

def addingProgram : List Stmt :=
  [.expression (.binary (.literal .nil) ⟨.plus, "+", .nil, 1⟩ (.literal .nil)),
    .print (.literal .nil)]

theorem addingScript_admits : Admits ⟨"nil+nil;print nil;", false⟩ addingProgram :=
  .of_yields (by decide +kernel)

theorem addingScript_readable :
    Script.readable? "add.lox" addingScript = some "nil+nil;print nil;" := rfl

theorem addingScript_course :
    course addingProgram ((new true 0).announced "add.lox" false).machine =
      .error (.defect (.notReal "NoneType")) ((new true 0).announced "add.lox" false).machine :=
  rfl

/-- The script stops at its first statement, and has no exit code. -/
theorem exitCode_hides_failure :
    ∃ s', runScript "add.lox" false addingScript (new true 0) = .ok none s' ∧
      s'.reports.back? = some (.failure "TypeError") ∧ .shown "nil" ∉ s'.machine.out := by
  have he : ((new true 0).announced "add.lox" false).flags.error = false := rfl
  have hend := runReadable_of_admits addingScript_admits he
  have hnone : ¬∃ token fault m,
      course addingProgram ((new true 0).announced "add.lox" false).machine =
        .error (.fault token fault) m := by
    rintro ⟨token, fault, m, hm⟩
    rw [addingScript_course] at hm
    cases hm
  rw [(scriptEnd_code_eq_none_iff addingScript_admits he rfl rfl).2 hnone] at hend
  refine ⟨_, (runScript_of_readable addingScript_readable false _).trans hend, ?_, ?_⟩
  · rw [concluded_reports, scriptEnd]
    exact finished_reports addingScript_course (by simp)
  · rw [concluded_false, scriptEnd, addingScript_course]
    simp [finished, failed, filed, announced, opened, wrote, new, Machine.start,
      Machine.withGlobals]

/-! ### Command lines -/

theorem course_preceded (before : Array Line) (program : List Stmt) (m : Machine) :
    course program (m.preceded before) =
      Outcome.recast (Machine.preceded before) id id (course program m) := by
  have h := recasts_execAll (recasts_run ⟨id, before⟩ bound) (m := m) program
  rw [Run.Recasts, Mirrors, Stmt.relinedAll_id, Exit.relined_id, Machine.recast_id] at h
  exact h

theorem finished_preceded {s' : Session} (hreports : s'.reports = s.reports) (before : Array Line)
    (r : EStateM.Result Exit Machine Unit) :
    (s'.finished (Outcome.recast (Machine.preceded before) id id r)).machine.out =
        before ++ (s.finished r).machine.out ∧
      (s'.finished (Outcome.recast (Machine.preceded before) id id r)).reports =
        (s.finished r).reports := by
  cases r with
  | ok u m => exact ⟨rfl, hreports⟩
  | error exit m =>
    cases exit <;>
      simp [Outcome.recast, finished, failed, wrote, filed, Machine.preceded, hreports]

theorem exists_runReadable_of_detached (ha : s.attached = false) (path text : String) (debug : Bool) :
    ∃ code s', runReadable path text (s.opened debug) = .ok code s' ∧
      code ≠ some Script.dataError := by
  have hattached := (announced_attached s path debug).trans ha
  cases hrun : run text false (s.announced path debug) with
  | ok v s' =>
    have hkept := ((follows_run attached_law text false).ok hrun).1.trans hattached
    refine ⟨_, _, runReadable_of_ok hrun, ?_⟩
    rw [code_of_detached hkept]
    nofun
  | error e s' =>
    have hfailed := runReadable_eq path text debug s
    rw [hrun] at hfailed
    exact ⟨_, _, hfailed.trans (scriptFailed_eq _ _ _ _), by decide⟩

def bannered (clock : Clock) : Session := (new false clock).wrote (.notice Command.banner)

theorem new_out (attached : Bool) (clock : Clock) : (new attached clock).machine.out = #[] := rfl

theorem bannered_out (clock : Clock) :
    (bannered clock).machine.out = #[.notice Command.banner] := rfl

theorem bannered_reports (clock : Clock) : (bannered clock).reports = (new true clock).reports := rfl

theorem perform_ofPath (around : Surroundings) (path : String) (s : Session) :
    perform around (.ofPath [path]) s = runScript path false (around.file path) s := rfl

theorem performOptions_eq {arguments : List String}
    (h : Command.ofOptions arguments = .script path false) (around : Surroundings) (clock : Clock) :
    performOptions around arguments (new false clock) =
      runScript path false (around.file path) (bannered clock) := by
  unfold performOptions
  rw [h]
  rfl

/-- A command line that names a script is performed in a new session that heeds its flags, and one
with options in a new session that does not. With options a script is named after two dashes or, unless
it starts with a dash, by itself. However it is named, without the option for tracing, both come to an
end. The exit codes are the same if and only if the script cannot be read or its text is a program that
does not end with a fault; a program that reaches the bound of runs, which one that would not end does,
is none that ends with a fault. Unless the text is rejected the output is the same after the banner, and
so are the reports. A text that is rejected is not run in the first session, which has the exit code for
it; the second has not. -/
theorem entries_agree_iff {path : String} (hpath : path ≠ "") (around : Surroundings) (clock : Clock) :
    Command.ofOptions ["--", path] = .script path false ∧
    (path.toList.head? ≠ some '-' → Command.ofOptions [path] = .script path false) ∧
    ∀ arguments, Command.ofOptions arguments = .script path false →
      ∃ code s code' s', perform around (.ofPath [path]) (new true clock) = .ok code s ∧
        performOptions around arguments (new false clock) = .ok code' s' ∧
        (code' = code ↔ ∀ text, Script.readable? path (around.file path) = some text →
          ∃ program, Admits ⟨text, false⟩ program ∧ ¬∃ token fault m,
            course program ((new true clock).announced path false).machine =
              .error (.fault token fault) m) ∧
        ((∀ text, Script.readable? path (around.file path) = some text →
            (Text.mk text false).isRejected = false) →
          s'.machine.out = #[Line.notice Command.banner] ++ s.machine.out ∧ s'.reports = s.reports) ∧
        (∀ text, Script.readable? path (around.file path) = some text →
          (Text.mk text false).isRejected = true → code = some Script.dataError ∧
            s.machine = ((new true clock).announced path false).machine ∧
            code' ≠ some Script.dataError) := by
  refine ⟨Command.ofOptions_dashes hpath, Command.ofOptions_path hpath, fun arguments h => ?_⟩
  rw [perform_ofPath, performOptions_eq h]
  cases hread : Script.readable? path (around.file path) with
  | none =>
    obtain ⟨code, lines, reports, hrun⟩ := exists_runScript_of_unreadable hread
    obtain ⟨s, hs, hout, hreports⟩ := hrun false (new true clock)
    obtain ⟨s', hs', hout', hreports'⟩ := hrun false (bannered clock)
    refine ⟨code, s, code, s', hs, hs', by simp, fun _ => ⟨?_, ?_⟩, nofun⟩
    · rw [hout, hout', bannered_out, new_out, Array.empty_append]
    · rw [hreports, hreports', bannered_reports]
  | some text =>
    rw [runScript_of_readable hread, runScript_of_readable hread]
    by_cases hrejected : (Text.mk text false).isRejected = true
    · obtain ⟨code', s', hs', hne⟩ := exists_runReadable_of_detached
        (s := bannered clock) rfl path text false
      refine ⟨_, _, code', s', runReadable_of_rejected hrejected rfl path false, hs',
        ⟨fun heq => absurd heq hne, fun hall => ?_⟩,
        fun hnone => absurd hrejected (Bool.eq_false_iff.1 (hnone text rfl)),
        fun _ _ _ => ⟨rfl, rfl, hne⟩⟩
      obtain ⟨program, hp, -⟩ := hall text rfl
      rw [hp.isRejected] at hrejected
      cases hrejected
    · obtain ⟨program, hp⟩ := Text.isRejected_eq_false_iff.1 (Bool.eq_false_iff.2 hrejected)
      have he : ((new true clock).announced path false).flags.error = false := rfl
      have he' : ((bannered clock).announced path false).flags.error = false := rfl
      have hcode := scriptEnd_code_eq_none_iff hp he rfl rfl
      have hcode' := code_of_detached (scriptEnd_attached (bannered clock) path text false program)
      refine ⟨_, _, _, _, runReadable_of_admits hp he, runReadable_of_admits hp he', ?_,
        fun _ => ?_, ?_⟩
      · rw [hcode', eq_comm, hcode]
        constructor
        · rintro hnone _ ⟨⟩
          exact ⟨program, hp, hnone⟩
        · intro hall
          obtain ⟨program', hp', hnone⟩ := hall text rfl
          rwa [hp'.unique hp] at hnone
      · have hmachine : ((bannered clock).announced path false).machine =
            ((new true clock).announced path false).machine.preceded #[.notice Command.banner] := rfl
        rw [concluded_false, concluded_false, scriptEnd, scriptEnd, hmachine, course_preceded]
        refine finished_preceded ?_ _ _
        rfl
      · rintro _ ⟨⟩ h
        exact absurd h hrejected

def addingAround : Surroundings := ⟨fun _ => addingScript, [], .closed⟩

/-- The script fails in both sessions, and in the same way. -/
theorem entries_agree_iff_adding :
    ∃ code s s', perform addingAround (.ofPath ["add.lox"]) (new true 0) = .ok code s ∧
      performOptions addingAround ["add.lox"] (new false 0) = .ok code s' ∧
      s'.machine.out = #[Line.notice Command.banner] ++ s.machine.out ∧ s'.reports = s.reports := by
  have hpath : "add.lox" ≠ "" := by decide
  have htext : ∀ text, Script.readable? "add.lox" (addingAround.file "add.lox") = some text →
      text = "nil+nil;print nil;" :=
    fun text h => Option.some.inj (h.symm.trans addingScript_readable)
  obtain ⟨-, hoptions, hagree⟩ := entries_agree_iff hpath addingAround 0
  obtain ⟨code, s, code', s', hs, hs', hiff, hsame, -⟩ := hagree _ (hoptions (by decide))
  obtain rfl : code' = code := by
    refine hiff.2 fun text h => ?_
    rw [htext text h]
    refine ⟨addingProgram, addingScript_admits, ?_⟩
    rintro ⟨token, fault, m, hm⟩
    rw [addingScript_course] at hm
    cases hm
  refine ⟨code', s, s', hs, hs', hsame fun text h => ?_⟩
  rw [htext text h]
  exact addingScript_admits.isRejected

/-- A script with a character that is none of the language, under every name. -/
def illegalAround : Surroundings :=
  ⟨fun _ => .bytes [112, 114, 105, 110, 116, 32, 110, 105, 108, 59, 64], [], .closed⟩

/-- The script is rejected in one session, and run in the other. -/
theorem entries_differ :
    (∃ s, perform illegalAround (.ofPath ["a.lox"]) (new true 0) = .ok (some 65) s ∧
      s.machine.out = #[.notice "[执行文件] a.lox"]) ∧
    ∃ code s, performOptions illegalAround ["a.lox"] (new false 0) = .ok code s ∧
      code ≠ some 65 ∧ s.machine.out =
        #[.notice Command.banner, .notice "[执行文件] a.lox", .shown "nil"] := by
  have hread : Script.readable? "a.lox" (illegalAround.file "a.lox") = some "print nil;@" := rfl
  have hrejected : (Text.mk "print nil;@" false).isRejected = true := by decide +kernel
  have hoptions : Command.ofOptions ["a.lox"] = .script "a.lox" false :=
    Command.ofOptions_path (by decide) (by decide)
  obtain ⟨code, s, hs, hne⟩ := exists_runReadable_of_detached (s := bannered 0) rfl "a.lox"
    "print nil;@" false
  have hperform : performOptions illegalAround ["a.lox"] (new false 0) = .ok code s := by
    rw [performOptions_eq hoptions, runScript_of_readable hread, hs]
  have hout : (((bannered 0).opened false).left (runReadable "a.lox" "print nil;@")).machine.out =
      #[.notice Command.banner, .notice "[执行文件] a.lox", .shown "nil"] := by
    decide +kernel
  unfold left at hout
  rw [hs] at hout
  have hfirst := perform_ofPath illegalAround "a.lox" (new true 0)
  rw [runScript_of_readable hread, runReadable_of_rejected hrejected rfl, concluded_false] at hfirst
  exact ⟨⟨_, hfirst, rfl⟩, code, s, hperform, hne, hout⟩

end Session

end Lox
