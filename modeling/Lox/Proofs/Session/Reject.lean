import Lox.Proofs.Scope.Walk
import Lox.Proofs.Session.Recast
import Lox.Proofs.Session.Steps
import Lox.Proofs.Tree.Join

/-!
# Rejected lines at the prompt

A line with an error in it is not run. In a session that heeds its flags such a line might as well
not have been typed: the others are answered as they would be without it.
-/

namespace Lox

open Outcome

variable {t : Text}

/-! ### Rejected texts -/

/-- What is reported about a text before it is run. A text is not resolved if it cannot be read. -/
def Text.reports (t : Text) : List Report :=
  match t.complaints with
  | [] => (Scope.resolve true t.statements).reached.notices.map .scoping
  | complaint :: complaints => complaint :: complaints

theorem Text.reports_of_nil (h : t.complaints = []) :
    t.reports = (Scope.resolve true t.statements).reached.notices.map .scoping := by
  unfold Text.reports
  rw [h]

theorem Text.reports_of_ne_nil (h : t.complaints ≠ []) : t.reports = t.complaints := by
  unfold Text.reports
  cases hc : t.complaints with
  | nil => exact absurd hc h
  | cons complaint complaints => rfl

def Text.isRejected (t : Text) : Bool := t.reports.any Report.isError

def Report.isFault : Report → Bool
  | .running .. => true
  | _ => false

theorem Flags.raise_runtimeError (flags : Flags) (report : Report) :
    (flags.raise report).runtimeError = (flags.runtimeError || report.isFault) := by
  cases report with
  | scoping notice => cases notice <;> simp [Flags.raise, Report.isFault]
  | _ => simp [Flags.raise, Report.isFault]

theorem Text.any_isFault_reports (t : Text) : t.reports.any Report.isFault = false := by
  by_cases h : t.complaints = []
  · rw [Text.reports_of_nil h]
    simp [List.any_map, Function.comp_def, Report.isFault]
  · rw [Text.reports_of_ne_nil h]
    simp [Text.complaints, List.any_map, Function.comp_def, Report.isFault]

theorem Text.exists_resolved (h : t.complaints = []) :
    ∃ program, (Scope.resolve true t.statements).statements = .ok program := by
  have hread := (List.append_eq_nil_iff.1 h).2
  have hpresent := (Tree.program_of_complaints (List.map_eq_nil_iff.1 hread)).2
  obtain ⟨program, r, hr⟩ := Stmt.resolveAll_of_present hpresent (.start true)
  refine ⟨program, ?_⟩
  unfold Text.statements
  rw [Scope.resolve_of_ok hr]

namespace Session

theorem stopped_filed {s : Session} (ha : s.attached = true) {reports : List Report}
    (h : reports.any Report.isError = true) :
    stopped (s.filed reports) = .ok true (s.filed reports) := by
  rw [stopped_eq, filed_error, h, Bool.or_true]
  change EStateM.Result.ok (s.attached && true) _ = _
  rw [ha, Bool.and_true]

/-- A rejected text is reported and nothing else happens. -/
theorem run_of_rejected {t : Text} (h : t.isRejected = true) {s : Session}
    (ha : s.attached = true) (he : s.flags.error = false) :
    run t.source t.echoes s = .ok .nil ({ s with started := true }.filed t.reports) := by
  rw [run_eq]
  unfold Text.isRejected at h
  by_cases hc : t.complaints = []
  · -- the text can be read, so it is resolved, and the flaws of its names stop it
    obtain ⟨program, hprogram⟩ := Text.exists_resolved hc
    have hnone : ({ s with started := true } : Session).filed [] = { s with started := true } := by
      simp [filed]
    have hresolve := resolve_eq true t.statements { s with started := true }
    rw [hprogram] at hresolve
    rw [Text.reports_of_nil hc] at h ⊢
    rw [hc, hnone, bind_of_ok (stopped_eq _)]
    simp only [he, Bool.and_false, Bool.false_eq_true, if_false]
    unfold proceed
    rw [bind_of_ok hresolve, bind_of_ok (stopped_filed (s := { s with started := true }) ha h)]
    rfl
  · rw [Text.reports_of_ne_nil hc] at h ⊢
    rw [bind_of_ok (stopped_filed (s := { s with started := true }) ha h)]
    rfl

/-! ### Steps that do not look back -/

/-- A session without what was written, reported and warned about so far. -/
def blank (s : Session) : Session :=
  { s with
    machine := { s.machine with out := #[] }
    flags := { s.flags with warning := false }
    reports := #[] }

def past (s : Session) : Session.Recasting := ⟨⟨id, s.machine.out⟩, s.reports, s.flags.warning⟩

end Session

theorem Report.relined_id : Report.relined id = id := by
  funext report
  cases report with
  | scoping notice => cases notice <;> simp [Report.relined, Scope.Notice.relined, Token.relined_id]
  | _ => simp [Report.relined, Token.relined_id]

namespace Session

theorem recast_past (before s : Session) :
    s.recast before.past =
      { s with
        machine := { s.machine with out := before.machine.out ++ s.machine.out }
        flags := { s.flags with warning := before.flags.warning || s.flags.warning }
        reports := before.reports ++ s.reports } := by
  simp [recast, past, Machine.recast, Flags.recast, Frame.relined_id, Report.relined_id, Value.map_relined_id]

theorem recast_blank (s : Session) : s.blank.recast s.past = s := by
  rw [recast_past]
  simp [blank]

theorem blank_recast (before s : Session) : (s.recast before.past).blank = s.blank := by
  rw [recast_past]
  rfl

end Session

/-- The step does not depend on what was written, reported and warned about before. -/
def Step.Oblivious {α : Type} (x : Step α) : Prop :=
  ∀ before s : Session, Mirrors (Session.recast before.past) id id x x s

namespace Step.Oblivious

variable {α β : Type} {x : Step α} {f : α → Step β}

theorem pure (a : α) : Oblivious (Pure.pure a) := fun _ _ => .pure rfl

theorem throw (e : Exit) : Oblivious (MonadExcept.throw e : Step α) := fun _ _ => .throw rfl

theorem bind (hx : Oblivious x) (hf : ∀ a, Oblivious (f a)) : Oblivious (x >>= f) :=
  fun before s => (hx before s).bind fun a s' => hf a before s'

theorem ite {c : Prop} [Decidable c] {y : Step α} (hx : Oblivious x) (hy : Oblivious y) :
    Oblivious (if c then x else y) := by
  by_cases h : c
  · rwa [if_pos h]
  · rwa [if_neg h]

theorem of_recasts {g : α → α} (hg : g = id)
    (h : ∀ before s : Session, Recasts before.past g x x s) : Oblivious x := by
  intro before s
  have hs := h before s
  subst hg
  rwa [Recasts, show before.past.line = id from rfl, Exit.relined_id] at hs

theorem blank_eq (hx : Oblivious x) {s₁ s₂ s₁' s₂' : Session} {a₁ a₂ : α}
    (h : s₁.blank = s₂.blank) (h₁ : x s₁ = .ok a₁ s₁') (h₂ : x s₂ = .ok a₂ s₂') :
    s₁'.blank = s₂'.blank := by
  have hfrom : ∀ {s s' : Session} {a : α}, x s = .ok a s' →
      ∃ s₀, x s.blank = .ok a s₀ ∧ s'.blank = s₀.blank := by
    intro s s' a hs
    have hm := hx s s.blank
    rw [Mirrors, Session.recast_blank, hs] at hm
    cases hb : x s.blank with
    | ok b s₀ =>
      rw [hb] at hm
      cases hm
      exact ⟨s₀, rfl, Session.blank_recast s s₀⟩
    | error e s₀ =>
      rw [hb] at hm
      cases hm
  obtain ⟨t₁, ht₁, hb₁⟩ := hfrom h₁
  obtain ⟨t₂, ht₂, hb₂⟩ := hfrom h₂
  rw [h, ht₂] at ht₁
  cases ht₁
  rw [hb₁, hb₂]

end Step.Oblivious

/-- What is written and reported in reply to a line, the prompt included. -/
structure Prompt.Reply where
  written : List Line
  filed : List Report

namespace Session

open Step

variable {line : String} {s : Session}

theorem oblivious_write (line : Line) : Oblivious (write line) :=
  .of_recasts rfl fun _ _ => recasts_write line

theorem oblivious_file (report : Report) : Oblivious (file report) := by
  refine .of_recasts rfl fun before s => ?_
  have h := recasts_file (c := before.past) (s := s) report
  rwa [show before.past.line = id from rfl, Report.relined_id] at h

theorem oblivious_fileAll (reports : List Report) : Oblivious (fileAll reports) := by
  induction reports with
  | nil => exact .pure ()
  | cons report reports ih => exact (oblivious_file report).bind fun _ => ih

theorem oblivious_start : Oblivious start := fun _ _ => .modify rfl

theorem oblivious_forgiveError : Oblivious forgiveError := by
  refine fun before s => .modify ?_
  rw [recast_past, recast_past]
  split <;> rfl

theorem oblivious_stopped : Oblivious stopped := fun _ _ => .get_bind (.pure rfl)

theorem oblivious_parse (source : String) : Oblivious (parse source) := by
  have hscan : Oblivious (scan source) := (oblivious_fileAll _).bind fun _ => .pure _
  exact hscan.bind fun _ => (oblivious_fileAll _).bind fun _ => .pure _

theorem oblivious_resolve (warns : Bool) (statements : List Stmt) :
    Oblivious (resolve warns statements) := by
  refine (oblivious_fileAll _).bind fun _ => ?_
  cases (Scope.resolve warns statements).statements with
  | ok program => exact .pure program
  | error d => exact .throw _

theorem oblivious_interpretSafely (program : List Stmt) : Oblivious (interpretSafely program) := by
  refine .of_recasts Value.relined_id fun before s => ?_
  have h := recasts_interpretSafely (c := before.past) (s := s) program
  rwa [show before.past.line = id from rfl, Stmt.relinedAll_id] at h

theorem oblivious_echo (e : Expr) : Oblivious (echo e) := by
  refine .of_recasts Value.relined_id fun before s => ?_
  have h := recasts_echo (c := before.past) (s := s) e
  rwa [show before.past.line = id from rfl, Expr.relined_id] at h

theorem oblivious_run (source : String) (echoes : Bool) : Oblivious (run source echoes) := by
  refine oblivious_start.bind fun _ => (oblivious_parse source).bind fun statements => ?_
  refine oblivious_stopped.bind fun halt => .ite (.pure _) ?_
  refine (oblivious_resolve true statements).bind fun program => ?_
  refine oblivious_stopped.bind fun halt' => .ite (.pure _) ?_
  split
  · exact oblivious_echo _
  · exact oblivious_interpretSafely _

theorem oblivious_promptFailed (exit : Exit) : Oblivious (promptFailed exit) :=
  .of_recasts rfl fun _ _ => recasts_recordFailure _ _ _

/-! ### Lines and replies -/

def prompted (s : Session) : Session :=
  { s with machine := { s.machine with out := s.machine.out.push .prompt } }

/-- Asks for a line and runs it; the prompt goes on unless the line is empty or fails. -/
def turn (line : String) : Step Bool := do
  write .prompt
  if line.isEmpty then return false
  fun s =>
    match answer line s with
    | .ok _ s' => .ok true s'
    | .error e s' => (do promptFailed e; return false : Step Bool) s'

theorem turn_of_nonempty (h : line.isEmpty = false) (s : Session) :
    turn line s =
      match answer line s.prompted with
      | .ok _ s' => .ok true s'
      | .error e s' => (do promptFailed e; return false : Step Bool) s' := by
  unfold turn
  rw [bind_of_ok (rfl : write .prompt s = .ok () s.prompted), h]
  rfl

theorem turn_of_empty (h : line.isEmpty = true) (s : Session) : turn line s = .ok false s.prompted := by
  unfold turn
  rw [bind_of_ok (rfl : write .prompt s = .ok () s.prompted), h]
  rfl

def reply (s s' : Session) : Prompt.Reply :=
  ⟨s'.machine.out.toList.drop s.machine.out.size, s'.reports.toList.drop s.reports.size⟩

/-- The replies to the lines that are asked for, and at the end of the input what is written then. -/
def replies (ending : Prompt.Ending) : List String → Session → List Prompt.Reply
  | [], _ => [⟨[.prompt, .notice ending.farewell], []⟩]
  | line :: lines, s =>
    match turn line s with
    | .ok true s' => s.reply s' :: replies ending lines s'
    | .ok false s' | .error _ s' => [s.reply s']

def greeted (s : Session) : Session :=
  { s with
    started := true
    machine := { s.machine with out := s.machine.out.push (.notice Prompt.greeting) } }

theorem turn_ne_error (line : String) (s : Session) (e : Exit) (s' : Session) :
    turn line s ≠ .error e s' := by
  intro h
  cases hempty : line.isEmpty with
  | true =>
    rw [turn_of_empty hempty] at h
    cases h
  | false =>
    rw [turn_of_nonempty hempty] at h
    cases hanswer : answer line s.prompted with
    | ok u s₁ =>
      rw [hanswer] at h
      cases h
    | error e₁ s₁ =>
      rw [hanswer] at h
      cases h

theorem promptLines_cons (ending : Prompt.Ending) (line : String) (lines : List String)
    (s : Session) :
    promptLines ending (line :: lines) s =
      match turn line s with
      | .ok true s' => promptLines ending lines s'
      | .ok false s' | .error _ s' => .ok () s' := by
  rw [promptLines, bind_of_ok (rfl : write .prompt s = .ok () s.prompted)]
  cases h : line.isEmpty with
  | true =>
    rw [turn_of_empty h]
    rfl
  | false =>
    rw [turn_of_nonempty h]
    change (match answer line s.prompted with
      | .ok _ s' => promptLines ending lines s'
      | .error e s' => promptFailed e s') = _
    cases answer line s.prompted <;> rfl

theorem oblivious_turn (line : String) : Oblivious (turn line) := by
  refine (oblivious_write .prompt).bind fun _ => .ite (.pure false) fun before s => ?_
  have hanswer : Oblivious (answer line) :=
    (oblivious_run line true).bind fun _ => oblivious_forgiveError
  have hfailed : ∀ e, Oblivious (do promptFailed e; return false : Step Bool) :=
    fun e => (oblivious_promptFailed e).bind fun _ => .pure false
  unfold Mirrors
  dsimp only
  cases hrun : answer line s with
  | ok u s' =>
    rw [(hanswer before s).ok hrun]
    rfl
  | error e s' =>
    rw [(hanswer before s).error hrun]
    exact hfailed e before s'

theorem reply_recast (before s s' : Session) :
    (s.recast before.past).reply (s'.recast before.past) = s.reply s' := by
  rw [recast_past, recast_past]
  simp [reply, List.drop_append]

theorem replies_recast (ending : Prompt.Ending) (lines : List String) (before s : Session) :
    replies ending lines (s.recast before.past) = replies ending lines s := by
  induction lines generalizing s with
  | nil => rfl
  | cons line lines ih =>
    have hturn := oblivious_turn line before s
    unfold replies
    cases hrun : turn line s with
    | ok goesOn s' =>
      rw [hturn.ok hrun]
      cases goesOn with
      | true =>
        dsimp only [id_eq]
        rw [reply_recast, ih]
      | false =>
        dsimp only [id_eq]
        rw [reply_recast]
    | error e s' =>
      rw [hturn.error hrun]
      dsimp only
      rw [reply_recast]

theorem replies_congr {s₁ s₂ : Session} (h : s₁.blank = s₂.blank) (ending : Prompt.Ending)
    (lines : List String) : replies ending lines s₁ = replies ending lines s₂ := by
  calc replies ending lines s₁
    _ = replies ending lines (s₁.blank.recast s₁.past) := by rw [recast_blank]
    _ = replies ending lines s₁.blank := replies_recast ending lines s₁ _
    _ = replies ending lines s₂.blank := by rw [h]
    _ = replies ending lines (s₂.blank.recast s₂.past) := (replies_recast ending lines s₂ _).symm
    _ = replies ending lines s₂ := by rw [recast_blank]

/-- Output and reports only grow. -/
theorem turn_reply {s' : Session} {goesOn : Bool} (h : turn line s = .ok goesOn s') :
    s'.machine.out.toList = s.machine.out.toList ++ (s.reply s').written ∧
      s'.reports.toList = s.reports.toList ++ (s.reply s').filed := by
  -- the same turn from the blank session writes and reports what comes after the past of `s`
  have hm := oblivious_turn line s s.blank
  rw [Mirrors, recast_blank, h] at hm
  cases hb : turn line s.blank with
  | error e s₀ =>
    rw [hb] at hm
    cases hm
  | ok b s₀ =>
    rw [hb] at hm
    cases hm
    rw [recast_past]
    simp [reply]

theorem filed_runtimeError (s : Session) (reports : List Report) :
    (s.filed reports).flags.runtimeError =
      (s.flags.runtimeError || reports.any Report.isFault) :=
  Flags.foldl_raise Flags.raise_runtimeError reports s.flags

/-! ### Rejected lines -/

/-- The session waits for a line, and heeds its flags. -/
structure Waits (s : Session) : Prop where
  attached : s.attached = true
  started : s.started = true
  error : s.flags.error = false

theorem waits_greeted (ha : s.attached = true) (he : s.flags.error = false) :
    s.greeted.Waits := ⟨ha, rfl, he⟩

theorem forgiveError_eq (ha : s.attached = true) :
    forgiveError s = .ok () { s with flags := { s.flags with error := false } } := by
  change EStateM.Result.ok () (if s.attached = true then _ else _) = _
  rw [if_pos ha]

/-- A rejected line leaves the machine alone. -/
theorem answer_of_rejected (h : (Text.mk line true).isRejected = true) (ha : s.attached = true)
    (he : s.flags.error = false) :
    ∃ s', answer line s = .ok () s' ∧ s'.machine = s.machine ∧
      s'.blank = { s with started := true }.blank ∧
      s'.reports = s.reports ++ (Text.mk line true).reports.toArray := by
  have hrun : run line true s = _ := run_of_rejected h ha he
  have hanswer : answer line s = _ := (bind_of_ok hrun).trans (forgiveError_eq ha)
  refine ⟨_, hanswer, rfl, ?_, rfl⟩
  -- the reports raise the flags of errors and warnings only; the first of them is taken back
  have hfault := filed_runtimeError { s with started := true } (Text.mk line true).reports
  rw [Text.any_isFault_reports, Bool.or_false] at hfault
  simp only [blank, hfault, he]
  rfl

theorem ne_empty_of_rejected (h : (Text.mk line true).isRejected = true) : line.isEmpty = false := by
  by_contra hne
  rw [Bool.not_eq_false, String.isEmpty_iff] at hne
  subst hne
  exact absurd h (by decide +kernel)

theorem turn_of_rejected (h : (Text.mk line true).isRejected = true) (hs : s.Waits) :
    ∃ s', turn line s = .ok true s' ∧ s'.blank = s.blank ∧
      s.reply s' = ⟨[.prompt], (Text.mk line true).reports⟩ := by
  obtain ⟨s', hanswer, hmachine, hblank, hreports⟩ :=
    answer_of_rejected h (s := s.prompted) hs.attached hs.error
  have hstarted : ({ s.prompted with started := true } : Session) = s.prompted := by
    rw [← show s.prompted.started = true from hs.started]
  refine ⟨s', ?_, ?_, ?_⟩
  · rw [turn_of_nonempty (ne_empty_of_rejected h), hanswer]
  · rw [hblank, hstarted]
    rfl
  · unfold reply
    rw [hmachine, hreports]
    simp [prompted]

theorem attached_law : Law (fun _ => True) fun s s' : Session =>
    s'.attached = s.attached ∧ (s.started = true → s'.started = true) where
  toTexts := .all
  refl s := ⟨rfl, id⟩
  trans h h' := ⟨h'.1.trans h.1, h'.2 ∘ h.2⟩
  node _ := by
    intro s
    unfold runNode onMachine
    cases Eval.run Eval.bound _ s.machine <;> exact ⟨rfl, id⟩
  write line s := ⟨rfl, id⟩
  note s flags reports := ⟨rfl, id⟩
  start s := ⟨rfl, fun _ => rfl⟩

theorem waits_turn {s' : Session} (hs : s.Waits) (h : turn line s = .ok true s') : s'.Waits := by
  cases hempty : line.isEmpty with
  | true =>
    rw [turn_of_empty hempty] at h
    cases h
  | false =>
    rw [turn_of_nonempty hempty] at h
    cases hanswer : answer line s.prompted with
    | error e s₁ =>
      rw [hanswer] at h
      cases h
    | ok u s₁ =>
      rw [hanswer] at h
      cases h
      obtain ⟨v, s₂, hrun, hforgive⟩ := bind_eq_ok.1 hanswer
      have hkept := (follows_run attached_law line true).ok hrun
      have ha : s₂.attached = true := hkept.1.trans hs.attached
      rw [forgiveError_eq ha] at hforgive
      cases hforgive
      exact ⟨ha, hkept.2 hs.started, rfl⟩

theorem replies_rejected (h : (Text.mk line true).isRejected = true) (ending : Prompt.Ending)
    (before after : List String) (hs : s.Waits) :
    (∀ reply ∈ (replies ending (before ++ line :: after) s)[before.length]?,
        reply = ⟨[.prompt], (Text.mk line true).reports⟩) ∧
      (replies ending (before ++ line :: after) s).eraseIdx before.length =
        replies ending (before ++ after) s := by
  induction before generalizing s with
  | nil =>
    -- the line is asked for: its turn changes only what `blank` leaves out
    obtain ⟨s', hturn, hblank, hreply⟩ := turn_of_rejected h hs
    have hcons : replies ending (line :: after) s = s.reply s' :: replies ending after s' := by
      rw [replies, hturn]
    simp only [List.nil_append, List.length_nil]
    rw [hcons, hreply]
    refine ⟨?_, replies_congr hblank ending after⟩
    rintro reply ⟨⟩
    rfl
  | cons other before ih =>
    -- another line is asked for: it ends the prompt, or the session waits again after it
    simp only [List.cons_append, List.length_cons]
    unfold replies
    cases hturn : turn other s with
    | error e s' =>
      refine ⟨?_, rfl⟩
      rintro reply ⟨⟩
    | ok goesOn s' =>
      cases goesOn with
      | false =>
        refine ⟨?_, rfl⟩
        rintro reply ⟨⟩
      | true =>
        obtain ⟨hreply, hothers⟩ := ih (waits_turn hs hturn)
        exact ⟨hreply, congrArg (s.reply s' :: ·) hothers⟩

theorem exists_promptLines (ending : Prompt.Ending) (lines : List String) (s : Session) :
    ∃ s', promptLines ending lines s = .ok () s' ∧
      s'.machine.out.toList =
        s.machine.out.toList ++ (replies ending lines s).flatMap Prompt.Reply.written ∧
      s'.reports.toList =
        s.reports.toList ++ (replies ending lines s).flatMap Prompt.Reply.filed := by
  induction lines generalizing s with
  | nil =>
    refine ⟨_, rfl, ?_, ?_⟩
    · simp [replies]
    · simp [replies]
  | cons line lines ih =>
    rw [promptLines_cons]
    unfold replies
    cases hturn : turn line s with
    | error e s' => exact absurd hturn (turn_ne_error line s e s')
    | ok goesOn s' =>
      obtain ⟨hout, hreports⟩ := turn_reply hturn
      cases goesOn with
      | false =>
        refine ⟨s', rfl, ?_, ?_⟩
        · simp [hout]
        · simp [hreports]
      | true =>
        obtain ⟨s'', hrest, hout', hreports'⟩ := ih s'
        refine ⟨s'', hrest, ?_, ?_⟩
        · simp [hout', hout]
        · simp [hreports', hreports]

theorem oblivious_promptLines (ending : Prompt.Ending) (lines : List String) :
    Oblivious (promptLines ending lines) := by
  induction lines with
  | nil => exact (oblivious_write .prompt).bind fun _ => oblivious_write _
  | cons line lines ih =>
    intro before s
    unfold Mirrors
    rw [promptLines_cons, promptLines_cons]
    have hturn := oblivious_turn line before s
    cases hrun : turn line s with
    | error e s' =>
      rw [hturn.error hrun]
      rfl
    | ok goesOn s' =>
      rw [hturn.ok hrun]
      cases goesOn with
      | false => rfl
      | true => exact ih before s'

theorem blank_promptLines_rejected (h : (Text.mk line true).isRejected = true) (ending : Prompt.Ending)
    (before after : List String) {s₁ s₂ : Session} (hs : s.Waits)
    (h₁ : promptLines ending (before ++ line :: after) s = .ok () s₁)
    (h₂ : promptLines ending (before ++ after) s = .ok () s₂) : s₁.blank = s₂.blank := by
  induction before generalizing s with
  | nil =>
    obtain ⟨s', hturn, hblank, -⟩ := turn_of_rejected h hs
    rw [List.nil_append, promptLines_cons, hturn] at h₁
    exact (oblivious_promptLines ending after).blank_eq hblank h₁ h₂
  | cons other before ih =>
    rw [List.cons_append, promptLines_cons] at h₁ h₂
    cases hturn : turn other s with
    | error e s' => exact absurd hturn (turn_ne_error other s e s')
    | ok goesOn s' =>
      rw [hturn] at h₁ h₂
      cases goesOn with
      | false =>
        cases h₁
        cases h₂
        rfl
      | true => exact ih (waits_turn hs hturn) h₁ h₂

/-- In a session that heeds its flags, a rejected line is answered with its prompt and with the reports
about it, whatever was typed before. Nothing is run for it, and without it the replies to all other
lines and the machine in which the prompt ends are the same. -/
theorem prompt_rejected {s : Session} (ha : s.attached = true) (he : s.flags.error = false)
    (ending : Prompt.Ending) (before after : List String) {line : String}
    (h : (Text.mk line true).isRejected = true) :
    (∀ s' : Session, s'.attached = true → s'.flags.error = false →
        ∃ s'', answer line s' = .ok () s'' ∧ s''.machine = s'.machine) ∧
      (∀ reply ∈ (replies ending (before ++ line :: after) s.greeted)[before.length]?,
        reply = ⟨[.prompt], (Text.mk line true).reports⟩) ∧
      (replies ending (before ++ line :: after) s.greeted).eraseIdx before.length =
        replies ending (before ++ after) s.greeted ∧
      ∃ s₁ s₂,
        prompt ending (before ++ line :: after) s = .ok () s₁ ∧
        prompt ending (before ++ after) s = .ok () s₂ ∧
        s₁.machine.out.toList = s.greeted.machine.out.toList ++
          (replies ending (before ++ line :: after) s.greeted).flatMap Prompt.Reply.written ∧
        s₂.machine.out.toList = s.greeted.machine.out.toList ++
          (replies ending (before ++ after) s.greeted).flatMap Prompt.Reply.written ∧
        s₁.reports.toList = s.reports.toList ++
          (replies ending (before ++ line :: after) s.greeted).flatMap Prompt.Reply.filed ∧
        s₂.reports.toList = s.reports.toList ++
          (replies ending (before ++ after) s.greeted).flatMap Prompt.Reply.filed ∧
        s₁.blank = s₂.blank ∧ s₁.machine.globalTable = s₂.machine.globalTable := by
  have hs : s.greeted.Waits := waits_greeted ha he
  obtain ⟨hreply, hothers⟩ := replies_rejected h ending before after hs
  obtain ⟨s₁, h₁, hout₁, hreports₁⟩ := exists_promptLines ending (before ++ line :: after) s.greeted
  obtain ⟨s₂, h₂, hout₂, hreports₂⟩ := exists_promptLines ending (before ++ after) s.greeted
  have hblank := blank_promptLines_rejected h ending before after hs h₁ h₂
  refine ⟨?_, hreply, hothers, s₁, s₂, h₁, h₂, hout₁, hout₂, hreports₁, hreports₂, hblank, ?_⟩
  · intro s' ha' he'
    obtain ⟨s'', hanswer, hmachine, -⟩ := answer_of_rejected h ha' he'
    exact ⟨s'', hanswer, hmachine⟩
  · exact congrArg (fun s => s.machine.globalTable) hblank

theorem isRejected_character : (Text.mk "print nil; @" true).isRejected = true := by decide +kernel

/-- A line with a character that starts no token, between two others. -/
theorem prompt_rejected_character :
    (replies .closed ["var a = nil;", "print nil; @", "print nil;"]
        (new true 0).greeted).eraseIdx 1 =
      replies .closed ["var a = nil;", "print nil;"] (new true 0).greeted := by
  obtain ⟨-, -, hothers, -⟩ := prompt_rejected (s := new true 0) rfl rfl .closed ["var a = nil;"]
    ["print nil;"] isRejected_character
  exact hothers

/-- A session that does not heed its flags runs what it could read of a rejected line. -/
theorem prompt_rejected_detached :
    (Text.mk "print nil; @" true).isRejected = true ∧
      ((replies .closed ["print nil; @"] (new false 0).greeted).map Prompt.Reply.written) =
        [[.prompt, .shown "nil"], [.prompt, .notice "\nGoodbye!"]] := by
  refine ⟨isRejected_character, ?_⟩
  decide +kernel

end Session

end Lox
