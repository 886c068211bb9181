import Lox.Proofs.Machine.Bounds
import Lox.Proofs.Session.Scripts
import Lox.Proofs.Tree.Progress

/-!
# An evaluation is not repeated

The expression at the start of a text is evaluated, and where that fails, the rest of the text is read
and the whole of it run. Nothing is carried out a second time all the same: no text is both an expression
with a program behind it and a program.
-/

namespace Lox

open Outcome

namespace Tree

open Reader Grammar

variable {ts rest : List Token} {g : Grammar} {bound : Nat} {e : Expr}

/-! ### Refusals -/

def Refuses {α : Type} (x : Reader α) (ts : List Token) : Prop :=
  ∀ cs, ∃ complaint c, x ⟨ts, cs⟩ = .error (.refused complaint) c

section Refusals

variable {α β : Type} {x y : Reader α} {f : α → Reader β} {ts mid : List Token}

theorem Refuses.refuse (flaw : Flaw) (ts : List Token) : Refuses (Reader.refuse flaw : Reader α) ts :=
  fun _ => ⟨_, _, rfl⟩

theorem Refuses.bind (h : Refuses x ts) : Refuses (x >>= f) ts := by
  intro cs
  obtain ⟨complaint, c, hx⟩ := h cs
  exact ⟨complaint, c, bind_of_error hx⟩

theorem Becomes.refuses (h : Becomes x ts y mid) (hy : Refuses y mid) : Refuses x ts := by
  intro cs
  rw [h cs]
  exact hy cs

theorem Refuses.expect {kind : Token.Kind} {flaw : Flaw} (h : Lacks [kind] ts) :
    Refuses (Reader.expect kind flaw) ts :=
  (Reads.pass h).becomes.refuses (.refuse flaw ts)

variable {g : Grammar} {bound : Nat}

theorem Refuses.assignment (hp : Lacks prefixes ts) (h : Refuses (g.primary bound) ts) :
    Refuses (g.assignment bound) ts := by
  have hunary : Refuses (g.unaryRule bound) ts := (Reads.pass hp).becomes.refuses h.bind
  have hladder : ∀ height, Refuses (ladder g bound height) ts := by
    intro height
    induction height with
    | zero => exact hunary
    | succ height ih => exact ih.bind
  exact (hladder 6).bind

theorem lacks_mono {kinds kinds' : List Token.Kind} (h : Lacks kinds' ts) (hk : kinds ⊆ kinds') :
    Lacks kinds ts := fun t ht hm => h t ht (hk hm)

theorem refuses_assignment (h : Lacks exprStarts ts) : Refuses (g.assignment bound) ts :=
  .assignment (lacks_mono h (by decide))
    ((Reads.pass (lacks_mono h (by decide))).becomes.refuses (.refuse .operand ts))

theorem refuses_assignment_fun {t : Token} (ht : t.kind = .kwFun) (h : Lacks [.leftParen] ts) :
    Refuses (g.assignment bound) (t :: ts) := by
  have hprimary : Becomes (g.primary bound) (t :: ts) (g.lambda bound) ts := by
    refine Becomes.trans (Reads.accept (by simp [ht])).becomes fun cs => ?_
    simp only [ht]
  exact .assignment (.cons (by simp [ht, prefixes])) (hprimary.refuses (Refuses.expect h).bind)

end Refusals

/-! ### Expressions and programs -/

theorem complaints_of_refuses (hne : ts ≠ [])
    (h : ∃ complaint c, (grammar ts.length).declared (ts.length + 1) ⟨ts, []⟩ =
      .error (.refused complaint) c) : (parse ts).complaints ≠ [] := by
  obtain ⟨complaint, c, hdeclared⟩ := h
  have hgrammar := sound_grammar (ts.length + 1)
  have hfirst : (grammar (ts.length + 1)).declaration ⟨ts, []⟩ =
      .ok .gap ⟨recover c.rest, c.complaints ++ [complaint]⟩ := by
    change declarationRule (grammar ts.length) (ts.length + 1) ⟨ts, []⟩ = _
    unfold declarationRule
    rw [hdeclared]
  obtain ⟨-, -, hlength, -⟩ := (hgrammar.declaration ts (Nat.lt_succ_self _) hne).ok hfirst
  dsimp only at hlength
  have hrun := program_eq ts
  rw [program_succ, if_neg (by simpa using hne), bind_of_ok hfirst] at hrun
  obtain ⟨ss, c', hmore, hlast⟩ := bind_eq_ok.1 hrun
  obtain ⟨-, rfl⟩ := pure_eq_ok.1 hlast
  obtain ⟨new, hnew, -⟩ := (gives_program hgrammar (by omega) (by omega)).ok hmore
  -- a complaint is not taken back
  dsimp only at hnew
  rw [hnew]
  simp

theorem declared_of_lacks (hd : Lacks declStarts ts)
    (hs : Lacks [.kwPrint, .leftBrace, .kwIf, .kwWhile, .kwFor, .kwBreak, .kwReturn] ts) :
    Becomes (g.declared bound) ts (g.expressionStmt bound) ts :=
  (Reads.pass hd).becomes.trans (Reads.pass hs).becomes

theorem complaints_of_semicolon {t : Token} (ht : t.kind = .semicolon) :
    (parse (t :: ts)).complaints ≠ [] := by
  refine complaints_of_refuses (List.cons_ne_nil _ _) ?_
  refine (declared_of_lacks (.cons ?_) (.cons ?_)).refuses (Refuses.bind ?_) []
  · simp [ht, declStarts]
  · simp [ht]
  · exact refuses_assignment (.cons (by simp [ht, exprStarts]))

theorem refuses_declared_fun {t : Token} (ht : t.kind = .kwFun) (h : Lacks [.identifier] ts) :
    Refuses (g.declared bound) (t :: ts) := by
  have hfunction : Becomes (g.declared bound) (t :: ts)
      (do return .funDecl (← g.function bound .function false)) ts := by
    refine Becomes.trans (Reads.accept (by simp [ht])).becomes fun cs => ?_
    simp only [ht]
  exact hfunction.refuses (Refuses.expect h).bind.bind

theorem statementStarts_of_exprStarts {kind : Token.Kind} (h : kind ∈ exprStarts) :
    kind ∉ [.kwPrint, .leftBrace, .kwIf, .kwWhile, .kwFor, .kwBreak, .kwReturn] := by
  cases kind <;> simp [exprStarts] at h ⊢

theorem parseExpression_eq_some {complaints : List Complaint} :
    parseExpression ts = ⟨some e, rest, complaints⟩ ↔
      (grammar (ts.length + 1)).expression ⟨ts, []⟩ = .ok e ⟨rest, complaints⟩ := by
  unfold parseExpression
  cases (grammar (ts.length + 1)).expression ⟨ts, []⟩ with
  | ok e' c =>
    cases c
    simp
  | error stop c => cases stop <;> simp

/-- An expression that no semicolon follows is no declaration. -/
theorem refuses_declared_of_reads (h : g.assignment bound ⟨ts, []⟩ = .ok e ⟨rest, []⟩)
    (hrest : Lacks [.semicolon] rest) :
    ∃ complaint c, g.declared bound ⟨ts, []⟩ = .error (.refused complaint) c := by
  have haccepts : ¬Refuses (g.assignment bound) ts := by
    intro hrefuses
    obtain ⟨complaint, c, hx⟩ := hrefuses []
    rw [h] at hx
    cases hx
  cases ts with
  | nil => exact absurd (refuses_assignment .nil) haccepts
  | cons t tail =>
    have hstart : t.kind ∈ exprStarts := by
      by_contra hnot
      exact haccepts (refuses_assignment (.cons hnot))
    by_cases hfun : t.kind = .kwFun
    · -- the anonymous function has a parenthesis where a named one has its name
      refine refuses_declared_fun hfun (fun u hu hname => ?_) []
      refine haccepts (refuses_assignment_fun hfun fun u' hu' hopen => ?_)
      cases Option.some.inj (hu.symm.trans hu')
      rw [List.mem_singleton.1 hname] at hopen
      cases List.mem_singleton.1 hopen
    · have hdecl : t.kind ∉ declStarts := fun hd => hfun (eq_fun_of_starts hstart hd)
      rw [declared_of_lacks (.cons hdecl) (.cons (statementStarts_of_exprStarts hstart)) [],
        expressionStmt, bind_of_ok h]
      exact (Refuses.expect hrest).bind []

/-- An expression with a program behind it is no program. A program would need a semicolon after the
expression, and no program starts with one. -/
theorem complaints_of_parseExpression (h : parseExpression ts = ⟨some e, rest, []⟩)
    (hrest : (parse rest).complaints = []) :
    (parse ts).complaints ≠ [] := by
  have hread := parseExpression_eq_some.1 h
  have hlacks : Lacks [.semicolon] rest := by
    cases rest with
    | nil => exact .nil
    | cons t rest =>
      exact .cons fun ht => complaints_of_semicolon (List.mem_singleton.1 ht) hrest
  have hne : ts ≠ [] := by
    rintro rfl
    cases hread
  exact complaints_of_refuses hne (refuses_declared_of_reads hread hlacks)

theorem exists_of_parseExpression (h : (parseExpression ts).complaints = []) :
    ∃ e taken rest, ts = taken ++ rest ∧ parseExpression ts = ⟨some e, rest, []⟩ := by
  have hsettles : ∀ c, (grammar (ts.length + 1)).expression ⟨ts, []⟩ ≠ .error .tooDeep c :=
    fun _ => deepens_expression.settles (Nat.lt_succ_self _)
  obtain ⟨c, hdeep⟩ | ⟨-, taken, htaken⟩ :=
    (extended_grammar (Nat.le_refl (ts.length + 1))).expression ⟨ts, []⟩
  · exact absurd hdeep (hsettles _)
  unfold parseExpression at h ⊢
  split at h
  · next e c hread =>
    obtain ⟨rest, complaints⟩ := c
    obtain rfl : complaints = [] := h
    rw [hread] at htaken
    exact ⟨e, taken, rest, htaken.symm, rfl⟩
  · simp at h
  · next hdeep => exact absurd hdeep (hsettles _)

end Tree

/-! ### Evaluating a text -/

/-- A step yields `nil` and raises the flag of errors in texts; nothing is carried out. -/
def Step.Declines (x : Step Value) (s : Session) : Prop :=
  ∃ s', x s = .ok .nil s' ∧ s'.machine = s.machine ∧ s'.flags.error = true ∧
    s'.flags.runtimeError = s.flags.runtimeError

namespace Session

variable {s : Session}

/-- What evaluating an expression comes to on the machine: there is none without a machine. -/
def attempt (e : Expr) (s : Session) : EStateM.Result Exit Machine Value :=
  if s.started then Eval.run Eval.bound (.expr e) s.machine
  else .error (.defect .absentMachine) s.machine

def forgiven (s : Session) : Session :=
  { s with flags := { s.flags with error := false, runtimeError := false } }

theorem scan_eq (source : String) (s : Session) :
    scan source s =
      .ok (Token.scan source) (s.filed ((Token.scan source).complaints.map .scanning)) :=
  bind_of_ok (fileAll_eq _ s)

theorem read_eq (lastLine : Nat) (tokens : List Token) (s : Session) :
    read lastLine tokens s = .ok (Tree.parse tokens).statements
      (s.filed ((Tree.parse tokens).complaints.map (.reading lastLine))) :=
  bind_of_ok (fileAll_eq _ s)

theorem readExpression_eq (lastLine : Nat) (tokens : List Token) (s : Session) :
    readExpression lastLine tokens s = .ok (Tree.parseExpression tokens)
      (s.filed ((Tree.parseExpression tokens).complaints.map (.reading lastLine))) :=
  bind_of_ok (fileAll_eq _ s)

theorem forgiveErrors_of_attached (ha : s.attached = true) : forgiveErrors s = .ok () s.forgiven := by
  rw [forgiveErrors_eq, if_pos ha]
  rfl

theorem filed_nil (s : Session) : s.filed [] = s := by simp [filed]

section Stages

variable {α : Type} {stage : Step α} {next : α → Step Value} {a : α} {s : Session}

/-- A stage that complains is the last one. -/
theorem declines_of_complaints {β : Type} {complaints : List β} {report : β → Report}
    (hstage : stage s = .ok a (s.filed (complaints.map report))) (ha : s.attached = true)
    (hreport : ∀ complaint, (report complaint).isError = true ∧ (report complaint).isFault = false)
    (hne : complaints ≠ []) :
    Step.Declines (do
      let a ← stage
      if ← stopped then return .nil
      next a) s := by
  have herror : (complaints.map report).any Report.isError = true := by
    obtain ⟨complaint, hc⟩ := List.exists_mem_of_ne_nil _ hne
    exact List.any_eq_true.2 ⟨report complaint, List.mem_map_of_mem hc, (hreport complaint).1⟩
  have hfault : (complaints.map report).any Report.isFault = false := by
    simp [List.any_map, Function.comp_def, hreport]
  refine ⟨s.filed (complaints.map report), ?_, rfl, ?_, ?_⟩
  · rw [bind_of_ok hstage, bind_of_ok (stopped_filed ha herror)]
    rfl
  · rw [filed_error, herror, Bool.or_true]
  · rw [filed_runtimeError, hfault, Bool.or_false]

/-- A stage that does not complain is followed by the next one. -/
theorem proceeds_of_silent (hstage : stage s = .ok a (s.filed [])) (he : s.flags.error = false) :
    (do let a ← stage
        if ← stopped then return Value.nil
        next a) s = next a s := by
  rw [filed_nil] at hstage
  rw [bind_of_ok hstage, bind_of_ok (stopped_eq s), he, Bool.and_false]
  rfl

end Stages

theorem declines_fallback {source : String} (lastLine : Nat) {rest : List Token}
    (ha : s.attached = true) (he : s.flags.error = false)
    (h : (Tree.parse rest).complaints = [] →
      (Tree.parse (Token.scan source).tokens).complaints ≠ []) :
    Step.Declines (evaluate.fallback source lastLine rest) s := by
  by_cases hrest : (Tree.parse rest).complaints = []
  · have hread := read_eq lastLine rest s
    rw [hrest] at hread
    have hcomplaints : (Text.mk source false).complaints ≠ [] := by
      intro hnone
      exact h hrest (List.map_eq_nil_iff.1 (List.append_eq_nil_iff.1 hnone).2)
    have hreports := Text.reports_of_ne_nil hcomplaints
    have hrejected : (Text.mk source false).isRejected = true := by
      rw [Text.isRejected, hreports]
      exact Text.any_isError_complaints hcomplaints
    refine ⟨_, (proceeds_of_silent hread he).trans (run_of_rejected hrejected ha he), rfl, ?_, ?_⟩
    · rw [filed_error]
      exact Bool.or_eq_true_iff.2 (.inr hrejected)
    · rw [filed_runtimeError, Text.any_isFault_reports, Bool.or_false]
  · exact declines_of_complaints (read_eq lastLine rest s) ha (fun _ => ⟨rfl, rfl⟩) hrest

theorem evaluateExpr_eq (e : Expr) (s : Session) :
    evaluateExpr e s = match s.attempt e with
      | .ok v m => .ok v { s with machine := m }
      | .error exit m => .error exit { s with machine := m } := by
  unfold evaluateExpr attempt
  rw [bind_of_ok (rfl : (get : Step Session) s = .ok s s)]
  split
  · unfold runNode onMachine
    cases Eval.run Eval.bound (.expr e) s.machine <;> rfl
  · rfl

theorem evaluated {source : String} (lastLine : Nat) {e : Expr} {rest : List Token}
    (ha : s.attached = true) (he : s.flags.error = false)
    (h : (Tree.parse rest).complaints = [] →
      (Tree.parse (Token.scan source).tokens).complaints ≠ []) :
    ∃ value s', (match evaluateExpr e s with
        | .error _ s' => evaluate.fallback source lastLine rest s'
        | r => r) = .ok value s' ∧ s'.flags.runtimeError = s.flags.runtimeError ∧
      match s.attempt e with
      | .ok v m => value = v ∧ s'.machine = m ∧ s'.flags.error = false
      | .error _ m => value = .nil ∧ s'.machine = m ∧ s'.flags.error = true := by
  rw [evaluateExpr_eq]
  cases s.attempt e with
  | ok v m => exact ⟨v, { s with machine := m }, rfl, rfl, rfl, rfl, he⟩
  | error exit m =>
    obtain ⟨s', hrun, hmachine, herror, hfault⟩ :=
      declines_fallback (s := { s with machine := m }) lastLine ha he h
    exact ⟨.nil, s', hrun, hfault, rfl, hmachine, herror⟩

/-- What evaluating a text comes to. Either something is wrong with the expression at its start, and
nothing is carried out; or the expression is evaluated once, and whether that succeeds or fails,
nothing else is carried out. An evaluation that reaches the bound of runs, as one does that would not
end, is one that fails. -/
theorem evaluate_once (source : String) (s : Session) (ha : s.attached = true) :
    ∃ value s', evaluate source s = .ok value s' ∧ s'.flags.runtimeError = false ∧
      (((Token.scan source).complaints ≠ [] ∨
          (Tree.parseExpression (Token.scan source).tokens).complaints ≠ []) ∧
        value = .nil ∧ s'.machine = s.machine ∧ s'.flags.error = true ∨
      ∃ e taken rest, (Token.scan source).complaints = [] ∧
        (Token.scan source).tokens = taken ++ rest ∧
        Tree.parseExpression (Token.scan source).tokens = ⟨some e, rest, []⟩ ∧
        match s.attempt e with
        | .ok v m => value = v ∧ s'.machine = m ∧ s'.flags.error = false
        | .error _ m => value = .nil ∧ s'.machine = m ∧ s'.flags.error = true) := by
  have hscan := scan_eq source s.forgiven
  by_cases hscanned : (Token.scan source).complaints = []
  · rw [hscanned] at hscan
    have hread := readExpression_eq (Token.scan source).lastLine (Token.scan source).tokens s.forgiven
    by_cases hparsed : (Tree.parseExpression (Token.scan source).tokens).complaints = []
    · obtain ⟨e, taken, rest, htokens, hexpr⟩ := Tree.exists_of_parseExpression hparsed
      obtain ⟨value, s', hrun, hfault, hattempt⟩ := evaluated (s := s.forgiven)
        (Token.scan source).lastLine ha rfl (Tree.complaints_of_parseExpression hexpr)
      refine ⟨value, s', ?_, hfault, .inr ⟨e, taken, rest, hscanned, htokens, hexpr, hattempt⟩⟩
      rw [hexpr] at hread
      rw [evaluate, bind_of_ok (forgiveErrors_of_attached ha), proceeds_of_silent hscan rfl,
        proceeds_of_silent hread rfl]
      exact hrun
    · obtain ⟨s', hrun, hmachine, herror, hfault⟩ :=
        declines_of_complaints hread ha (fun _ => ⟨rfl, rfl⟩) hparsed
      refine ⟨.nil, s', ?_, hfault, .inl ⟨.inr hparsed, rfl, hmachine, herror⟩⟩
      rw [evaluate, bind_of_ok (forgiveErrors_of_attached ha), proceeds_of_silent hscan rfl]
      exact hrun
  · obtain ⟨s', hrun, hmachine, herror, hfault⟩ :=
      declines_of_complaints hscan ha (fun _ => ⟨rfl, rfl⟩) hscanned
    refine ⟨.nil, s', ?_, hfault, .inl ⟨.inl hscanned, rfl, hmachine, herror⟩⟩
    rw [evaluate, bind_of_ok (forgiveErrors_of_attached ha)]
    exact hrun

def oneGlobal (value : Value) : Session :=
  { new true 0 with
    started := true
    machine :=
      { Machine.start false 0 with
        frames := (Machine.start false 0).frames.write Machine.globalId "a" value } }

def calledAssignment : Expr :=
  .call (.grouping (.assign (.ident "a" 1) .free (.literal (.bool true))))
    ⟨.rightParen, ")", .nil, 1⟩ []

theorem attempt_calledAssignment : (oneGlobal .nil).attempt calledAssignment =
    .error (.fault ⟨.rightParen, ")", .nil, 1⟩ .notCallable) (oneGlobal (.bool true)).machine := by
  have hrun : Eval.run 8 (.expr calledAssignment) (oneGlobal .nil).machine =
      .error (.fault ⟨.rightParen, ")", .nil, 1⟩ .notCallable) (oneGlobal (.bool true)).machine := rfl
  have hstarted : (oneGlobal .nil).started = true := rfl
  obtain hsame | ⟨m', hexhausted⟩ :=
    Eval.run_mono (by decide : 8 ≤ Eval.bound) (.expr calledAssignment) (oneGlobal .nil).machine
  · rw [attempt, if_pos hstarted, hsame, hrun]
  · rw [hrun] at hexhausted
    cases hexhausted

/-- The assignment is made once. The call that fails after it has the rest of the text read and the
whole of it refused: nothing is printed. -/
theorem evaluate_once_assignment : (oneGlobal .nil).attached = true ∧
    ∃ s', evaluate "(a = true)() print a;" (oneGlobal .nil) = .ok .nil s' ∧
      s'.flags.error = true ∧ s'.flags.runtimeError = false ∧
      s'.machine = (oneGlobal (.bool true)).machine := by
  have hscan : (Token.scan "(a = true)() print a;").complaints = [] := by decide +kernel
  have hparse : (Tree.parseExpression (Token.scan "(a = true)() print a;").tokens).complaints = [] := by
    decide +kernel
  have hsame : (Tree.parseExpression (Token.scan "(a = true)() print a;").tokens).expression?.all
      (·.same calledAssignment) = true := by
    decide +kernel
  obtain ⟨value, s', hrun, hfault, ⟨hwrong, -⟩ | ⟨e, taken, rest, -, -, hread, hattempt⟩⟩ :=
    evaluate_once "(a = true)() print a;" (oneGlobal .nil) rfl
  · simp [hscan, hparse] at hwrong
  · rw [hread] at hsame
    rw [Expr.eq_of_same hsame, attempt_calledAssignment] at hattempt
    obtain ⟨rfl, hmachine, herror⟩ := hattempt
    exact ⟨rfl, s', hrun, herror, hfault, hmachine⟩

end Session

end Lox
