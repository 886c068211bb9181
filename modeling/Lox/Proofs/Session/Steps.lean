import Lox.Proofs.Outcome
import Lox.Session.Prompt
import Lox.Session.Script

/-!
# What the steps of a session have in common

A session moves by few kinds of steps: a statement or an expression is run on its machine, a line is
written, reports are filed and flags raised or taken back. A relation that all of them respect is
respected by whatever is built from them.
-/

namespace Lox

open Outcome

variable {α β : Type} {p : Node → Prop} {R : Session → Session → Prop}

/-- The session that an outcome leaves behind is related to another one. -/
def Session.Ends (R : Session → Session → Prop) (s : Session) : EStateM.Result Exit Session α → Prop
  | .ok _ s' => R s s'
  | .error _ s' => R s s'

/-- However the step ends, it leads to a related session. -/
def Step.Follows (R : Session → Session → Prop) (x : Step α) : Prop := ∀ s, Session.Ends R s (x s)

namespace Step.Follows

variable {x : Step α}

theorem ok (h : Follows R x) {s s' : Session} {a : α} (hx : x s = .ok a s') : R s s' := by
  have hs := h s
  rwa [hx] at hs

theorem error (h : Follows R x) {s s' : Session} {e : Exit} (hx : x s = .error e s') : R s s' := by
  have hs := h s
  rwa [hx] at hs

theorem ite {c : Prop} [Decidable c] {y : Step α} (hx : Follows R x) (hy : Follows R y) :
    Follows R (if c then x else y) := by
  by_cases h : c
  · rwa [if_pos h]
  · rwa [if_neg h]

end Step.Follows

/-- What is read from a text and run has a property, whether it is resolved or not. -/
structure Session.Texts (p : Node → Prop) : Prop where
  parsed (source : String) : ∀ s ∈ (Tree.parse (Token.scan source).tokens).statements, p (.stmt s)
  resolved {source : String} {program : List Stmt}
    (h : (Scope.resolve true (Tree.parse (Token.scan source).tokens).statements).statements =
      .ok program) : ∀ s ∈ program, p (.stmt s)
  echoed {e : Expr} (h : p (.stmt (.expression e))) : p (.expr e)
  expression {source : String} {e : Expr}
    (h : (Tree.parseExpression (Token.scan source).tokens).expression? = some e) : p (.expr e)

theorem Session.Texts.all : Session.Texts fun _ => True :=
  ⟨fun _ _ _ => trivial, fun _ _ _ => trivial, fun _ => trivial, fun _ => trivial⟩

/-- A relation that the steps from which a session is built respect, if the nodes that are run have a
property. -/
structure Session.Law (p : Node → Prop) (R : Session → Session → Prop) : Prop
    extends Session.Texts p where
  refl (s : Session) : R s s
  trans {s s' s'' : Session} : R s s' → R s' s'' → R s s''
  node {node : Node} (h : p node) : Step.Follows R (Session.runNode node)
  write (line : Line) : Step.Follows R (Session.write line)
  note (s : Session) (flags : Flags) (reports : Array Report) :
    R s { s with flags := flags, reports := reports }
  start : Step.Follows R Session.start

namespace Session

open Step

section Rules

variable (law : Law p R)

include law

theorem Law.pure (a : α) : Follows R (Pure.pure a : Step α) := fun s => law.refl s

theorem Law.throw (e : Exit) : Follows R (MonadExcept.throw e : Step α) := fun s => law.refl s

theorem Law.after {s s' : Session} (h : R s s') {y : Step α} (hy : Follows R y) :
    Ends R s (y s') := by
  cases hrun : y s' with
  | ok a s'' => exact law.trans h (hy.ok hrun)
  | error e s'' => exact law.trans h (hy.error hrun)

/-- What comes next starts from what a step can yield. -/
theorem Law.bind_of {x : Step α} {f : α → Step β} {q : α → Prop} (hx : Follows R x)
    (hq : ∀ s a s', x s = .ok a s' → q a) (hf : ∀ a, q a → Follows R (f a)) :
    Follows R (x >>= f) := by
  intro s
  cases hrun : x s with
  | ok a s' =>
    rw [bind_of_ok hrun]
    exact law.after (hx.ok hrun) (hf a (hq s a s' hrun))
  | error e s' =>
    rw [bind_of_error hrun]
    exact hx.error hrun

theorem Law.bind {x : Step α} {f : α → Step β} (hx : Follows R x) (hf : ∀ a, Follows R (f a)) :
    Follows R (x >>= f) :=
  law.bind_of hx (fun _ _ _ _ => trivial) fun a _ => hf a

theorem Law.file (report : Report) : Follows R (file report) := fun s => law.note s _ _

theorem Law.heeded (flags : Flags → Flags) : Follows R
    (modify fun s => if s.attached then { s with flags := flags s.flags } else s : Step Unit) := by
  intro s
  change R s (if s.attached = true then _ else s)
  by_cases h : s.attached = true
  · rw [if_pos h]
    exact law.note s _ s.reports
  · rw [if_neg h]
    exact law.refl s

theorem Law.forgiveError : Follows R forgiveError :=
  law.heeded fun flags => { flags with error := false }

theorem Law.forgiveErrors : Follows R forgiveErrors :=
  law.heeded fun flags => { flags with error := false, runtimeError := false }

end Rules

section Steps

variable (law : Law p R)

variable {s s' : Session} {statements : List Stmt}

include law

/-! ### Reading a text -/

theorem follows_fileAll (reports : List Report) : Follows R (fileAll reports) := by
  induction reports with
  | nil => exact law.pure ()
  | cons report reports ih => exact law.bind (law.file report) fun _ => ih

theorem follows_stopped : Follows R stopped := fun s => law.refl s

theorem follows_scan (source : String) : Follows R (scan source) :=
  law.bind (follows_fileAll law _) fun _ => law.pure _

theorem follows_read (lastLine : Nat) (tokens : List Token) : Follows R (read lastLine tokens) :=
  law.bind (follows_fileAll law _) fun _ => law.pure _

theorem follows_readExpression (lastLine : Nat) (tokens : List Token) :
    Follows R (readExpression lastLine tokens) :=
  law.bind (follows_fileAll law _) fun _ => law.pure _

theorem follows_parse (source : String) : Follows R (parse source) :=
  law.bind (follows_scan law source) fun _ => follows_read law _ _

theorem follows_resolve (warns : Bool) (statements : List Stmt) :
    Follows R (resolve warns statements) := by
  refine law.bind (follows_fileAll law _) fun _ => ?_
  split
  · exact law.pure _
  · exact law.throw _

omit law in
theorem scan_eq_ok {source : String} {scanned : Token.Scan} (h : scan source s = .ok scanned s') :
    scanned = Token.scan source := by
  obtain ⟨_, _, -, hr⟩ := bind_eq_ok.1 h
  exact (pure_eq_ok.1 hr).1.symm

omit law in
theorem readExpression_eq_ok {lastLine : Nat} {tokens : List Token} {parsed : Tree.ParsedExpr}
    (h : readExpression lastLine tokens s = .ok parsed s') :
    parsed = Tree.parseExpression tokens := by
  obtain ⟨_, _, -, hr⟩ := bind_eq_ok.1 h
  exact (pure_eq_ok.1 hr).1.symm

omit law in
theorem parse_eq_ok {source : String} (h : parse source s = .ok statements s') :
    statements = (Tree.parse (Token.scan source).tokens).statements := by
  obtain ⟨scanned, _, hscan, hread⟩ := bind_eq_ok.1 h
  obtain ⟨_, _, -, hr⟩ := bind_eq_ok.1 hread
  rw [← (pure_eq_ok.1 hr).1, scan_eq_ok hscan]

omit law in
theorem resolve_eq_ok {warns : Bool} {program : List Stmt}
    (h : resolve warns statements s = .ok program s') :
    (Scope.resolve warns statements).statements = .ok program := by
  obtain ⟨_, _, -, hr⟩ := bind_eq_ok.1 h
  cases hresolved : (Scope.resolve warns statements).statements with
  | ok resolved =>
    rw [hresolved] at hr
    rw [(pure_eq_ok.1 hr).1]
  | error d =>
    rw [hresolved] at hr
    cases hr

/-! ### Running a text -/

theorem follows_recordFailure (intro category message : String) :
    Follows R (recordFailure intro category message) :=
  law.bind (law.write _) fun _ => law.file _

theorem follows_runFaulted (token : Token) (fault : Fault) : Follows R (runFaulted token fault) :=
  law.bind (law.file _) fun _ => law.pure _

theorem follows_runFailed (exit : Exit) : Follows R (runFailed exit) :=
  law.bind (follows_recordFailure law _ _ _) fun _ => law.pure _

theorem follows_interpret (last : Value) (h : ∀ s ∈ statements, p (.stmt s)) :
    Follows R (interpret last statements) := by
  induction statements generalizing last with
  | nil => exact law.pure last
  | cons t ts ih =>
    have hnode := law.node (h t (by simp))
    have hrest := fun v => ih v fun s hs => h s (by simp [hs])
    intro s
    unfold interpret
    cases hrun : runNode (.stmt t) s with
    | ok v s' => exact law.after (hnode.ok hrun) (hrest v)
    | error e s' =>
      have hs := hnode.error hrun
      cases e with
      | returned v => exact law.after hs (hrest v)
      | fault token cause => exact law.after hs (follows_runFaulted law token cause)
      | delivered | broke | defect | exhausted => exact hs

theorem follows_interpretSafely (h : ∀ s ∈ statements, p (.stmt s)) :
    Follows R (interpretSafely statements) := by
  intro s
  unfold interpretSafely
  cases hrun : interpret .nil statements s with
  | ok v s' => exact (follows_interpret law _ h).ok hrun
  | error e s' => exact law.after ((follows_interpret law _ h).error hrun) (follows_runFailed law e)

theorem follows_echo {e : Expr} (h : p (.expr e)) : Follows R (echo e) := by
  have hvalue : Follows R (onMachine (Run.catchReturn (Eval.run Eval.bound (.expr e)))) := by
    intro s
    have hnode := law.node h s
    unfold runNode onMachine at hnode
    unfold onMachine Run.catchReturn
    cases hrun : Eval.run Eval.bound (.expr e) s.machine with
    | ok v m =>
      rw [hrun] at hnode
      exact hnode
    | error exit m =>
      rw [hrun] at hnode
      cases exit <;> exact hnode
  refine law.bind hvalue fun v => law.bind ?_ fun text => law.bind (law.write _) fun _ => law.pure _
  cases v.print with
  | ok text => exact law.pure text
  | error d => exact law.throw _

theorem follows_run (source : String) (echoes : Bool) : Follows R (run source echoes) := by
  refine law.bind law.start fun _ => ?_
  refine law.bind_of (follows_parse law source) (fun _ _ _ => parse_eq_ok) fun statements hs => ?_
  subst hs
  refine law.bind (follows_stopped law) fun halt => Follows.ite (law.pure _) ?_
  refine law.bind_of (follows_resolve law _ _) (fun _ _ _ => resolve_eq_ok) fun program hp => ?_
  have hprogram := law.resolved hp
  refine law.bind (follows_stopped law) fun halt' => Follows.ite (law.pure _) ?_
  split
  · exact follows_echo law (law.echoed (hprogram _ (by simp)))
  · exact follows_interpretSafely law hprogram

theorem follows_runTrees (h : ∀ node, p node) (statements : List Stmt) (resolves : Bool) :
    Follows R (runTrees statements resolves) := by
  have hrest : ∀ program, Follows R (do
      if ← stopped then return none
      some <$> interpret .nil program : Step (Option Value)) := by
    intro program
    refine law.bind (follows_stopped law) fun halt => Follows.ite (law.pure _) ?_
    exact law.bind (follows_interpret law _ fun s _ => h (.stmt s)) fun v => law.pure _
  refine law.bind law.start fun _ => Follows.ite ?_ ?_
  · exact law.bind (follows_resolve law _ _) hrest
  · exact law.bind (law.pure _) hrest

theorem follows_runUnresolved (source : String) : Follows R (runUnresolved source) := by
  refine law.bind law.start fun _ => ?_
  refine law.bind_of (follows_parse law source) (fun _ _ _ => parse_eq_ok) fun statements hs => ?_
  subst hs
  intro s
  exact Follows.ite (law.pure _) (follows_interpret law _ (law.parsed source)) s

theorem follows_evaluateExpr {e : Expr} (h : p (.expr e)) : Follows R (evaluateExpr e) := by
  intro s
  exact Follows.ite (law.node h) (law.throw _) s

theorem follows_evaluate (source : String) : Follows R (evaluate source) := by
  have hfallback : ∀ (lastLine : Nat) (rest : List Token),
      Follows R (evaluate.fallback source lastLine rest) := by
    intro lastLine rest
    refine law.bind (follows_read law _ _) fun _ => ?_
    exact law.bind (follows_stopped law) fun halt => Follows.ite (law.pure _) (follows_run law _ _)
  refine law.bind law.forgiveErrors fun _ => ?_
  refine law.bind_of (follows_scan law source) (fun _ _ _ => scan_eq_ok) fun scanned hs => ?_
  subst hs
  refine law.bind (follows_stopped law) fun halt => Follows.ite (law.pure _) ?_
  refine law.bind_of (follows_readExpression law _ _) (fun _ _ _ => readExpression_eq_ok)
    fun parsed hp => ?_
  subst hp
  refine law.bind (follows_stopped law) fun halt' => Follows.ite (law.pure _) ?_
  cases he : (Tree.parseExpression (Token.scan source).tokens).expression? with
  | none => exact law.pure _
  | some e =>
    have hexpr := follows_evaluateExpr law (law.expression he)
    intro s
    dsimp only
    cases hrun : evaluateExpr e s with
    | ok v s' => exact hexpr.ok hrun
    | error exit s' => exact law.after (hexpr.error hrun) (hfallback _ _)

/-! ### Prompts and scripts -/

theorem follows_answer (line : String) : Follows R (answer line) :=
  law.bind (follows_run law line true) fun _ => law.forgiveError

theorem follows_promptFailed (exit : Exit) : Follows R (promptFailed exit) :=
  follows_recordFailure law _ _ _

theorem follows_promptLines (ending : Prompt.Ending) (lines : List String) :
    Follows R (promptLines ending lines) := by
  induction lines with
  | nil => exact law.bind (law.write _) fun _ => law.write _
  | cons line lines ih =>
    refine law.bind (law.write _) fun _ => Follows.ite (law.pure ()) fun s => ?_
    cases hrun : answer line s with
    | ok v s' => exact law.after ((follows_answer law line).ok hrun) ih
    | error e s' =>
      exact law.after ((follows_answer law line).error hrun) (follows_promptFailed law e)

theorem follows_prompt (ending : Prompt.Ending) (lines : List String) :
    Follows R (prompt ending lines) :=
  law.bind law.start fun _ => law.bind (law.write _) fun _ => follows_promptLines law ending lines

theorem follows_runText (path text : String) : Follows R (runText path text) := by
  refine law.bind (law.write _) fun _ => fun s => ?_
  have hrest : Follows R (do
      let _ ← run text false
      if s.debug then write (.trace "文件执行完成") : Step Unit) :=
    law.bind (follows_run law text false) fun _ => Follows.ite (law.write _) (law.pure ())
  exact Follows.ite (law.bind (law.write _) fun _ => hrest) hrest s

theorem follows_exitCode : Follows R exitCode :=
  fun s => Follows.ite (law.pure _) (Follows.ite (law.pure _) (law.pure _)) s

theorem follows_scriptFailed (path category message : String) :
    Follows R (scriptFailed path category message) :=
  law.bind (follows_recordFailure law _ _ _) fun _ => law.pure _

theorem follows_runReadable (path text : String) : Follows R (runReadable path text) := by
  intro s
  unfold runReadable
  cases hrun : runText path text s with
  | ok v s' =>
    have hs := (follows_runText law path text).ok hrun
    exact law.after (y := exitCode) hs (follows_exitCode law)
  | error e s' =>
    exact law.after ((follows_runText law path text).error hrun) (follows_scriptFailed law _ _ _)

theorem follows_runScript (hdebug : ∀ on, Follows R (setDebug on)) (path : String) (debug : Bool)
    (contents : Script.Contents) : Follows R (runScript path debug contents) := by
  refine law.bind (hdebug debug) fun _ => law.bind law.forgiveErrors fun _ => ?_
  refine law.bind law.start fun _ => Follows.ite (follows_scriptFailed law _ _ _) ?_
  cases contents with
  | missing => exact law.bind (law.file _) fun _ => law.pure _
  | blocked obstacle => exact follows_scriptFailed law _ _ _
  | bytes data =>
    dsimp only
    cases Script.text data with
    | ok text => exact follows_runReadable law path text
    | error cause => exact follows_scriptFailed law _ _ _

end Steps

end Session

end Lox
