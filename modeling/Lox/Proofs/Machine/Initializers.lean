import Lox.Proofs.Machine.Origins
import Lox.Proofs.Machine.Written
import Lox.Proofs.Session.Run

/-!
# Errors in an initializer

A declaration passes over an error in its initializer if the token to blame is spelled like the declared
variable. It does not ask which node has raised the error: besides a read of the variable that may be an
assignment, a property or a superclass of that name. The variable then gets the value that the enclosing
environment has for it, or `nil` if there is no enclosing environment.
-/

namespace Lox

open Eval Outcome

/-! ### The frame that declares variables -/

def Policy.any : Policy where
  callable _ := True
  waiting _ := True
  runs _ := True
  frames _ := True

theorem Policy.any_lawful : Policy.any.Lawful where
  part _ _ _ _ := trivial
  initializer _ := trivial
  block _ _ _ _ := trivial
  call _ _ _ _ _ _ _ := trivial
  bind _ _ _ := trivial
  inherit _ _ := trivial
  lambda _ := trivial
  function _ := trivial
  method _ _ _ _ _ := by
    unfold Policy.allows
    split <;> trivial
  push _ _ := trivial
  write _ _ _ _ _ := trivial

namespace Machine

variable {m m' : Machine}

theorem Reachable.obeys_any (hm : m.Reachable) : m.Obeys .any := by
  induction hm with
  | start traced clock => exact obeys_start trivial
  | @ended m m' depth node _ he ih =>
    have hruns : Policy.any.runs ⟨depth, node, m⟩ := trivial
    have hk := Policy.any_lawful.run_keeps depth hruns ih
    rcases he with ⟨v, hv⟩ | ⟨e, he⟩
    · exact (hk.ok hv).2.1
    · exact (hk.error he).2.1
  | inside _ hr ih => exact (Policy.any_lawful.reaches trivial ih hr).2
  | aside _ hframes hfields _ _ ih => exact ih.congr hframes hfields

theorem Reachable.exists_frame (hm : m.Reachable) :
    ∃ frame outer vars, m.env = frame :: outer ∧ m.frames[frame]? = some (.named vars) := by
  obtain ⟨h, hd⟩ := hm.exists_describes
  obtain ⟨frame, outer, henv⟩ : ∃ frame outer, m.env = frame :: outer := by
    have hp := hd.env
    cases henv : m.env with
    | nil =>
      rw [henv] at hp
      cases hp
    | cons frame outer => exact ⟨frame, outer, rfl⟩
  have hlt : frame < m.frames.size := by
    rw [← hd.size]
    exact Heap.lt_length_of_path hd.env frame (by simp [henv])
  obtain ⟨vars, hid, -⟩ := hm.obeys_any.values.exists_named hlt
  exact ⟨frame, outer, vars, henv, hid⟩

theorem Reachable.exists_vars (hm : m.Reachable) {frame : FrameId} {outer : Env}
    (henv : m.env = frame :: outer) : ∃ vars, m.frames[frame]? = some (.named vars) := by
  obtain ⟨frame', outer', vars, henv', hid⟩ := hm.exists_frame
  cases henv.symm.trans henv'
  exact ⟨vars, hid⟩

theorem Reachable.env_of_endsIn {depth : Nat} {node : Node} (hm : m.Reachable)
    (he : EndsIn depth node m m') : m'.env = m.env := by
  obtain ⟨h, hd⟩ := hm.exists_describes
  obtain ⟨h', hl⟩ := he.exists_later hd
  exact hl.env

end Machine

/-- What a declaration goes on with when it passes over an error: the value that the enclosing
environment has for the variable, or `nil` if there is no enclosing environment. -/
def Frames.Supplies (frames : Frames) (outer : Env) (x : String) (v : Value) : Prop :=
  outer = [] ∧ v = .nil ∨ outer ≠ [] ∧ frames.get outer x = .ok v

namespace Eval

variable {depth : Nat} {m m' : Machine} {name token : Token} {init : Expr} {fault : Fault}

theorem varDecl_of_ok (hm : m.Reachable) {frame : FrameId} {outer : Env} (henv : m.env = frame :: outer)
    {v : Value} (h : run depth (.expr init) m = .ok v m') (name : Token) :
    run (depth + 1) (.stmt (.varDecl name (some init))) m =
      .ok .nil { m' with frames := m'.frames.write frame name.lexeme v } := by
  have henv' : m'.env = frame :: outer := (hm.env_of_endsIn (.inl ⟨v, h⟩)).trans henv
  obtain ⟨vars, hid⟩ := (hm.ended (.inl ⟨v, h⟩)).exists_vars henv'
  have hinit : initializer (run depth) name init m = .ok v m' := by
    unfold initializer
    rw [h]
  change (initializer (run depth) name init >>= fun v => do
    Run.define name name.lexeme v
    return .nil : Run Value) m = _
  rw [bind_of_ok hinit, bind_of_ok (define_eq henv' hid _ _)]
  rfl

/-! ### Initializers that fail -/

/-- An initializer that fails is passed over if and only if the token to blame is spelled like the
variable and there is a value to go on with. -/
theorem initializer_cases (h : run depth (.expr init) m = .error (.fault token fault) m')
    (name : Token) :
    (∃ v, token.lexeme = name.lexeme ∧ m'.frames.Supplies m'.env.tail name.lexeme v ∧
      initializer (run depth) name init m = .ok v m') ∨
    ¬(token.lexeme = name.lexeme ∧ ∃ v, m'.frames.Supplies m'.env.tail name.lexeme v) ∧
      initializer (run depth) name init m = .error (.fault token fault) m' := by
  rw [initializer_of_fault name h, List.drop_one]
  by_cases heq : token.lexeme = name.lexeme
  · rw [if_pos heq]
    have htail : m'.env.length ≤ 1 ↔ m'.env.tail = [] := by
      rw [← List.length_eq_zero_iff, List.length_tail]
      omega
    by_cases hlen : m'.env.length ≤ 1
    · rw [if_pos hlen]
      exact .inl ⟨.nil, heq, .inl ⟨htail.1 hlen, rfl⟩, rfl⟩
    · rw [if_neg hlen]
      have henv : m'.env.tail ≠ [] := fun h => hlen (htail.2 h)
      cases hget : m'.frames.get m'.env.tail name.lexeme with
      | ok v => exact .inl ⟨v, heq, .inr ⟨henv, hget⟩, rfl⟩
      | error d =>
        refine .inr ⟨?_, rfl⟩
        rintro ⟨-, v, ⟨hnone, -⟩ | ⟨-, hv⟩⟩
        · exact henv hnone
        · cases hget.symm.trans hv
  · rw [if_neg heq]
    exact .inr ⟨fun hs => heq hs.1, rfl⟩

/-- A declaration whose initializer fails completes with the value that is supplied, or ends as its
initializer does. -/
theorem varDecl_cases (hm : m.Reachable)
    (h : run depth (.expr init) m = .error (.fault token fault) m') (name : Token) :
    (token.lexeme = name.lexeme ∧ ∃ frame v, m.env.head? = some frame ∧
      m'.frames.Supplies m.env.tail name.lexeme v ∧
      run (depth + 1) (.stmt (.varDecl name (some init))) m =
        .ok .nil { m' with frames := m'.frames.write frame name.lexeme v }) ∨
    ¬(token.lexeme = name.lexeme ∧ ∃ v, m'.frames.Supplies m.env.tail name.lexeme v) ∧
      run (depth + 1) (.stmt (.varDecl name (some init))) m = .error (.fault token fault) m' := by
  have henv' : m'.env = m.env := hm.env_of_endsIn (.inr ⟨_, h⟩)
  have hm' : m'.Reachable := hm.ended (.inr ⟨_, h⟩)
  obtain ⟨frame, outer, vars, henv, hid⟩ := hm'.exists_frame
  have hrun : run (depth + 1) (.stmt (.varDecl name (some init))) m =
      (initializer (run depth) name init >>= fun v => do
        Run.define name name.lexeme v
        return .nil : Run Value) m := rfl
  rw [hrun, ← henv']
  obtain ⟨v, heq, hs, hinit⟩ | ⟨hnone, hinit⟩ := initializer_cases h name
  · refine .inl ⟨heq, frame, v, by rw [henv]; rfl, hs, ?_⟩
    rw [bind_of_ok hinit, bind_of_ok (define_eq henv hid _ _)]
    rfl
  · exact .inr ⟨hnone, bind_of_error hinit⟩

/-- What a declaration does whose initializer fails. The error comes from a node that raises it, of
whatever kind. The declaration completes if and only if the token to blame is spelled like the declared
variable and there is no enclosing environment or that has a value for the variable; then nothing is
changed but that the variable gets `nil` or that value in the innermost frame. Otherwise the declaration
ends with the same error and on the same machine as its initializer. So if there is an enclosing
environment and the error comes from reading a variable, it is passed over only if it says that the
declared variable has no value, and the enclosing environment has one. -/
theorem declaration_passes_over_iff {depth : Nat} {m m' : Machine} {name token : Token} {init : Expr}
    {fault : Fault} (hm : m.Reachable)
    (h : run depth (.expr init) m = .error (.fault token fault) m') :
    (∃ depth' n s, Origin (.fault token fault) ⟨depth, .expr init, m⟩ ⟨depth' + 1, n, s⟩ ∧
      n.Blames token fault) ∧
    ((∃ u m'', run (depth + 1) (.stmt (.varDecl name (some init))) m = .ok u m'') ↔
      token.lexeme = name.lexeme ∧ ∃ v, m'.frames.Supplies m.env.tail name.lexeme v) ∧
    (∀ u m'', run (depth + 1) (.stmt (.varDecl name (some init))) m = .ok u m'' →
      ∃ frame v, m.env.head? = some frame ∧ m'.frames.Supplies m.env.tail name.lexeme v ∧
        m'' = { m' with frames := m'.frames.write frame name.lexeme v }) ∧
    (∀ e m'', run (depth + 1) (.stmt (.varDecl name (some init))) m = .error e m'' →
      e = .fault token fault ∧ m'' = m') ∧
    (m.env.tail ≠ [] →
      (∀ depth' n s, Origin (.fault token fault) ⟨depth, .expr init, m⟩ ⟨depth' + 1, n, s⟩ →
        ∃ x address, n = .expr (.variable x address)) →
      (∃ u m'', run (depth + 1) (.stmt (.varDecl name (some init))) m = .ok u m'') →
      fault.IsAbsence name.lexeme ∧ ∃ v, m'.frames.get m.env.tail name.lexeme = .ok v) := by
  obtain ⟨depth', n, s, horigin, hblames⟩ := exists_blamed h
  refine ⟨⟨depth', n, s, horigin, hblames⟩, ?_⟩
  obtain ⟨heq, frame, v, hhead, hs, hrun⟩ | ⟨hnone, hrun⟩ := varDecl_cases hm h name
  · rw [hrun]
    refine ⟨⟨fun _ => ⟨heq, v, hs⟩, fun _ => ⟨_, _, rfl⟩⟩, ?_, ?_, ?_⟩
    · rintro u m'' hok
      cases hok
      exact ⟨frame, v, hhead, hs, rfl⟩
    · rintro e m'' herror
      cases herror
    · intro htail hreads _
      obtain ⟨x, address, rfl⟩ := hreads depth' n s horigin
      have habsent : fault.IsAbsence token.lexeme := by
        cases hblames with
        | «variable» hf => exact hf
      obtain ⟨hempty, -⟩ | ⟨-, hget⟩ := hs
      · exact absurd hempty htail
      · exact ⟨heq ▸ habsent, v, hget⟩
  · rw [hrun]
    refine ⟨⟨?_, fun hs => absurd hs hnone⟩, ?_, ?_, ?_⟩
    · rintro ⟨u, m'', hok⟩
      cases hok
    · rintro u m'' hok
      cases hok
    · rintro e m'' herror
      cases herror
      exact ⟨rfl, rfl⟩
    · rintro - - ⟨u, m'', hok⟩
      cases hok

/-- An initializer that reads a property `x` of an instance without fields. -/
private def readsProperty : Expr :=
  .get (.call (.variable (.ident "K" 1) .free) ⟨.rightParen, ")", .nil, 1⟩ []) (.ident "x" 1)

/-- The declaration of a variable of that name. -/
private def propertyDecl : Stmt := .varDecl (.ident "x" 1) (some readsProperty)

/-- The machine on which the class is declared, and a global variable of the name. -/
private def propertyGlobals : Machine :=
  leftBy 2 (.stmt (.varDecl (.ident "x" 1) (some (.literal (.bool true)))))
    (leftBy 1 (.stmt (.classDecl (.ident "K" 1) none [])) (.start false 0))

private def propertyBlock : Machine := propertyGlobals.enter propertyGlobals.env .empty

private theorem propertyBlock_reachable : propertyBlock.Reachable := by
  have hglobals : propertyGlobals.Reachable :=
    ((Machine.Reachable.start false 0).ended (endsIn_leftBy _ _ _)).ended (endsIn_leftBy _ _ _)
  have hblock : Reaches 5 (.stmt (.block [propertyDecl])) propertyGlobals (.stmt propertyDecl)
      propertyBlock := .block (List.nil_append _).symm rfl
  exact hglobals.inside hblock

/-- The instance has no such property. The declaration in the block passes over that, since there is a
global variable of the name. -/
theorem declaration_passes_over_iff_property :
    run 3 (.expr readsProperty) propertyBlock =
        .error (.fault (.ident "x" 1) (.undefinedProperty "x"))
          (leftBy 3 (.expr readsProperty) propertyBlock) ∧
      ∃ u m', run 4 (.stmt propertyDecl) propertyBlock = .ok u m' := by
  have h : run 3 (.expr readsProperty) propertyBlock =
      .error (.fault (.ident "x" 1) (.undefinedProperty "x"))
        (leftBy 3 (.expr readsProperty) propertyBlock) := rfl
  have hvalue : (leftBy 3 (.expr readsProperty) propertyBlock).frames.get propertyBlock.env.tail "x" =
      .ok (.bool true) := rfl
  have htail : propertyBlock.env.tail ≠ [] := List.cons_ne_nil _ _
  obtain ⟨-, hiff, -⟩ := declaration_passes_over_iff propertyBlock_reachable h
  exact ⟨h, hiff.2 ⟨rfl, .bool true, .inr ⟨htail, hvalue⟩⟩⟩

/-- A block whose variable is initialized with a property that does not exist. -/
def hiddenProperty : Text where
  source := "class K{}var x=true;{var x=K().x;print x;}"
  echoes := false

/-- A global variable that is initialized with a property of `nil`, and a statement after it. -/
def hiddenGlobal : Text where
  source := "var x=nil.x;print true;"
  echoes := false

/-- Neither error is reported. The variable of the block gets the value of the global one, and the
statement after the other declaration is run. -/
theorem declaration_hides_error :
    ((Session.new true 0).left (Session.run hiddenProperty.source hiddenProperty.echoes)).machine.out =
        #[.shown "true"] ∧
      ((Session.new true 0).left (Session.run hiddenProperty.source hiddenProperty.echoes)).reports =
        #[] ∧
      ((Session.new true 0).left (Session.run hiddenGlobal.source hiddenGlobal.echoes)).machine.out =
        #[.shown "true"] ∧
      ((Session.new true 0).left (Session.run hiddenGlobal.source hiddenGlobal.echoes)).reports =
        #[] := by
  decide +kernel

end Eval

end Lox
