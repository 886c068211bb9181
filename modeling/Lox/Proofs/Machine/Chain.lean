import Lox.Proofs.Machine.Receivers
import Lox.Proofs.Machine.Written

/-!
# Methods of one name

An instance has the methods that its class and its superclasses declare. Those of one name are run
together, from the root class down: each body once, on the same receiver and arguments, and the result
is that of the last.

## Design notes

A method that no other class redefines is given its receiver when it is read, before the arguments are
evaluated, and an initializer looks its receiver up once more at the end. That both find the instance
rests on the fact that what a frame holds under `this` never changes.
-/

namespace Lox

open Eval Outcome

/-! ### Looking methods up -/

namespace Class

variable {c : Class} {name : String}

theorem methodChain_eq (c : Class) (name : String) :
    c.methodChain name = c.lineage.reverse.filterMap fun k => k.methods.get? name := by
  rw [methodChain, List.filterMap_reverse]

theorem getLast?_methodChain (c : Class) (name : String) :
    (c.methodChain name).getLast? = c.findMethod? name := by
  rw [methodChain, List.getLast?_reverse, List.head?_filterMap, findMethod?_eq]

theorem methodChain_eq_nil : c.methodChain name = [] ↔ c.findMethod? name = none := by
  rw [← getLast?_methodChain, List.getLast?_eq_none_iff]

/-- No class is its own superclass, however far up. -/
theorem Known.pairwise_lineage {h : Heap} : ∀ {c : Class}, c.Known h →
    c.lineage.Pairwise fun k l => l.id < k.id
  | .mk id name none methods statics, _ => List.pairwise_singleton _ _
  | .mk id name (some parent) methods statics, hc => by
    obtain ⟨hlt, hp⟩ := hc.parent rfl
    have htail := hp.pairwise_lineage
    refine List.pairwise_cons.2 ⟨fun k hk => ?_, htail⟩
    -- the superclass is the first of its own lineage, and the others come before it
    obtain ⟨rest, hrest⟩ : ∃ rest, parent.lineage = parent :: rest := by
      obtain ⟨_, _, superclass?, _, _⟩ := parent
      cases superclass? <;> exact ⟨_, rfl⟩
    rw [hrest] at hk htail
    rcases List.mem_cons.1 hk with rfl | hmem
    · exact hlt
    · exact ((List.pairwise_cons.1 htail).1 k hmem).trans hlt

end Class

/-! ### One method -/

/-- The variables with which a method starts: the receiver, `inner`, and the arguments under the names
of the parameters. -/
def Closure.methodVars (f : Closure) (o : Object) (frame : FrameId) (args : List Value) : Table Value :=
  (f.params.zip args).foldl (fun vars entry => vars.insert entry.1.lexeme entry.2)
    ((Table.empty.insert "this" (.object o)).insert "inner" (.native (.inner frame)))

/-- How a method on an instance ends when its body has ended: a return statement gives its value;
without one the value is `nil`, or the instance for an initializer. Any other exit goes on. -/
def Closure.settle (f : Closure) (o : Object) (env : Env) :
    EStateM.Result Exit Machine Unit → EStateM.Result Exit Machine Value
  | .ok _ m => .ok (if f.isInit then .object o else .nil) { m with env := env }
  | .error (.returned v) m => .ok v { m with env := env }
  | .error (.delivered v) m => .ok (if f.isInit then .object o else v) { m with env := env }
  | .error e m => .error e { m with env := env }

theorem Closure.settle_eq_ok {f : Closure} {o : Object} {env : Env} {v : Value} {m' : Machine}
    {r : EStateM.Result Exit Machine Unit} (h : f.settle o env r = .ok v m') :
    ∃ m, m' = { m with env := env } ∧ (r = .ok () m ∨ ∃ e, r = .error e m) := by
  cases r with
  | ok u m =>
    cases h
    exact ⟨m, rfl, .inl rfl⟩
  | error e m =>
    refine ⟨m, ?_, .inr ⟨e, rfl⟩⟩
    cases e <;> cases h <;> rfl

namespace Eval

variable {g : Closure} {env : Env} {base : Frames} {body : List Stmt} {rec : Recur} {m' : Machine}

/-- A method is run once on an instance and arguments, with the given outcome: its body runs in a frame
with the arguments, inside one that holds the instance. That one was opened before or is opened now. -/
def Activates (depth : Nat) (o : Object) (args : List Value) (f : Closure) (m : Machine)
    (r : EStateM.Result Exit Machine Value) : Prop :=
  ∃ (frame : FrameId) (s : Machine), (s = m ∨ s = m.receive (.object o)) ∧
    s.frames.held? frame "this" = some (.object o) ∧
    r = f.settle o m.env (execAll (run depth) f.body
      (s.enter (frame :: f.env) (f.methodVars o s.frames.size args)))

/-- Methods are run in turn on the same instance and arguments, each in the machine that the one before
has left. The outcome is that of the last; a method that does not end with a value is the last. -/
inductive InTurn (depth : Nat) (o : Object) (args : List Value) :
    List Closure → Machine → EStateM.Result Exit Machine Value → Prop where
  | last {f : Closure} {m : Machine} {r : EStateM.Result Exit Machine Value}
      (h : Activates depth o args f m r) : InTurn depth o args [f] m r
  | next {f g : Closure} {fs : List Closure} {m m' : Machine} {v : Value}
      {r : EStateM.Result Exit Machine Value} (h : Activates depth o args f m (.ok v m'))
      (hr : InTurn depth o args (g :: fs) m' r) : InTurn depth o args (f :: g :: fs) m r
  | stops {f : Closure} {fs : List Closure} {m m' : Machine} {e : Exit}
      (h : Activates depth o args f m (.error e m')) : InTurn depth o args (f :: fs) m (.error e m')

variable {depth : Nat} {o : Object} {args : List Value} {f : Closure} {m s : Machine}

theorem bindParams_eq {params : List Token} (h : params.length = args.length) (vars : Table Value) :
    bindParams vars params args =
      .ok ((params.zip args).foldl (fun vars entry => vars.insert entry.1.lexeme entry.2) vars) := by
  induction params generalizing args vars with
  | nil => rfl
  | cons p ps ih =>
    cases args with
    | nil => cases h
    | cons a as => exact ih (Nat.succ.inj h) _

theorem receiver_eq {frame : FrameId} {v : Value} (henv : g.env = frame :: env)
    (h : s.frames.held? frame "this" = some v) :
    receiver g s = .ok v s := by
  have hframe : g.env[0]? = some frame := by rw [henv]; rfl
  exact receiver_of_getAt (Frames.getAt_of_held? hframe h)

theorem receiverVars_eq (hname : g.name?.isSome) (frame : FrameId) :
    receiverVars g (.object o) frame =
      .ok ((Table.empty.insert "this" (.object o)).insert "inner" (.native (.inner frame))) := by
  obtain ⟨name, hname⟩ := Option.isSome_iff_exists.1 hname
  unfold receiverVars
  rw [hname]

theorem callVars_eq (hname : g.name?.isSome) (harity : g.arity = args.length) (frame : FrameId) :
    callVars g (.object o) frame args = .ok (g.methodVars o frame args) := by
  unfold callVars
  rw [receiverVars_eq hname]
  change (if g.isGetter then _ else _) = _
  unfold Closure.arity at harity
  by_cases hgetter : g.isGetter = true
  · -- a getter takes no arguments, so nothing is bound to its parameters
    rw [if_pos hgetter] at harity ⊢
    rw [List.length_eq_zero_iff.1 harity.symm]
    unfold Closure.methodVars
    rw [List.zip_nil_right]
    rfl
  · rw [if_neg hgetter] at harity ⊢
    exact bindParams_eq harity _

/-! ### Bodies that a text can have -/

theorem written_execAll (depth : Nat) (hb : Stmt.allOf Node.isWritten body = true)
    (hm : m.Obeys (.written base)) :
    (Policy.written base).Keeps (execAll (run depth) body) (execAll (run depth) body) m
      fun _ _ => True := by
  induction body generalizing m with
  | nil => exact .pure hm trivial
  | cons t ts ih =>
    obtain ⟨ht, hts⟩ := Bool.and_eq_true_iff.1 hb
    have hruns : (Policy.written base).runs ⟨depth, .stmt t, m⟩ := ht
    refine ((Policy.written_lawful base).run_keeps depth hruns hm).bind fun _ m' _ _ hm' _ => ?_
    exact ih hts hm'

theorem written_evalAll {es : List Expr} (he : Expr.allOf Node.isWritten es = true)
    (hm : m.Obeys (.written base)) :
    (Policy.written base).Keeps (evalAll (run depth) es) (evalAll (run depth) es) m
      fun vs _ => ∀ v ∈ vs, v.Obeys (.written base) := by
  induction es generalizing m with
  | nil => exact .pure hm (by simp)
  | cons e es ih =>
    obtain ⟨he, hes⟩ := Bool.and_eq_true_iff.1 he
    have hruns : (Policy.written base).runs ⟨depth, .expr e, m⟩ := he
    refine ((Policy.written_lawful base).run_keeps depth hruns hm).bind fun v m₁ _ _ hm₁ hv => ?_
    refine (ih hes hm₁).bind fun vs m₂ _ _ hm₂ hvs => .pure hm₂ ?_
    exact List.forall_mem_cons.2 ⟨hv, hvs⟩

theorem execIn_eq (rec : Recur) (env : Env) (vars : Table Value) (body : List Stmt) (s : Machine) :
    execIn rec env vars body s = Run.within (s.frames.size :: env) (execAll rec body)
      { s with frames := s.frames.push (.named vars) } := rfl

theorem deliver_execIn_ok {vars : Table Value} {u : Unit}
    (h : execAll rec body (s.enter env vars) = .ok u m') :
    deliver (execIn rec env vars body) s = .ok .nil { m' with env := s.env } := by
  unfold deliver
  rw [execIn_eq]
  unfold Run.within
  unfold Machine.enter at h
  rw [h]

theorem deliver_execIn_error {vars : Table Value} {e : Exit}
    (h : execAll rec body (s.enter env vars) = .error e m') :
    deliver (execIn rec env vars body) s =
      match e with
      | .delivered v => .ok v { m' with env := s.env }
      | e => .error e { m' with env := s.env } := by
  unfold deliver
  rw [execIn_eq]
  unfold Run.within
  unfold Machine.enter at h
  rw [h]
  cases e <;> rfl

theorem written_receive (ho : o.type.Obeys (.written base)) (hs : s.Obeys (.written base)) :
    (s.receive (.object o)).Obeys (.written base) := by
  have hobject : Value.Obeys (.written base) (.object o) := ho
  have hvars := (Table.All.empty (Value.Obeys (.written base))).insert "this" hobject
  exact (hs.push (Policy.written_lawful base) hvars).congr rfl rfl

section Activation

variable {base : Frames} (hf : (Policy.written base).waiting f) (harity : f.arity = args.length)
  (ho : o.type.Obeys (.written base)) (hargs : ∀ a ∈ args, a.Obeys (.written base))
  (hs : s.Obeys (.written base))

include hf harity ho hargs hs

theorem written_entered (frame : FrameId) :
    (s.enter (frame :: f.env) (f.methodVars o s.frames.size args)).Obeys (.written s.frames) := by
  have hvars : (f.methodVars o s.frames.size args).All (Value.Obeys (.written s.frames)) :=
    Policy.obeys_callVars (callVars_eq hf.1 harity s.frames.size) ho hargs
  exact (hs.rebase.push (Policy.written_lawful s.frames) hvars).congr rfl rfl

/-- Applying a method that has its receiver is to run it once. -/
theorem catchReturn_apply {frame : FrameId} (hframe : s.frames.held? frame "this" = some (.object o))
    (id : Nat) :
    Run.catchReturn (apply (run depth) { f with id := id, env := frame :: f.env } args) s =
      f.settle o s.env (execAll (run depth) f.body
        (s.enter (frame :: f.env) (f.methodVars o s.frames.size args))) := by
  generalize hg : ({ f with id := id, env := frame :: f.env } : Closure) = g
  have henv : g.env = frame :: f.env := by rw [← hg]
  have hvars : callVars g (.object o) s.frames.size args =
      .ok (f.methodVars o s.frames.size args) := by
    subst hg
    exact callVars_eq hf.1 harity s.frames.size
  have happly : apply (run depth) g args s = (do
      let result ← deliver
        (execIn (run depth) (frame :: f.env) (f.methodVars o s.frames.size args) f.body)
      if f.isInit then receiver g else return result : Run Value) s := by
    unfold apply
    rw [bind_of_ok (receiver_eq henv hframe)]
    change (Run.ofExcept (callVars g (.object o) s.frames.size args) >>= _) s = _
    rw [hvars]
    subst hg
    rfl
  -- an initializer yields what its frame holds at the end, and that is still the instance
  have hkept : ∀ m' : Machine, m'.Obeys (.written s.frames) →
      receiver g { m' with env := s.env } = .ok (.object o) { m' with env := s.env } := by
    intro m' hm'
    have hlt : frame < s.frames.size := by
      by_contra hge
      unfold Frames.held? at hframe
      rw [Array.getElem?_eq_none (Nat.le_of_not_lt hge)] at hframe
      cases hframe
    exact receiver_eq henv ((hm'.frames.2 frame hlt).trans hframe)
  have hbody := written_execAll depth hf.2 (written_entered hf harity ho hargs hs frame)
  unfold Run.catchReturn
  rw [happly]
  cases hrun : execAll (run depth) f.body
      (s.enter (frame :: f.env) (f.methodVars o s.frames.size args)) with
  | ok u m' =>
    rw [bind_of_ok (deliver_execIn_ok hrun)]
    cases hinit : f.isInit with
    | true => simp [hkept m' (hbody.ok hrun).2.1, Closure.settle, hinit]
    | false => simp [Closure.settle, hinit, pure, EStateM.pure]
  | error e m' =>
    have hd := deliver_execIn_error hrun
    cases e with
    | delivered v =>
      rw [bind_of_ok hd]
      cases hinit : f.isInit with
      | true => simp [hkept m' (hbody.error hrun).2.1, Closure.settle, hinit]
      | false => simp [Closure.settle, hinit, pure, EStateM.pure]
    | returned | broke | fault | defect | exhausted =>
      rw [bind_of_error hd]
      rfl

theorem activates_bound : Activates depth o args f s (Run.catchReturn (do
    let bound ← bindReceiver f (.object o)
    apply (run depth) bound args) s) := by
  have hframe : (s.receive (.object o)).frames.held? s.frames.size "this" = some (.object o) := by
    simp [Machine.receive, Frames.held?]
  refine ⟨s.frames.size, s.receive (.object o), .inr rfl, hframe, ?_⟩
  exact catchReturn_apply hf harity ho hargs (written_receive ho hs) hframe s.fresh

theorem Activates.exists_obeys {m' : Machine} {v : Value}
    (h : Activates depth o args f s (.ok v m')) :
    ∃ opened : Frames, s.frames.size < opened.size ∧ m'.Obeys (.written opened) := by
  obtain ⟨frame, start, hstart, -, hr⟩ := h
  have hs' : start.Obeys (.written base) ∧ s.frames.size ≤ start.frames.size := by
    rcases hstart with rfl | rfl
    · exact ⟨hs, le_rfl⟩
    · exact ⟨written_receive ho hs, by simp [Machine.receive]⟩
  have hbody := written_execAll depth hf.2 (written_entered hf harity ho hargs hs'.1 frame).rebase
  refine ⟨(start.enter (frame :: f.env) (f.methodVars o start.frames.size args)).frames, ?_, ?_⟩
  · rw [Machine.enter, Array.size_push]
    exact Nat.lt_succ_of_le hs'.2
  · obtain ⟨m₁, rfl, hrun | ⟨e, hrun⟩⟩ := Closure.settle_eq_ok hr.symm
    · exact (hbody.ok hrun).2.1.congr rfl rfl
    · exact (hbody.error hrun).2.1.congr rfl rfl

end Activation

/-- Applying a chain runs its methods in turn. -/
theorem inTurn_applyChain {methods : List Closure} (hne : methods ≠ [])
    (hms : ∀ f ∈ methods, (Policy.written base).waiting f ∧ f.arity = args.length)
    (ho : o.type.Obeys (.written base)) (hargs : ∀ a ∈ args, a.Obeys (.written base))
    (hm : m.Obeys (.written base)) (v : Value) :
    InTurn depth o args methods m (applyChain (run depth) o args methods v m) := by
  induction methods generalizing m v base with
  | nil => exact absurd rfl hne
  | cons f fs ih =>
    obtain ⟨hf, harity⟩ := hms f (by simp)
    have hact : Activates depth o args f m _ := activates_bound hf harity ho hargs hm
    unfold applyChain
    cases hrun : Run.catchReturn (do
        let bound ← bindReceiver f (.object o)
        apply (run depth) bound args) m with
    | error e m' =>
      rw [hrun] at hact
      rw [bind_of_error hrun]
      exact .stops hact
    | ok u m' =>
      rw [hrun] at hact
      rw [bind_of_ok hrun]
      cases fs with
      | nil => exact .last hact
      | cons g gs =>
        -- what is asked of functions and values does not depend on the frames
        obtain ⟨opened, -, hm'⟩ := hact.exists_obeys hf harity ho hargs hm
        have hrest : ∀ k ∈ g :: gs, (Policy.written opened).waiting k ∧ k.arity = args.length :=
          fun k hk => hms k (List.mem_cons_of_mem f hk)
        exact .next hact (ih (by simp) hrest ho hargs hm' u)

theorem InTurn.catchReturn_eq {fs : List Closure} {x : Run Value}
    (h : InTurn depth o args fs m (x m)) : Run.catchReturn x m = x m := by
  have hact : ∀ {f : Closure} {m : Machine} {r : EStateM.Result Exit Machine Value},
      Activates depth o args f m r → ∀ v m', r ≠ .error (.returned v) m' := by
    rintro f m r ⟨frame, s, -, -, rfl⟩ v m'
    unfold Closure.settle
    split <;> simp_all
  have hnone : ∀ v m', x m ≠ .error (.returned v) m' := by
    generalize x m = r at h
    induction h with
    | last h => exact hact h
    | next _ _ ih => exact ih
    | stops h => exact hact h
  unfold Run.catchReturn
  split
  · next v m' hx => exact absurd hx (hnone v m')
  · rfl

/-! ### Properties -/

theorem length_evalAll {es : List Expr} {vs : List Value} (h : evalAll rec es m = .ok vs m') :
    vs.length = es.length := by
  induction es generalizing m vs with
  | nil =>
    cases h
    rfl
  | cons e es ih =>
    obtain ⟨v, m₁, -, h⟩ := bind_eq_ok.1 h
    obtain ⟨rest, m₂, hrest, h⟩ := bind_eq_ok.1 h
    cases h
    simp [ih hrest]

/-- A call with as many arguments as its callee takes. -/
theorem run_call {callee : Expr} {paren : Token} {arguments : List Expr} {v : Value}
    {m₁ m₂ : Machine} (hc : run depth (.expr callee) m = .ok v m₁)
    (ha : evalAll (run depth) arguments m₁ = .ok args m₂) (hn : arity? v = some args.length) :
    run (depth + 1) (.expr (.call callee paren arguments)) m =
      Run.catchReturn (call (run depth) v args) m₂ := by
  change (run depth (.expr callee) >>= _) m = _
  rw [bind_of_ok hc, bind_of_ok ha]
  unfold callChecked
  rw [hn]
  simp

theorem call_chain_inTurn {callee : Expr} {paren : Token} {arguments : List Expr} {id : Nat}
    {fs : List Closure} {m₁ m₂ : Machine}
    (hc : run depth (.expr callee) m = .ok (.chain id (f :: g :: fs) o) m₁)
    (ha : evalAll (run depth) arguments m₁ = .ok args m₂)
    (hms : ∀ k ∈ f :: g :: fs, (Policy.written base).waiting k ∧ k.arity = args.length)
    (ho : o.type.Obeys (.written base)) (hargs : ∀ a ∈ args, a.Obeys (.written base))
    (hm₂ : m₂.Obeys (.written base)) :
    InTurn depth o args (f :: g :: fs) m₂
      (run (depth + 1) (.expr (.call callee paren arguments)) m) := by
  have harity : arity? (.chain id (f :: g :: fs) o) = some args.length :=
    congrArg some (hms f (by simp)).2
  have hturn : InTurn depth o args (f :: g :: fs) m₂ _ :=
    inTurn_applyChain (by simp) hms ho hargs hm₂ .nil
  rw [run_call hc ha harity, show call (run depth) (.chain id (f :: g :: fs) o) args =
    applyChain (run depth) o args (f :: g :: fs) .nil from rfl, hturn.catchReturn_eq]
  exact hturn

section Property

variable {name : Token} (hfield : (m.fields[o.id]?).bind (·.get? name.lexeme) = none)

variable {rec : Recur}

include hfield

theorem field?_eq : Run.field? o name.lexeme m = .ok none m := by
  rw [← hfield]
  rfl

theorem property_undefined (hfound : o.type.findMethod? name.lexeme = none) :
    property rec o name m = .error (.fault name (.undefinedProperty name.lexeme)) m := by
  unfold property
  rw [bind_of_ok (field?_eq hfield), hfound]
  rfl

theorem property_single (hchain : o.type.methodChain name.lexeme = [f]) :
    property rec o name m =
      (if f.isGetter then Run.catchReturn (apply rec (f.received m) [])
        else return .function (f.received m) : Run Value) (m.receive (.object o)) := by
  have hfound : o.type.findMethod? name.lexeme = some f := by
    rw [← Class.getLast?_methodChain, hchain]
    rfl
  unfold property
  rw [bind_of_ok (field?_eq hfield), hfound]
  dsimp only
  rw [hchain]
  rfl

theorem property_chain {g : Closure} {fs : List Closure}
    (hchain : o.type.methodChain name.lexeme = f :: g :: fs) :
    property rec o name m = .ok (.chain m.fresh (f :: g :: fs) o) { m with fresh := m.fresh + 1 } := by
  unfold property
  rw [bind_of_ok (field?_eq hfield)]
  cases hfound : o.type.findMethod? name.lexeme with
  | none =>
    rw [Class.methodChain_eq_nil.2 hfound] at hchain
    cases hchain
  | some k =>
    dsimp only
    rw [hchain]
    rfl

end Property

section Dispatch

variable {m₁ : Machine} {object : Expr} {name : Token} (hm : m.Written)
  (hn : (Expr.get object name).all Node.isWritten = true)
  (ho : run depth (.expr object) m = .ok (.object o) m₁)
  (hfield : (m₁.fields[o.id]?).bind (·.get? name.lexeme) = none)

include ho in
theorem run_get : run (depth + 1) (.expr (.get object name)) m = property (run depth) o name m₁ := by
  change (run depth (.expr object) >>= fun v => getProperty (run depth) v name) m = _
  rw [bind_of_ok ho]
  rfl

include hm hn ho in
theorem written_object : m₁.Obeys (.written m₁.frames) ∧ o.type.Obeys (.written m₁.frames) := by
  have hobject : (Policy.written m.frames).runs ⟨depth, .expr object, m⟩ :=
    (Bool.and_eq_true_iff.1 hn).2
  obtain ⟨-, hm₁, hv⟩ := ((Policy.written_lawful m.frames).run_keeps depth hobject hm.obeys).ok ho
  exact ⟨hm₁.rebase, hv⟩

include hm hn ho hfield

theorem get_getter_ne (hchain : o.type.methodChain name.lexeme = [f]) (hgetter : f.isGetter = true)
    (e : Exit) : run (depth + 1) (.expr (.get object name)) m ≠ .error e m₁ := by
  obtain ⟨hm₁, hclass⟩ := written_object hm hn ho
  have hmem : f ∈ o.type.methodChain name.lexeme := by simp [hchain]
  have hfound : (o.type.findMethod? name.lexeme).isSome = true := by
    rw [← Class.getLast?_methodChain, hchain]
    rfl
  -- from now on the frames are those with the receiver
  have hreceived := (written_receive hclass hm₁).rebase
  have hruns : (Policy.written (m₁.receive (.object o)).frames).runs
      ⟨depth + 1, .expr (.get object name), m⟩ := hn
  have hb := Binds.property ho hfield hfound hchain
  rw [hgetter] at hb
  have hk := (Policy.written_lawful _).keeps_apply hruns (.method hb)
    (hclass.methodChain hmem).2 (by simp) hreceived
  rw [run_get ho, property_single hfield hchain, if_pos hgetter]
  intro herror
  obtain ⟨-, hend, -⟩ := hk.catchReturn.error herror
  have hsize : m₁.frames.size + 1 ≤ m₁.frames.size := by
    simpa [Machine.receive] using hend.frames.1
  exact Nat.not_succ_le_self _ hsize

/-- A property is undefined if no class has a method for it. -/
theorem get_undefined_iff : run (depth + 1) (.expr (.get object name)) m =
      .error (.fault name (.undefinedProperty name.lexeme)) m₁ ↔
    o.type.findMethod? name.lexeme = none := by
  constructor
  · intro herror
    by_contra hfound
    match hchain : o.type.methodChain name.lexeme with
    | [] => exact hfound (Class.methodChain_eq_nil.1 hchain)
    | [f] =>
      by_cases hgetter : f.isGetter = true
      · exact get_getter_ne hm hn ho hfield hchain hgetter _ herror
      · rw [run_get ho, property_single hfield hchain, if_neg hgetter] at herror
        cases herror
    | f :: g :: fs =>
      rw [run_get ho, property_chain hfield hchain] at herror
      cases herror
  · intro hfound
    rw [run_get ho, property_undefined hfield hfound]

theorem call_inTurn (hfound : o.type.findMethod? name.lexeme ≠ none)
    (hgetters : ∀ f ∈ o.type.methodChain name.lexeme, f.isGetter = false) :
    ∃ callee m₂, run (depth + 1) (.expr (.get object name)) m = .ok callee m₂ ∧
      ∀ paren arguments args m₃, Expr.allOf Node.isWritten arguments = true →
        (∀ f ∈ o.type.methodChain name.lexeme, f.params.length = arguments.length) →
        evalAll (run (depth + 1)) arguments m₂ = .ok args m₃ →
          InTurn (depth + 1) o args (o.type.methodChain name.lexeme) m₃
            (run (depth + 2) (.expr (.call (.get object name) paren arguments)) m) := by
  obtain ⟨hm₁, hclass⟩ := written_object hm hn ho
  match hchain : o.type.methodChain name.lexeme with
  | [] => exact absurd (Class.methodChain_eq_nil.1 hchain) hfound
  | [f] =>
    have hmem : f ∈ o.type.methodChain name.lexeme := by simp [hchain]
    have hgetter := hgetters f hmem
    have hget : run (depth + 1) (.expr (.get object name)) m =
        .ok (.function (f.received m₁)) (m₁.receive (.object o)) := by
      rw [run_get ho, property_single hfield hchain, if_neg (by simp [hgetter])]
      rfl
    refine ⟨_, _, hget, fun paren arguments args m₃ hwritten hparams hargs => ?_⟩
    have harity : f.arity = args.length := by
      rw [length_evalAll hargs, ← hparams f (by simp), Closure.arity, if_neg (by simp [hgetter])]
    -- the receiver was bound before the arguments were evaluated, and its frame still holds it
    have hreceived := (written_receive hclass hm₁).rebase
    obtain ⟨-, hm₃, hobeys⟩ := (written_evalAll hwritten hreceived).ok hargs
    have hframe : m₃.frames.held? m₁.frames.size "this" = some (.object o) := by
      rw [hm₃.frames.2 _ (by simp [Machine.receive])]
      simp [Machine.receive, Frames.held?]
    rw [run_call hget hargs (congrArg some harity)]
    have hf : (Policy.written (m₁.receive (.object o)).frames).waiting f := hclass.methodChain hmem
    refine .last ⟨m₁.frames.size, m₃, .inl rfl, hframe, ?_⟩
    exact catchReturn_apply hf harity hclass hobeys hm₃ hframe m₁.fresh
  | f :: g :: fs =>
    have hget := (run_get ho).trans (property_chain hfield hchain)
    refine ⟨_, _, hget, fun paren arguments args m₃ hwritten hparams hargs => ?_⟩
    have hm₂ : Machine.Obeys (.written m₁.frames) { m₁ with fresh := m₁.fresh + 1 } :=
      hm₁.congr rfl rfl
    obtain ⟨-, hm₃, hobeys⟩ := (written_evalAll hwritten hm₂).ok hargs
    have hms : ∀ k ∈ f :: g :: fs, (Policy.written m₁.frames).waiting k ∧ k.arity = args.length := by
      intro k hk
      have hmem : k ∈ o.type.methodChain name.lexeme := by rwa [hchain]
      refine ⟨hclass.methodChain hmem, ?_⟩
      rw [length_evalAll hargs, ← hparams k hk, Closure.arity, if_neg (by simp [hgetters k hmem])]
    exact call_chain_inTurn hget hargs hms hclass hobeys hm₃

include hm ho in
omit hn hfield in
theorem pairwise_lineage : o.type.lineage.Pairwise fun c d => d.id < c.id := by
  obtain ⟨h, hd⟩ := hm.reachable.exists_describes
  obtain ⟨h', -, hknown⟩ := (conserves_run depth _ h m hd).ok ho
  exact Class.Known.pairwise_lineage hknown

end Dispatch

/-- The methods of an instance. Reading a property that is no field fails as undefined if and only if
no method is found, and none is found if and only if no class on the way up has one. The methods of the
name form a chain, root class first, with that of each class that has one; no class comes twice, and
the method that is found is the last. If none of them is a getter, calling the property with as many
arguments as they have parameters runs their bodies in turn. -/
theorem methods_in_turn {depth : Nat} {m m₁ : Machine} {object : Expr} {name : Token} {o : Object}
    (hm : m.Written) (hn : (Expr.get object name).all Node.isWritten = true)
    (ho : run depth (.expr object) m = .ok (.object o) m₁)
    (hfield : (m₁.fields[o.id]?).bind (·.get? name.lexeme) = none) :
    (run (depth + 1) (.expr (.get object name)) m =
        .error (.fault name (.undefinedProperty name.lexeme)) m₁ ↔
      o.type.findMethod? name.lexeme = none) ∧
    (o.type.findMethod? name.lexeme = none ↔
      ∀ c ∈ o.type.lineage, c.methods.get? name.lexeme = none) ∧
    o.type.methodChain name.lexeme =
      o.type.lineage.reverse.filterMap (fun c => c.methods.get? name.lexeme) ∧
    (o.type.lineage.Pairwise fun c d => d.id < c.id) ∧
    (o.type.methodChain name.lexeme).getLast? = o.type.findMethod? name.lexeme ∧
    (o.type.findMethod? name.lexeme ≠ none →
      (∀ f ∈ o.type.methodChain name.lexeme, f.isGetter = false) →
      ∃ callee m₂, run (depth + 1) (.expr (.get object name)) m = .ok callee m₂ ∧
        ∀ paren arguments args m₃, Expr.allOf Node.isWritten arguments = true →
          (∀ f ∈ o.type.methodChain name.lexeme, f.params.length = arguments.length) →
          evalAll (run (depth + 1)) arguments m₂ = .ok args m₃ →
            InTurn (depth + 1) o args (o.type.methodChain name.lexeme) m₃
              (run (depth + 2) (.expr (.call (.get object name) paren arguments)) m)) :=
  ⟨get_undefined_iff hm hn ho hfield, Class.findMethod?_eq_none, Class.methodChain_eq _ _,
    pairwise_lineage hm ho, Class.getLast?_methodChain _ _, call_inTurn hm hn ho hfield⟩

/-- A class whose method returns its argument. -/
private def returningClass : Stmt :=
  .classDecl (.ident "A" 1) none
    [⟨.ident "say" 1, [.ident "x" 1],
      [.returnStmt ⟨.kwReturn, "return", .nil, 1⟩ (some (.variable (.ident "x" 1) (.hops 0)))],
      false, false⟩]

/-- A subclass of it whose method prints its argument. -/
private def printingClass : Stmt :=
  .classDecl (.ident "B" 2) (some (.ident "A" 2, .free))
    [⟨.ident "say" 2, [.ident "x" 2], [.print (.variable (.ident "x" 2) (.hops 0))], false, false⟩]

private def bothDeclared : Machine :=
  leftBy 1 (.stmt printingClass) (leftBy 1 (.stmt returningClass) (.start false 0))

private theorem bothDeclared_written : bothDeclared.Written := by
  have hfirst : (Node.stmt returningClass).all Node.isWritten = true := by decide +kernel
  have hsecond : (Node.stmt printingClass).all Node.isWritten = true := by decide +kernel
  exact ((Machine.Written.start false 0).ended hfirst (endsIn_leftBy ..)).ended hsecond (endsIn_leftBy ..)

/-- Making an instance of the subclass. -/
private def newPrinter : Expr := .call (.variable (.ident "B" 3) .free) ⟨.rightParen, ")", .nil, 3⟩ []

/-- Whether a run ends with an instance that has two methods of a name, neither of them a getter and
each with one parameter, and no such field. -/
private def endsWithPair (name : String) : EStateM.Result Exit Machine Value → Bool
  | .ok (.object o) m =>
    ((m.fields[o.id]?).bind (·.get? name)).isNone &&
      match o.type.methodChain name with
      | [f, g] => [f, g].all fun k => !k.isGetter && k.params.length == 1
      | _ => false
  | _ => false

/-- The instance has two methods of the name and no such field. -/
private theorem newPrinter_methods : ∃ o m₁ f g,
    run 3 (.expr newPrinter) bothDeclared = .ok (.object o) m₁ ∧
      (m₁.fields[o.id]?).bind (·.get? "say") = none ∧ o.type.methodChain "say" = [f, g] ∧
      [f, g].all (fun k => !k.isGetter && k.params.length == 1) = true := by
  have hcheck : endsWithPair "say" (run 3 (.expr newPrinter) bothDeclared) = true := by decide +kernel
  unfold endsWithPair at hcheck
  split at hcheck
  · next o m₁ hrun =>
    obtain ⟨hfield, hchain⟩ := Bool.and_eq_true_iff.1 hcheck
    split at hchain
    · next f g hpair => exact ⟨o, m₁, f, g, hrun, Option.isNone_iff_eq_none.1 hfield, hpair, hchain⟩
    · cases hchain
  · cases hcheck

/-- A method of the superclass that returns does not keep that of the class from running. -/
theorem methods_in_turn_say : ∃ o m₁ m₃ f g,
    run 3 (.expr newPrinter) bothDeclared = .ok (.object o) m₁ ∧
      o.type.methodChain "say" = [f, g] ∧
      InTurn 4 o [.text "hi"] [f, g] m₃ (run 5 (.expr (.call (.get newPrinter (.ident "say" 3))
        ⟨.rightParen, ")", .nil, 3⟩ [.literal (.text "hi")])) bothDeclared) := by
  obtain ⟨o, m₁, f, g, hrun, hfield, hchain, hall⟩ := newPrinter_methods
  have hfits : ∀ k ∈ o.type.methodChain "say", k.isGetter = false ∧ k.params.length = 1 := by
    rw [hchain]
    simpa using hall
  have hfound : o.type.findMethod? "say" ≠ none := by
    rw [← Class.getLast?_methodChain, hchain]
    simp
  have hwritten : (Expr.get newPrinter (.ident "say" 3)).all Node.isWritten = true := by decide +kernel
  obtain ⟨-, -, -, -, -, hcalls⟩ := methods_in_turn bothDeclared_written hwritten hrun hfield
  obtain ⟨callee, m₂, -, hturn⟩ := hcalls hfound fun k hk => (hfits k hk).1
  have h := hturn ⟨.rightParen, ")", .nil, 3⟩ [.literal (.text "hi")] [.text "hi"] m₂ (by decide +kernel)
    (fun k hk => (hfits k hk).2) rfl
  rw [show (Token.ident "say" 3).lexeme = "say" from rfl, hchain] at h
  exact ⟨o, m₁, m₂, f, g, hrun, hchain, h⟩

end Eval

end Lox
