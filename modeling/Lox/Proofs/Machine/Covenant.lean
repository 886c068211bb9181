import Lox.Proofs.Machine.Policy
import Lox.Proofs.Mirror

/-!
# Covenants

A covenant is a policy that may speak of the frames there are, together with a change of frames that
makes no difference: what is asked of a function may depend on what its environment holds, and goes on
holding while the frames grow. A run on the machine with its frames changed then does what the run on
the machine does, up to the change.

## Design notes

A policy without a change of frames is the special case in which nothing that is asked of a function
depends on the frames.
-/

namespace Lox

open Eval Outcome

/-! ### Frames that are alike -/

/-- Two lists of frames that no access tells apart: what a frame gives a name is the same if a missing
value counts as `nil`, names that may be searched for are held by the same frames, and the global
variables are the same. -/
structure Frames.Alike (plain : String → Prop) (frames frames' : Frames) : Prop where
  size : frames'.size = frames.size
  global : frames'[Machine.globalId]? = frames[Machine.globalId]?
  named {id : FrameId} {vars : Table Value} (h : frames[id]? = some (.named vars)) :
    ∃ vars', frames'[id]? = some (.named vars') ∧
      (∀ x, (vars'.get? x).getD .nil = (vars.get? x).getD .nil) ∧
      ∀ x, plain x → vars'.get? x = vars.get? x

namespace Frames.Alike

variable {plain : String → Prop} {frames frames' : Frames} {p : Value → Prop}

theorem refl (plain : String → Prop) (frames : Frames) : Alike plain frames frames :=
  ⟨rfl, rfl, fun h => ⟨_, h, fun _ => rfl, fun _ _ => rfl⟩⟩

theorem getElem?_none (h : Alike plain frames frames') {id : FrameId} (hid : frames[id]? = none) :
    frames'[id]? = none := by
  rw [Array.getElem?_eq_none_iff] at hid ⊢
  rwa [h.size]

theorem held?_getD (h : Alike plain frames frames') (ha : frames.AllNamed p) (id : FrameId)
    (x : String) : (frames'.held? id x).getD .nil = (frames.held? id x).getD .nil := by
  cases hf : frames[id]? with
  | none =>
    unfold held?
    rw [hf, h.getElem?_none hf]
  | some frame =>
    obtain ⟨vars, rfl, -⟩ := ha id frame hf
    obtain ⟨vars', hf', hget, -⟩ := h.named hf
    rw [held?_of_named hf, held?_of_named hf']
    exact hget x

theorem namedAt (h : Alike plain frames frames') (ha : frames.AllNamed p) (env : Env)
    (distance : Nat) (operation : String) :
    frames'.namedAt env distance operation = frames.namedAt env distance operation := by
  unfold Frames.namedAt frameAt
  cases ancestor env distance with
  | error d => rfl
  | ok rest =>
    cases rest with
    | nil => rfl
    | cons id outer =>
      cases hf : frames[id]? with
      | none => simp only [bind, Except.bind, hf, h.getElem?_none hf]
      | some frame =>
        obtain ⟨vars, rfl, -⟩ := ha id frame hf
        obtain ⟨vars', hf', -⟩ := h.named hf
        simp only [bind, Except.bind, hf, hf']

/-- No frame is found that holds variables by position. -/
theorem indexed_frameAt (h : Alike plain frames frames') (ha : frames.AllNamed p) (env : Env)
    (distance : Nat) (operation : String) :
    Indexed.frameAt frames' env distance operation = Indexed.frameAt frames env distance operation := by
  unfold Indexed.frameAt Frames.frameAt
  cases ancestor env distance with
  | error d => rfl
  | ok rest =>
    cases rest with
    | nil => rfl
    | cons id outer =>
      cases hf : frames[id]? with
      | none => simp only [bind, Except.bind, hf, h.getElem?_none hf]
      | some frame =>
        obtain ⟨vars, rfl, -⟩ := ha id frame hf
        obtain ⟨vars', hf', -⟩ := h.named hf
        simp only [bind, Except.bind, hf, hf']

theorem getAt (h : Alike plain frames frames') (ha : frames.AllNamed p) (env : Env)
    (distance : Nat) (x : String) :
    frames'.getAt env distance x = frames.getAt env distance x := by
  unfold Frames.getAt
  rw [h.namedAt ha]
  simp only [h.held?_getD ha]

theorem declaring (h : Alike plain frames frames') (ha : frames.AllNamed p) (env : Env) :
    frames'.declaring env = frames.declaring env := h.namedAt ha env 0 "define"

theorem holder (h : Alike plain frames frames') (ha : frames.AllNamed p) {x : String} (hx : plain x)
    (operation : String) (env : Env) :
    frames'.holder operation x env = frames.holder operation x env := by
  induction env with
  | nil => rfl
  | cons id outer ih =>
    unfold Frames.holder
    cases hf : frames[id]? with
    | none => simp only [h.getElem?_none hf]
    | some frame =>
      obtain ⟨vars, rfl, -⟩ := ha id frame hf
      obtain ⟨vars', hf', -, hplain⟩ := h.named hf
      have hcontains : vars'.contains x = vars.contains x := by
        rw [Table.contains, Table.contains, hplain x hx]
      simp only [hf', hcontains]
      rw [ih]

theorem get (h : Alike plain frames frames') (ha : frames.AllNamed p) {x : String} (hx : plain x)
    (env : Env) : frames'.get env x = frames.get env x := by
  unfold Frames.get
  rw [h.holder ha hx]
  simp only [h.held?_getD ha]

theorem holder_globals (h : Alike plain frames frames') (operation x : String) :
    frames'.holder operation x Machine.globals = frames.holder operation x Machine.globals := by
  unfold Machine.globals Frames.holder
  rw [h.global]
  rfl

theorem get_globals (h : Alike plain frames frames') (ha : frames.AllNamed p) (x : String) :
    frames'.get Machine.globals x = frames.get Machine.globals x := by
  unfold Frames.get
  rw [h.holder_globals]
  simp only [h.held?_getD ha]

end Frames.Alike

theorem Frames.held?_ne_none_of_holder {frames : Frames} {operation name : String} {env : Env}
    {id : FrameId} (h : frames.holder operation name env = .ok id) : frames.held? id name ≠ none := by
  obtain ⟨-, vars, hvars, hname⟩ := holder_eq_ok h
  rw [held?_of_named hvars, ← Option.isSome_iff_ne_none]
  exact hname

/-! ### Covenants -/

/-- The variable that a node gives a value. -/
def Node.given? : Node → Option Token
  | .expr (.assign name _ _) | .stmt (.varDecl name _) | .stmt (.classDecl name _ _) => some name
  | .stmt (.funDecl f) => some f.name
  | _ => none

theorem Node.name?_of_given? {node : Node} {name : Token} (h : node.given? = some name) :
    node.name? = some name := by
  unfold given? at h
  split at h <;> first | exact h | cases h

/-- A node may add the variable that it gives a value to a frame: a declaration to the innermost one, an
assignment by depth to the one at that depth. -/
def Node.Adds (env : Env) (id : FrameId) : Node → Prop
  | .expr (.assign _ (.hops d) _) => env[d]? = some id
  | .stmt _ => env[0]? = some id
  | _ => False

/-- The frames after those for the methods of a class were opened: one holds the superclass, if there
is one. -/
def Machine.methodFrames (m : Machine) : Option Class → Frames
  | none => m.frames
  | some c => m.frames.push (.named (Table.empty.insert "super" (.type c)))

/-- What is asked of the functions that a machine holds among its frames, of the nodes that are run on
it and of its frames; how the frames may grow; and a change of frames. -/
structure Covenant where
  /-- The functions that may be called as they are. -/
  callable : Frames → Closure → Prop
  /-- The methods that wait for their receiver. -/
  waiting : Frames → Closure → Prop
  /-- The nodes that may be run. -/
  runs : Moment → Prop
  frames : Frames → Prop
  /-- How the frames may become others. -/
  grows : Frames → Frames → Prop
  /-- The change of frames that makes no difference. -/
  alter : Frames → Frames
  /-- The names under which variables may be searched for. -/
  plain : String → Prop

/-- What is asked while the frames are the given ones. -/
def Covenant.policy (C : Covenant) (frames : Frames) : Policy :=
  ⟨C.callable frames, C.waiting frames, C.runs, C.frames⟩

def Machine.Honours (C : Covenant) (m : Machine) : Prop := m.Obeys (C.policy m.frames)

namespace Covenant

def image (C : Covenant) (m : Machine) : Machine := { m with frames := C.alter m.frames }

def holds (C : Covenant) (v : Value) (m : Machine) : Prop := v.Obeys (C.policy m.frames)

/-- One machine is reached from another, in the same environment, and honours the covenant. -/
structure After (C : Covenant) (m m' : Machine) : Prop where
  env : m'.env = m.env
  grows : C.grows m.frames m'.frames
  honours : m'.Honours C

/-- The variables of the frames that a machine opens. -/
inductive Opens (C : Covenant) (m : Machine) : Table Value → Prop where
  | block : Opens C m .empty
  | parent (c : Class) : Opens C m (Table.empty.insert "super" (.type c))
  | receiver (o : Object) : Opens C m (Table.empty.insert "this" (.object o))
  | inherited {env : Env} {distance : Nat} {v : Value}
      (h : m.frames.getAt env distance "this" = .ok v) : Opens C m (Table.empty.insert "this" v)
  | call {f : Closure} {args : List Value} {vars : Table Value} (hf : C.callable m.frames f)
      (hs : Starts f args m vars) : Opens C m vars

/-- Nodes that may be run come to nodes that may be run, initializers apart, and make and bind functions
as the covenant asks; opening a frame and giving values to the variables they name keeps the frames so,
where a variable that a frame does not hold yet is added by the node to that frame. What is asked of a
function is kept while the frames grow. -/
structure Fair (C : Covenant) : Prop where
  refl (frames : Frames) : C.grows frames frames
  trans {frames frames₁ frames₂ : Frames} (h : C.grows frames frames₁) (h' : C.grows frames₁ frames₂) :
    C.grows frames frames₂
  callable_mono {frames frames' : Frames} {f : Closure} (h : C.grows frames frames')
    (hf : C.callable frames f) : C.callable frames' f
  waiting_mono {frames frames' : Frames} {f : Closure} (h : C.grows frames frames')
    (hf : C.waiting frames f) : C.waiting frames' f
  alike {m : Machine} (h : m.Honours C) : Frames.Alike C.plain m.frames (C.alter m.frames)
  part {depth : Nat} {node n : Node} {m s : Machine} (h : C.runs ⟨depth + 1, node, m⟩)
    (hr : Reaches depth node m n s) (hp : n ∈ node.parts) (ha : C.After m s) :
    C.runs ⟨depth, n, s⟩
  block {depth : Nat} {body before after : List Stmt} {s : Stmt} {m m' : Machine} {u : Unit}
    (h : C.runs ⟨depth + 1, .stmt (.block body), m⟩) (hm : m.Honours C)
    (hb : body = before ++ s :: after)
    (hr : execAll (run depth) before (m.enter m.env .empty) = .ok u m')
    (ha : C.After (m.enter m.env .empty) m') : C.runs ⟨depth, .stmt s, m'⟩
  call {depth : Nat} {node : Node} {f : Closure} {args : List Value} {vars : Table Value}
    {before after : List Stmt} {s : Stmt} {m m₁ m' : Machine} {u : Unit}
    (h : C.runs ⟨depth + 1, node, m⟩) (ha : Applies depth node m f args m₁)
    (hs : Starts f args m₁ vars) (hm : m₁.Honours C) (hf : C.callable m₁.frames f)
    (hb : f.body = before ++ s :: after)
    (hr : execAll (run depth) before (m₁.enter f.env vars) = .ok u m')
    (hafter : C.After (m₁.enter f.env vars) m') : C.runs ⟨depth, .stmt s, m'⟩
  bind {depth : Nat} {node : Node} {f : Closure} {o : Object} {args? : Option (List Value)}
    {m m' : Machine} (h : C.runs ⟨depth + 1, node, m⟩) (hb : Binds depth node m f o args? m')
    (hf : C.waiting m'.frames f) : C.callable (m'.receive (.object o)).frames (f.received m')
  inherit {depth distance : Nat} {keyword method : Token} {f : Closure} {c : Class} {v : Value}
    {m m' : Machine} (h : C.runs ⟨depth + 1, .expr (.super keyword method (.hops distance)), m⟩)
    (hc : m.frames.getAt m.env distance "super" = .ok (.type c))
    (hv : m.frames.getAt m.env (distance - 1) "this" = .ok v)
    (hm : c.findMethod? method.lexeme = some f) (hframes : m'.frames = m.frames)
    (hf : C.waiting m.frames f) : C.callable (m'.receive v).frames (f.received m')
  lambda {depth : Nat} {params : List Token} {body : List Stmt} {m : Machine}
    (h : C.runs ⟨depth + 1, .expr (.lambda params body), m⟩) :
    C.callable m.frames ⟨m.fresh, none, params, body, m.env, false, false, false⟩
  function {depth : Nat} {f : Function} {id : FrameId} {m : Machine}
    {v : Value} (h : C.runs ⟨depth + 1, .stmt (.funDecl f), m⟩) (hm : m.Honours C)
    (hid : m.env[0]? = some id) (hg : C.grows m.frames (m.frames.write id f.name.lexeme v)) :
    C.callable (m.frames.write id f.name.lexeme v) (f.made m.fresh m.env false)
  method {depth id : Nat} {name : Token} {superclass? : Option (Token × Address)}
    {methods : List Function} {f : Function} {parent? : Option Class} {m m₁ m₂ : Machine} {u : Unit}
    (h : C.runs ⟨depth + 1, .stmt (.classDecl name superclass? methods), m⟩) (hf : f ∈ methods)
    (hp : parentClass superclass? m = .ok parent? m₁)
    (hd : Run.define name name.lexeme .nil m₁ = .ok u m₂) (ha : C.After m m₂) :
    (C.policy (m₂.methodFrames parent?)).allows
      (f.made id (m₂.methodEnv parent?) (f.name.lexeme = "init"))
  push {m : Machine} {vars : Table Value} (h : m.Honours C) (ho : C.Opens m vars) :
    C.frames (m.frames.push (.named vars)) ∧ C.grows m.frames (m.frames.push (.named vars)) ∧
      C.alter (m.frames.push (.named vars)) = (C.alter m.frames).push (.named vars)
  write {depth : Nat} {node : Node} {name : Token} {m₀ m : Machine}
    (h : C.runs ⟨depth + 1, node, m₀⟩) (hn : node.given? = some name) (hm : m.Honours C)
    (id : FrameId) (hid : m.frames.held? id name.lexeme = none → node.Adds m₀.env id) (v : Value) :
    C.frames (m.frames.write id name.lexeme v) ∧
      C.grows m.frames (m.frames.write id name.lexeme v) ∧
      C.alter (m.frames.write id name.lexeme v) = (C.alter m.frames).write id name.lexeme v
  search {depth : Nat} {node : Node} {name : Token} {m : Machine}
    (h : C.runs ⟨depth + 1, node, m⟩) (hn : node.given? = some name) : C.plain name.lexeme

/-- The laws, where the initializer of a variable may be run as its declaration may. -/
structure Lawful (C : Covenant) : Prop extends C.Fair where
  initializer {depth : Nat} {name : Token} {init : Expr} {m : Machine}
    (h : C.runs ⟨depth + 1, .stmt (.varDecl name (some init)), m⟩) : C.runs ⟨depth, .expr init, m⟩

end Covenant

/-! ### Machines -/

namespace Covenant

variable {C : Covenant} {m m' : Machine}

theorem honours_congr (h : m.Honours C) (hf : m'.frames = m.frames) (hd : m'.fields = m.fields) :
    m'.Honours C := by
  unfold Machine.Honours
  rw [hf]
  exact Machine.Obeys.congr h hf hd

namespace Fair

variable (hl : C.Fair)

include hl

theorem holds_mono {frames frames' : Frames} (h : C.grows frames frames') {v : Value}
    (hv : v.Obeys (C.policy frames)) : v.Obeys (C.policy frames') :=
  hv.mono (fun _ => hl.callable_mono h) fun _ => hl.waiting_mono h

theorem class_mono {frames frames' : Frames} (h : C.grows frames frames') {c : Class}
    (hc : c.Obeys (C.policy frames)) : c.Obeys (C.policy frames') :=
  hc.mono (fun _ => hl.callable_mono h) fun _ => hl.waiting_mono h

theorem after_refl (h : m.Honours C) : C.After m m := ⟨rfl, hl.refl _, h⟩

theorem after_trans {m'' : Machine} (h : C.After m m') (h' : C.After m' m'') : C.After m m'' :=
  ⟨h'.env.trans h.env, hl.trans h.grows h'.grows, h'.honours⟩

theorem after_of_eq (h : m.Honours C) (he : m'.env = m.env) (hf : m'.frames = m.frames)
    (hd : m'.fields = m.fields) : C.After m m' :=
  ⟨he, by rw [hf]; exact hl.refl _, honours_congr h hf hd⟩

theorem after_push (h : m.Honours C) {vars : Table Value} (ho : C.Opens m vars)
    (hv : vars.All (Value.Obeys (C.policy m.frames))) :
    C.After m { m with frames := m.frames.push (.named vars) } := by
  obtain ⟨hframes, hgrows, -⟩ := hl.push h ho
  have hmono : ∀ v, Value.Obeys (C.policy m.frames) v →
      Value.Obeys (C.policy (m.frames.push (.named vars))) v := fun v => hl.holds_mono hgrows
  refine ⟨rfl, hgrows, (h.values.mono hmono).push (hv.mono hmono), ?_, hframes⟩
  exact fun i table ht => (h.fields i table ht).mono hmono

theorem after_write {depth : Nat} {node : Node} {name : Token} {m₀ : Machine}
    (hr : C.runs ⟨depth + 1, node, m₀⟩) (hn : node.given? = some name) (h : m.Honours C) {v : Value}
    {id : FrameId} (hv : v.Obeys (C.policy (m.frames.write id name.lexeme v)))
    (hid : m.frames.held? id name.lexeme = none → node.Adds m₀.env id) :
    C.After m { m with frames := m.frames.write id name.lexeme v } := by
  obtain ⟨hframes, hgrows, -⟩ := hl.write hr hn h id hid v
  have hmono : ∀ u, Value.Obeys (C.policy m.frames) u →
      Value.Obeys (C.policy (m.frames.write id name.lexeme v)) u := fun u => hl.holds_mono hgrows
  refine ⟨rfl, hgrows, (h.values.mono hmono).write id name.lexeme hv, ?_, hframes⟩
  exact fun i table ht => (h.fields i table ht).mono hmono

end Fair

/-! ### Computations -/

variable {α β : Type}

/-- What one computation does on a machine, the other does on the machine with its frames changed.
Afterwards the machine honours the covenant, as does the exit; a result has a property. -/
def Keeps (C : Covenant) (x y : Run α) (m : Machine) (post : α → Machine → Prop) : Prop :=
  Mirrors C.image id id y x m ∧
    match y m with
    | .ok a m' => C.After m m' ∧ post a m'
    | .error e m' => C.After m m' ∧ e.Obeys (C.policy m'.frames)

namespace Keeps

variable {x y : Run α} {post post' : α → Machine → Prop}

theorem of_ok {a : α} (hx : x (C.image m) = .ok a (C.image m')) (hy : y m = .ok a m')
    (ha : C.After m m') (hp : post a m') : C.Keeps x y m post := by
  unfold Keeps Mirrors
  rw [hx, hy]
  exact ⟨rfl, ha, hp⟩

theorem of_error {e : Exit} (hx : x (C.image m) = .error e (C.image m')) (hy : y m = .error e m')
    (ha : C.After m m') (he : e.Obeys (C.policy m'.frames)) : C.Keeps x y m post := by
  unfold Keeps Mirrors
  rw [hx, hy]
  exact ⟨rfl, ha, he⟩

theorem ok {a : α} (h : C.Keeps x y m post) (hy : y m = .ok a m') : C.After m m' ∧ post a m' := by
  have := h.2
  rwa [hy] at this

theorem error {e : Exit} (h : C.Keeps x y m post) (hy : y m = .error e m') :
    C.After m m' ∧ e.Obeys (C.policy m'.frames) := by
  have := h.2
  rwa [hy] at this

theorem mono (h : C.Keeps x y m post)
    (hp : ∀ a m', y m = .ok a m' → C.After m m' → post a m' → post' a m') :
    C.Keeps x y m post' := by
  refine ⟨h.1, ?_⟩
  cases hy : y m with
  | ok a m' =>
    obtain ⟨ha, hpost⟩ := h.ok hy
    exact ⟨ha, hp a m' hy ha hpost⟩
  | error e m' => exact h.error hy

theorem of_after (hl : C.Fair) {x' y' : Run α} (ha : C.After m m')
    (hx : x (C.image m) = x' (C.image m')) (hy : y m = y' m') (h : C.Keeps x' y' m' post) :
    C.Keeps x y m post := by
  cases hrun : y' m' with
  | ok b m'' =>
    obtain ⟨ha', hp⟩ := h.ok hrun
    exact .of_ok (hx.trans (h.1.ok hrun)) (hy.trans hrun) (hl.after_trans ha ha') hp
  | error e m'' =>
    obtain ⟨ha', he⟩ := h.error hrun
    exact .of_error (hx.trans (h.1.error hrun)) (hy.trans hrun) (hl.after_trans ha ha') he

theorem bind (hl : C.Fair) {f g : α → Run β} {post' : β → Machine → Prop} (h : C.Keeps x y m post)
    (hf : ∀ a m', y m = .ok a m' → C.After m m' → post a m' → C.Keeps (f a) (g a) m' post') :
    C.Keeps (x >>= f) (y >>= g) m post' := by
  cases hy : y m with
  | error e m' =>
    obtain ⟨ha, he⟩ := h.error hy
    exact .of_error (bind_of_error (h.1.error hy)) (bind_of_error hy) ha he
  | ok a m' =>
    obtain ⟨ha, hp⟩ := h.ok hy
    exact .of_after hl ha (bind_of_ok (h.1.ok hy)) (bind_of_ok hy) (hf a m' hy ha hp)

theorem get_bind {f g : Machine → Run β} {post : β → Machine → Prop}
    (h : C.Keeps (f (C.image m)) (g m) m post) : C.Keeps (get >>= f) (get >>= g) m post := h

theorem within {env : Env} (h : C.Keeps x y { m with env := env } post) :
    C.Keeps (Run.within env x) (Run.within env y) m fun _ _ => True := by
  -- the change concerns frames only, so the environment may be replaced before or after it
  have himage : C.image { m with env := env } = { C.image m with env := env } := rfl
  have hx := h.1
  unfold Mirrors at hx
  rw [himage] at hx
  cases hy : y { m with env := env } with
  | ok a m' =>
    obtain ⟨ha, -⟩ := h.ok hy
    rw [hy] at hx
    have hafter : C.After m { m' with env := m.env } :=
      ⟨rfl, ha.grows, honours_congr ha.honours rfl rfl⟩
    refine .of_ok (a := a) ?_ ?_ hafter trivial
    · unfold Run.within
      rw [hx]
      rfl
    · unfold Run.within
      rw [hy]
  | error e m' =>
    obtain ⟨ha, he⟩ := h.error hy
    rw [hy] at hx
    have hafter : C.After m { m' with env := m.env } :=
      ⟨rfl, ha.grows, honours_congr ha.honours rfl rfl⟩
    refine .of_error ?_ ?_ hafter he
    · unfold Run.within
      rw [hx]
      rfl
    · unfold Run.within
      rw [hy]

theorem catchReturn {x y : Run Value} (h : C.Keeps x y m C.holds) :
    C.Keeps (Run.catchReturn x) (Run.catchReturn y) m C.holds := by
  cases hy : y m with
  | ok v m' =>
    have hx := h.1.ok hy
    refine .of_ok ?_ ?_ (h.ok hy).1 (h.ok hy).2
    · unfold Run.catchReturn
      rw [hx]
      rfl
    · unfold Run.catchReturn
      rw [hy]
  | error e m' =>
    have hx := h.1.error hy
    obtain ⟨ha, he⟩ := h.error hy
    cases e with
    | returned v =>
      refine .of_ok (a := v) ?_ ?_ ha he
      · unfold Run.catchReturn
        rw [hx]
        rfl
      · unfold Run.catchReturn
        rw [hy]
    | _ =>
      refine .of_error ?_ ?_ ha he
      · unfold Run.catchReturn
        rw [hx]
        rfl
      · unfold Run.catchReturn
        rw [hy]

end Keeps

namespace Fair

variable (hl : C.Fair) {post : α → Machine → Prop}

variable {f g : α → Run β} {depth : Nat} {m₀ : Machine} {name : Token} {v : Value}

include hl

theorem keeps_pure {a : α} (hm : m.Honours C) (hp : post a m) :
    C.Keeps (pure a : Run α) (pure a) m post :=
  .of_ok rfl rfl (hl.after_refl hm) hp

theorem keeps_throw {e : Exit} (hm : m.Honours C) (he : e.Obeys (C.policy m.frames)) :
    C.Keeps (throw e : Run α) (throw e) m post :=
  .of_error rfl rfl (hl.after_refl hm) he

theorem keeps_step {x : Run α} {post : β → Machine → Prop} {a : α}
    (hx : x (C.image m) = .ok a (C.image m')) (hy : x m = .ok a m') (ha : C.After m m')
    (h : C.Keeps (f a) (g a) m' post) : C.Keeps (x >>= f) (x >>= g) m post :=
  .of_after hl ha (bind_of_ok hx) (bind_of_ok hy) h

theorem keeps_fail (hm : m.Honours C) (token : Token) (fault : Fault) :
    C.Keeps (Run.fail token fault : Run α) (Run.fail token fault) m post :=
  hl.keeps_throw hm trivial

theorem keeps_breakDown (hm : m.Honours C) (defect : Defect) :
    C.Keeps (Run.breakDown defect : Run α) (Run.breakDown defect) m post :=
  hl.keeps_throw hm trivial

theorem keeps_fail_bind (hm : m.Honours C) (token : Token) (fault : Fault) (f g : α → Run β)
    {post : β → Machine → Prop} :
    C.Keeps (Run.fail token fault >>= f) (Run.fail token fault >>= g) m post := by
  have h : C.Keeps (Run.fail token fault : Run α) (Run.fail token fault) m fun _ _ => False :=
    hl.keeps_fail hm token fault
  exact h.bind hl fun _ _ _ _ hf => hf.elim

theorem keeps_ofExcept_bind {r : Except Defect α} {post : β → Machine → Prop} (hm : m.Honours C)
    (h : ∀ a, r = .ok a → C.Keeps (f a) (g a) m post) :
    C.Keeps (Run.ofExcept r >>= f) (Run.ofExcept r >>= g) m post := by
  cases r with
  | ok a => exact hl.keeps_step rfl rfl (hl.after_refl hm) (h a rfl)
  | error d =>
    have hd : C.Keeps (Run.breakDown d : Run α) (Run.breakDown d) m fun _ _ => False :=
      hl.keeps_breakDown hm d
    exact hd.bind hl fun _ _ _ _ hf => hf.elim

theorem keeps_ofAccess {r r' : Except Denial α} (hr : r' = r) (hm : m.Honours C) (token : Token)
    (hp : ∀ a, r = .ok a → post a m) :
    C.Keeps (Run.ofAccess token r') (Run.ofAccess token r) m post := by
  subst hr
  cases r' with
  | ok a => exact hl.keeps_pure hm (hp a rfl)
  | error d =>
    cases d with
    | fault f => exact hl.keeps_fail hm token f
    | defect d => exact hl.keeps_breakDown hm d

theorem keeps_ofAccess_bind {r r' : Except Denial α} (hr : r' = r) {post : β → Machine → Prop}
    (hm : m.Honours C) (token : Token)
    (h : ∀ a, r = .ok a → C.Keeps (f a) (g a) m post) :
    C.Keeps (Run.ofAccess token r' >>= f) (Run.ofAccess token r >>= g) m post := by
  have hk : C.Keeps (Run.ofAccess token r') (Run.ofAccess token r) m
      fun a m' => r = .ok a ∧ m' = m := hl.keeps_ofAccess hr hm token fun a ha => ⟨ha, rfl⟩
  refine hk.bind hl ?_
  rintro a m' - - ⟨ha, rfl⟩
  exact h a ha

theorem keeps_writeLine (hm : m.Honours C) (line : Line) :
    C.Keeps (Run.write line) (Run.write line) m fun _ m' => m'.frames = m.frames :=
  .of_ok rfl rfl (hl.after_of_eq hm rfl rfl rfl) rfl

theorem keeps_trace (hm : m.Honours C) (text : Except Defect String) :
    C.Keeps (Run.trace text) (Run.trace text) m fun _ m' => m'.frames = m.frames := by
  refine .get_bind ?_
  change C.Keeps (if m.traced = true then _ else _) _ _ _
  split
  · exact hl.keeps_ofExcept_bind hm fun line _ => hl.keeps_writeLine hm _
  · exact hl.keeps_pure hm rfl

theorem keeps_fresh_bind (hm : m.Honours C) {f g : Nat → Run β} {post : β → Machine → Prop}
    (h : ({ m with fresh := m.fresh + 1 } : Machine).Honours C →
      C.Keeps (f m.fresh) (g m.fresh) { m with fresh := m.fresh + 1 } post) :
    C.Keeps (Run.fresh >>= f) (Run.fresh >>= g) m post := by
  have hafter : C.After m { m with fresh := m.fresh + 1 } := hl.after_of_eq hm rfl rfl rfl
  exact hl.keeps_step rfl rfl hafter (h hafter.honours)

theorem keeps_closureOf_bind (hm : m.Honours C) (f : Function) (env : Env) (isInit : Bool)
    {k k' : Closure → Run β} {post : β → Machine → Prop}
    (h : ({ m with fresh := m.fresh + 1 } : Machine).Honours C →
      C.Keeps (k (f.made m.fresh env isInit)) (k' (f.made m.fresh env isInit))
        { m with fresh := m.fresh + 1 } post) :
    C.Keeps (closureOf f env isInit >>= k) (closureOf f env isInit >>= k') m post := by
  have hafter : C.After m { m with fresh := m.fresh + 1 } := hl.after_of_eq hm rfl rfl rfl
  exact hl.keeps_step rfl rfl hafter (h hafter.honours)

/-! ### Operators -/

theorem keeps_operands (hm : m.Honours C) (op : Token) (left right : Value) :
    C.Keeps (operands op left right) (operands op left right) m fun _ _ => True := by
  unfold operands
  split
  · exact hl.keeps_ofExcept_bind hm fun x _ => hl.keeps_ofExcept_bind hm fun y _ =>
      hl.keeps_pure hm trivial
  · exact hl.keeps_fail_bind hm _ _ _ _

theorem keeps_compareNumbers (hm : m.Honours C) (op : Token) (left right : Value)
    (test : Float → Float → Bool) :
    C.Keeps (compareNumbers op left right test) (compareNumbers op left right test) m C.holds :=
  (hl.keeps_operands hm op left right).bind hl fun _ _ _ ha _ => hl.keeps_pure ha.honours trivial

theorem keeps_combineNumbers (hm : m.Honours C) (op : Token) (left right : Value)
    (f : Float → Float → Float) :
    C.Keeps (combineNumbers op left right f) (combineNumbers op left right f) m C.holds :=
  (hl.keeps_operands hm op left right).bind hl fun _ _ _ ha _ => hl.keeps_pure ha.honours trivial

theorem keeps_add (hm : m.Honours C) (left right : Value) :
    C.Keeps (add left right) (add left right) m C.holds := by
  unfold add
  split
  all_goals
    exact hl.keeps_ofExcept_bind hm fun s _ => hl.keeps_ofExcept_bind hm fun t _ =>
      hl.keeps_pure hm trivial

theorem keeps_divide (hm : m.Honours C) (op : Token) (left right : Value) :
    C.Keeps (divide op left right) (divide op left right) m C.holds := by
  unfold divide
  dsimp only
  by_cases hn : (left.isNumber && right.isNumber) = true
  · rw [if_pos hn]
    split
    · exact hl.keeps_fail_bind hm _ _ _ _
    · exact hl.keeps_combineNumbers hm op left right _
  · rw [if_neg hn]
    exact hl.keeps_fail_bind hm _ _ _ _

theorem keeps_binary (hm : m.Honours C) (op : Token) (left right : Value) :
    C.Keeps (binary op left right) (binary op left right) m C.holds := by
  unfold binary
  split
  · exact hl.keeps_compareNumbers hm op left right _
  · exact hl.keeps_compareNumbers hm op left right _
  · exact hl.keeps_compareNumbers hm op left right _
  · exact hl.keeps_compareNumbers hm op left right _
  · exact hl.keeps_pure hm trivial
  · exact hl.keeps_pure hm trivial
  · exact hl.keeps_combineNumbers hm op left right _
  · exact hl.keeps_add hm left right
  · exact hl.keeps_divide hm op left right
  · exact hl.keeps_combineNumbers hm op left right _
  · exact hl.keeps_pure hm trivial

theorem keeps_unary (hm : m.Honours C) (op : Token) (right : Value) :
    C.Keeps (unary op right) (unary op right) m C.holds := by
  unfold unary
  split
  · dsimp only
    split
    · exact hl.keeps_ofExcept_bind hm fun x _ => hl.keeps_pure hm trivial
    · exact hl.keeps_fail_bind hm _ _ _ _
  · exact hl.keeps_pure hm trivial
  · exact hl.keeps_pure hm trivial

/-! ### Variables -/

theorem keeps_read (hm : m.Honours C) (name : Token) (address : Address) :
    C.Keeps (Run.read name address) (Run.read name address) m fun v m' => m' = m ∧ C.holds v m := by
  have hlike := hl.alike hm
  cases address with
  | hops depth =>
    refine .get_bind (hl.keeps_ofAccess ?_ hm name fun v hv => ⟨rfl, Policy.obeys_getAt hm hv⟩)
    exact hlike.getAt hm.values m.env depth name.lexeme
  | slot depth index =>
    -- no frame has slots, so the access fails
    refine .get_bind (hl.keeps_ofAccess ?_ hm name fun v hv => ⟨rfl, ?_⟩)
    · dsimp only [Frames.Indexed.getAt]
      rw [← hlike.indexed_frameAt hm.values]
      rfl
    · dsimp only [Frames.Indexed.getAt] at hv
      cases hframe : Frames.Indexed.frameAt m.frames m.env depth "get_at_index" with
      | ok found => exact absurd hframe (Policy.not_indexed hm)
      | error d =>
        rw [hframe] at hv
        cases hv
  | free =>
    have hglobal : (C.image m).frames[Machine.globalId]? = m.frames[Machine.globalId]? :=
      hlike.global
    refine .get_bind ?_
    dsimp only
    rw [hglobal]
    split
    · next slots globals hframe =>
      obtain ⟨vars, hvars, -⟩ := hm.values _ _ hframe
      cases hvars
    · refine hl.keeps_ofAccess ?_ hm name fun v hv => ⟨rfl, Policy.obeys_get hm hv⟩
      exact hlike.get_globals hm.values name.lexeme

/-- A variable that a node names is given a value in the frame that a search ends at: one that holds the
variable, or one to which the node may add it. The value may refer to the variable. -/
theorem keeps_writeAt {node : Node} (hr : C.runs ⟨depth + 1, node, m₀⟩) (hn : node.given? = some name)
    (hm : m.Honours C) {found found' : Except Denial FrameId} (hf : found' = found)
    (hv : ∀ id, found = .ok id → C.grows m.frames (m.frames.write id name.lexeme v) →
      v.Obeys (C.policy (m.frames.write id name.lexeme v)))
    (hid : ∀ id, found = .ok id → m.frames.held? id name.lexeme = none → node.Adds m₀.env id) :
    C.Keeps (Run.ofAccess name found' >>= fun id =>
        modify fun m => { m with frames := m.frames.write id name.lexeme v })
      (Run.ofAccess name found >>= fun id =>
        modify fun m => { m with frames := m.frames.write id name.lexeme v }) m
      fun _ _ => True := by
  refine hl.keeps_ofAccess_bind hf hm name fun id hfound => ?_
  obtain ⟨-, hgrows, halter⟩ := hl.write hr hn hm id (hid id hfound) v
  have hafter := hl.after_write hr hn hm (hv id hfound hgrows) (hid id hfound)
  refine .of_ok (a := ⟨⟩) ?_ rfl hafter trivial
  change EStateM.Result.ok _ _ = EStateM.Result.ok _ _
  unfold image
  rw [halter]

theorem keeps_define {s : Stmt} (hr : C.runs ⟨depth + 1, .stmt s, m₀⟩)
    (hn : (Node.stmt s).given? = some name)
    (henv : m.env = m₀.env) (hm : m.Honours C)
    (hv : ∀ id, m.env[0]? = some id → C.grows m.frames (m.frames.write id name.lexeme v) →
      v.Obeys (C.policy (m.frames.write id name.lexeme v))) :
    C.Keeps (Run.define name name.lexeme v) (Run.define name name.lexeme v) m fun _ _ => True := by
  have hhead : ∀ id, m.frames.declaring m.env = .ok id → m.env[0]? = some id :=
    fun id h => (Frames.namedAt_eq_ok.1 h).1
  refine .get_bind (hl.keeps_writeAt hr hn hm ((hl.alike hm).declaring hm.values m.env)
    (fun id h => hv id (hhead id h)) ?_)
  intro id hfound _
  rw [← henv]
  exact hhead id hfound

theorem keeps_assign {address : Address} {value : Expr}
    (hr : C.runs ⟨depth + 1, .expr (.assign name address value), m₀⟩) (henv : m.env = m₀.env)
    (hm : m.Honours C) (hv : C.holds v m) :
    C.Keeps (Run.assign name address v) (Run.assign name address v) m fun _ _ => True := by
  have hlike := hl.alike hm
  have hstored : ∀ id, C.grows m.frames (m.frames.write id name.lexeme v) →
      v.Obeys (C.policy (m.frames.write id name.lexeme v)) := fun _ hg => hl.holds_mono hg hv
  refine .get_bind ?_
  cases address with
  | hops depth =>
    refine hl.keeps_writeAt hr rfl hm (hlike.namedAt hm.values m.env depth "assign_at")
      (fun id _ => hstored id) ?_
    intro id hfound _
    rw [← henv]
    exact (Frames.namedAt_eq_ok.1 hfound).1
  | slot depth index =>
    refine hl.keeps_ofAccess_bind ?_ hm name fun found hfound => ?_
    · unfold Frames.Indexed.slotHolder
      rw [← hlike.indexed_frameAt hm.values]
      rfl
    · cases hframe : Frames.Indexed.frameAt m.frames m.env depth "assign_at_index" with
      | ok found => exact absurd hframe (Policy.not_indexed hm)
      | error d =>
        unfold Frames.Indexed.slotHolder at hfound
        rw [hframe] at hfound
        cases hfound
  | free =>
    have hglobal : (C.image m).frames[Machine.globalId]? = m.frames[Machine.globalId]? :=
      hlike.global
    dsimp only
    rw [hglobal]
    split
    · next slots globals hframe =>
      obtain ⟨vars, hvars, -⟩ := hm.values _ _ hframe
      cases hvars
    · exact hl.keeps_writeAt hr rfl hm (hlike.holder_globals "assign" name.lexeme)
        (fun id _ => hstored id)
        fun id hfound hnone => absurd hnone (Frames.held?_ne_none_of_holder hfound)

/-! ### Frames and instances -/

theorem keeps_openFrame_bind (hm : m.Honours C) {vars : Table Value} (ho : C.Opens m vars)
    (hv : vars.All (Value.Obeys (C.policy m.frames))) {f g : FrameId → Run β}
    {post : β → Machine → Prop}
    (h : C.After m { m with frames := m.frames.push (.named vars) } →
      C.Keeps (f m.frames.size) (g m.frames.size)
        { m with frames := m.frames.push (.named vars) } post) :
    C.Keeps (Run.openFrame vars >>= f) (Run.openFrame vars >>= g) m post := by
  have hafter := hl.after_push hm ho hv
  refine hl.keeps_step ?_ rfl hafter (h hafter)
  change EStateM.Result.ok _ _ = EStateM.Result.ok _ _
  unfold image
  rw [(hl.push hm ho).2.2, (hl.alike hm).size]

theorem keeps_bindReceiver_bind (hm : m.Honours C) (f : Closure)
    (ho : C.Opens m (Table.empty.insert "this" v)) (hv : C.holds v m) {k k' : Closure → Run β}
    {post : β → Machine → Prop}
    (h : C.After m (m.receive v) → C.Keeps (k (f.received m)) (k' (f.received m)) (m.receive v) post) :
    C.Keeps (bindReceiver f v >>= k) (bindReceiver f v >>= k') m post := by
  have hvars : (Table.empty.insert "this" v).All (Value.Obeys (C.policy m.frames)) :=
    (Table.All.empty _).insert "this" hv
  have hpush := hl.after_push hm ho hvars
  have hafter : C.After m (m.receive v) := ⟨rfl, hpush.grows, honours_congr hpush.honours rfl rfl⟩
  -- the change keeps the number of frames, so the frame of the receiver has the same number
  have himage : (C.image m).receive v = C.image (m.receive v) := by
    simp only [Machine.receive, image, (hl.push hm ho).2.2]
  have hclosure : f.received (C.image m) = f.received m := by
    simp only [Closure.received, image, (hl.alike hm).size]
  have hx : bindReceiver f v (C.image m) = .ok (f.received (C.image m)) ((C.image m).receive v) := rfl
  rw [himage, hclosure] at hx
  exact hl.keeps_step hx rfl hafter (h hafter)

theorem after_newObject (hm : m.Honours C) :
    C.After m { m with fields := m.fields.push .empty } :=
  ⟨rfl, hl.refl _, Policy.obeys_newObject hm⟩

theorem keeps_setField (hm : m.Honours C) {o : Object} {name : String} (hv : C.holds v m) :
    C.Keeps (Run.setField o name v) (Run.setField o name v) m fun _ m' => m'.frames = m.frames := by
  refine .of_ok (a := ⟨⟩) rfl rfl ⟨rfl, hl.refl _, hm.values, ?_, hm.frames⟩ rfl
  intro i table ht
  dsimp only at ht
  rw [Array.getElem?_modify] at ht
  split at ht
  · obtain ⟨table', ht', rfl⟩ := Option.map_eq_some_iff.1 ht
    exact (hm.fields i table' ht').insert name hv
  · exact hm.fields i table ht

/-! ### Functions -/

theorem keeps_receiver (hm : m.Honours C) (f : Closure) :
    C.Keeps (receiver f) (receiver f) m fun v m' => m' = m ∧ C.holds v m := by
  refine .get_bind ?_
  have hget : (C.image m).frames.getAt f.env 0 "this" = m.frames.getAt f.env 0 "this" :=
    (hl.alike hm).getAt hm.values f.env 0 "this"
  rw [hget]
  cases hg : m.frames.getAt f.env 0 "this" with
  | ok v => exact hl.keeps_pure hm ⟨rfl, Policy.obeys_getAt hm hg⟩
  | error d =>
    cases d with
    -- a function without a frame of its own has no receiver
    | fault f => exact hl.keeps_pure hm ⟨rfl, trivial⟩
    | defect d => exact hl.keeps_breakDown hm d

theorem keeps_applyNative (hm : m.Honours C) (n : Native) {args : List Value}
    (ha : ∀ a ∈ args, C.holds a m) :
    C.Keeps (applyNative n args) (applyNative n args) m C.holds := by
  cases n with
  | clock | indexedClock => exact .of_ok rfl rfl (hl.after_of_eq hm rfl rfl rfl) trivial
  | inner frame => exact hl.keeps_pure hm trivial
  | deliver =>
    refine hl.keeps_throw hm ?_
    cases args with
    | nil => trivial
    | cons a args => exact ha a (by simp)

end Fair

theorem Keeps.deliver {x y : Run Unit} {post : Unit → Machine → Prop} (h : C.Keeps x y m post) :
    C.Keeps (deliver x) (deliver y) m C.holds := by
  cases hy : y m with
  | ok u m' =>
    have hx := h.1.ok hy
    refine .of_ok (a := .nil) ?_ ?_ (h.ok hy).1 trivial
    · unfold Eval.deliver
      rw [hx]
    · unfold Eval.deliver
      rw [hy]
  | error e m' =>
    have hx := h.1.error hy
    obtain ⟨ha, he⟩ := h.error hy
    cases e with
    | delivered v =>
      refine .of_ok (a := v) ?_ ?_ ha he
      · unfold Eval.deliver
        rw [hx]
        rfl
      · unfold Eval.deliver
        rw [hy]
    | _ =>
      refine .of_error ?_ ?_ ha he
      · unfold Eval.deliver
        rw [hx]
        rfl
      · unfold Eval.deliver
        rw [hy]

end Covenant

end Lox
