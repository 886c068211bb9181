import Lox.Proofs.Machine.Calls
import Lox.Proofs.Machine.Heap

/-!
# Policies

A policy says what is asked of the functions that a machine holds, of the nodes that are run on it and
of its frames. It is lawful if whatever a node that may be run makes, calls or comes to is as the policy
asks; then a machine that obeys the policy goes on doing so.
-/

namespace Lox

open Eval Outcome

variable {c : Class} {name : String} {f : Closure}

/-- What is asked of the functions that a machine holds, of the nodes that are run on it and of its
frames. -/
structure Policy where
  /-- The functions that may be called as they are. -/
  callable : Closure → Prop
  /-- The methods that wait for their receiver. -/
  waiting : Closure → Prop
  /-- The nodes that may be run. -/
  runs : Moment → Prop
  frames : Frames → Prop

def Function.made (f : Function) (id : Nat) (env : Env) (isInit : Bool) : Closure :=
  ⟨id, some f.name.lexeme, f.params, f.body, env, isInit, f.isGetter, f.isStatic⟩

/-- The environment in which the methods of a class are made: a frame for the superclass, if there is
one, is opened next. -/
def Machine.methodEnv (m : Machine) (parent? : Option Class) : Env :=
  if parent?.isSome then m.frames.size :: m.env else m.env

namespace Policy

/-- What a policy asks of a method, which may belong to the class itself. -/
def allows (P : Policy) (f : Closure) : Prop := if f.isStatic then P.callable f else P.waiting f

/-- Nodes that may be run come to nodes that may be run, and make and bind functions as the policy
asks; opening a frame and giving values to the variables they name keeps the frames so. -/
structure Lawful (P : Policy) : Prop where
  part {depth : Nat} {node n : Node} {m s : Machine} (h : P.runs ⟨depth + 1, node, m⟩)
    (hr : Reaches depth node m n s) (hp : n ∈ node.parts) (henv : s.env = m.env) :
    P.runs ⟨depth, n, s⟩
  initializer {depth : Nat} {name : Token} {init : Expr} {m : Machine}
    (h : P.runs ⟨depth + 1, .stmt (.varDecl name (some init)), m⟩) : P.runs ⟨depth, .expr init, m⟩
  block {depth : Nat} {body before after : List Stmt} {s : Stmt} {m m' : Machine} {u : Unit}
    (h : P.runs ⟨depth + 1, .stmt (.block body), m⟩) (hb : body = before ++ s :: after)
    (hr : execAll (run depth) before (m.enter m.env .empty) = .ok u m')
    (henv : m'.env = m.frames.size :: m.env) : P.runs ⟨depth, .stmt s, m'⟩
  call {depth : Nat} {node : Node} {f : Closure} {args : List Value} {vars : Table Value}
    {before after : List Stmt} {s : Stmt} {m m₁ m' : Machine} {u : Unit}
    (h : P.runs ⟨depth + 1, node, m⟩) (ha : Applies depth node m f args m₁)
    (hs : Starts f args m₁ vars) (hf : P.callable f) (hb : f.body = before ++ s :: after)
    (hr : execAll (run depth) before (m₁.enter f.env vars) = .ok u m')
    (henv : m'.env = m₁.frames.size :: f.env) : P.runs ⟨depth, .stmt s, m'⟩
  bind {depth : Nat} {node : Node} {f : Closure} {o : Object} {args? : Option (List Value)}
    {m m' : Machine} (h : P.runs ⟨depth + 1, node, m⟩) (hb : Binds depth node m f o args? m')
    (hf : P.waiting f) : P.callable (f.received m')
  inherit {depth : Nat} {keyword method : Token} {address : Address} {f : Closure} {m m' : Machine}
    (h : P.runs ⟨depth + 1, .expr (.super keyword method address), m⟩) (hf : P.waiting f) :
    P.callable (f.received m')
  lambda {depth : Nat} {params : List Token} {body : List Stmt} {m : Machine}
    (h : P.runs ⟨depth + 1, .expr (.lambda params body), m⟩) :
    P.callable ⟨m.fresh, none, params, body, m.env, false, false, false⟩
  function {depth : Nat} {f : Function} {m : Machine}
    (h : P.runs ⟨depth + 1, .stmt (.funDecl f), m⟩) : P.callable (f.made m.fresh m.env false)
  method {depth id : Nat} {name : Token} {superclass? : Option (Token × Address)}
    {methods : List Function} {f : Function} {parent? : Option Class} {m m₁ m₂ : Machine} {u : Unit}
    (h : P.runs ⟨depth + 1, .stmt (.classDecl name superclass? methods), m⟩) (hf : f ∈ methods)
    (hp : parentClass superclass? m = .ok parent? m₁)
    (hd : Run.define name name.lexeme .nil m₁ = .ok u m₂) (henv : m₂.env = m.env) :
    P.allows (f.made id (m₂.methodEnv parent?) (f.name.lexeme = "init"))
  push {frames : Frames} (vars : Table Value) (h : P.frames frames) :
    P.frames (frames.push (.named vars))
  write {depth : Nat} {node : Node} {name : Token} {m : Machine} {frames : Frames}
    (h : P.runs ⟨depth + 1, node, m⟩) (hn : node.name? = some name) (id : FrameId) (v : Value)
    (hf : P.frames frames) : P.frames (frames.write id name.lexeme v)

end Policy

/-! ### Values and machines -/

variable {P : Policy}

def Class.Obeys (P : Policy) (c : Class) : Prop :=
  ∀ k ∈ c.lineage, k.methods.Every P.waiting ∧ k.statics.Every P.callable

def Value.Obeys (P : Policy) : Value → Prop
  | .function f => P.callable f
  | .type c => c.Obeys P
  | .object o => o.type.Obeys P
  | .chain _ methods o => (∀ f ∈ methods, P.waiting f) ∧ o.type.Obeys P
  | _ => True

/-- The value that an exit carries is as a policy asks. -/
def Exit.Obeys (P : Policy) : Exit → Prop
  | .returned v | .delivered v => v.Obeys P
  | _ => True

/-- All that a machine holds is as a policy asks. -/
structure Machine.Obeys (P : Policy) (m : Machine) : Prop where
  values : m.frames.AllNamed (Value.Obeys P)
  fields : ∀ (i : Nat) (table : Table Value), m.fields[i]? = some table → table.All (Value.Obeys P)
  frames : P.frames m.frames

theorem Class.findStatic?_eq (name : String) : ∀ c : Class,
    c.findStatic? name = c.lineage.findSome? fun k => k.statics.get? name
  | .mk _ _ none _ statics => by
    rw [findStatic?, lineage]
    cases hm : statics.get? name <;> simp [Class.statics, hm]
  | .mk _ _ (some parent) _ statics => by
    rw [findStatic?, lineage, parent.findStatic?_eq name]
    cases hm : statics.get? name <;> simp [Class.statics, hm]

theorem Class.Obeys.findMethod? (h : c.Obeys P) (hf : c.findMethod? name = some f) : P.waiting f := by
  rw [Class.findMethod?_eq] at hf
  obtain ⟨k, hk, hm⟩ := List.exists_of_findSome?_eq_some hf
  exact (h k hk).1.get? hm

theorem Class.Obeys.methodChain (h : c.Obeys P) (hf : f ∈ c.methodChain name) : P.waiting f := by
  simp only [Class.methodChain, List.mem_reverse, List.mem_filterMap] at hf
  obtain ⟨k, hk, hm⟩ := hf
  exact (h k hk).1.get? hm

theorem Class.Obeys.findStatic? (h : c.Obeys P) (hf : c.findStatic? name = some f) : P.callable f := by
  rw [Class.findStatic?_eq] at hf
  obtain ⟨k, hk, hm⟩ := List.exists_of_findSome?_eq_some hf
  exact (h k hk).2.get? hm

/-- A class obeys when its superclass does and its own methods are as the policy asks. -/
theorem Class.obeys_mk {id : Nat} {parent? : Option Class} {table : Table Closure}
    (hp : ∀ c ∈ parent?, c.Obeys P) (ht : table.Every P.allows) :
    (Class.mk id name parent? (table.filter (!·.isStatic)) (table.filter (·.isStatic))).Obeys P := by
  have hown : (table.filter (!·.isStatic)).Every P.waiting ∧
      (table.filter (·.isStatic)).Every P.callable := by
    constructor
    · intro entry he
      obtain ⟨hmem, hstatic⟩ := List.mem_filter.1 he
      have hallows := ht entry hmem
      rwa [Policy.allows, if_neg (by simpa using hstatic)] at hallows
    · intro entry he
      obtain ⟨hmem, hstatic⟩ := List.mem_filter.1 he
      have hallows := ht entry hmem
      rwa [Policy.allows, if_pos hstatic] at hallows
  intro k hk
  cases parent? with
  | none =>
    obtain rfl : k = _ := by simpa [Class.lineage] using hk
    exact hown
  | some parent =>
    rw [Class.lineage, List.mem_cons] at hk
    rcases hk with rfl | hk
    · exact hown
    · exact hp parent rfl k hk

theorem Class.Obeys.mono {Q : Policy} (hc : ∀ f, P.callable f → Q.callable f)
    (hw : ∀ f, P.waiting f → Q.waiting f) (h : c.Obeys P) : c.Obeys Q :=
  fun k hk => ⟨fun entry he => hw _ ((h k hk).1 entry he), fun entry he => hc _ ((h k hk).2 entry he)⟩

theorem Value.Obeys.mono {Q : Policy} {v : Value} (hc : ∀ f, P.callable f → Q.callable f)
    (hw : ∀ f, P.waiting f → Q.waiting f) (h : v.Obeys P) : v.Obeys Q := by
  cases v with
  | function f => exact hc f h
  | type c => exact Class.Obeys.mono hc hw h
  | object o => exact Class.Obeys.mono hc hw h
  | chain id methods o => exact ⟨fun f hf => hw f (h.1 f hf), Class.Obeys.mono hc hw h.2⟩
  | _ => trivial

namespace Machine.Obeys

variable {m m' : Machine}

theorem congr (h : m.Obeys P) (hf : m'.frames = m.frames) (hd : m'.fields = m.fields) :
    m'.Obeys P :=
  ⟨by rw [hf]; exact h.values, by rw [hd]; exact h.fields, by rw [hf]; exact h.frames⟩

theorem mono {Q : Policy} (h : m.Obeys P) (hc : ∀ f, P.callable f → Q.callable f)
    (hw : ∀ f, P.waiting f → Q.waiting f) (hf : Q.frames m.frames) : m.Obeys Q :=
  ⟨h.values.mono fun _ hv => hv.mono hc hw,
    fun i table ht => (h.fields i table ht).mono fun _ hv => hv.mono hc hw, hf⟩

theorem getD (h : m.Obeys P) (id : FrameId) (name : String) :
    ((m.frames.held? id name).getD .nil).Obeys P := by
  cases hh : m.frames.held? id name with
  | none => trivial
  | some v => exact h.values.held hh

theorem push (h : m.Obeys P) (hl : P.Lawful) {vars : Table Value}
    (hv : vars.All (Value.Obeys P)) :
    Machine.Obeys P { m with frames := m.frames.push (.named vars) } :=
  ⟨h.values.push hv, h.fields, hl.push vars h.frames⟩

end Machine.Obeys

theorem Machine.obeys_start {traced : Bool} {clock : Clock}
    (h : P.frames (Machine.start traced clock).frames) : (Machine.start traced clock).Obeys P where
  values := by
    intro i frame hf
    obtain ⟨hi, rfl⟩ := Array.getElem?_eq_some_iff.1 hf
    obtain rfl : i = 0 := Nat.lt_one_iff.1 hi
    exact ⟨_, rfl, (Table.All.empty _).insert "clock" trivial⟩
  fields := by
    intro i table ht
    simp [Machine.start, Machine.withGlobals] at ht
  frames := h

namespace Policy

variable {m : Machine}

variable {env : Env} {name : String} {v : Value}

/-! ### Variables and fields -/

/-- No frame of a machine that obeys holds variables by position. -/
theorem not_indexed (ho : m.Obeys P) {distance : Nat} {operation : String}
    {found : FrameId × Array Value × Table Value} :
    Frames.Indexed.frameAt m.frames env distance operation ≠ .ok found := by
  unfold Frames.Indexed.frameAt Frames.frameAt
  intro h
  cases hancestor : Frames.ancestor env distance with
  | error d =>
    rw [hancestor] at h
    cases h
  | ok rest =>
    rw [hancestor] at h
    cases rest with
    | nil => cases h
    | cons id outer =>
      cases hframe : m.frames[id]? with
      | none =>
        simp only [bind, Except.bind, hframe] at h
        cases h
      | some frame =>
        obtain ⟨vars, rfl, -⟩ := ho.values id frame hframe
        simp only [bind, Except.bind, hframe] at h
        cases h

theorem obeys_getAt (ho : m.Obeys P) {distance : Nat} (h : m.frames.getAt env distance name = .ok v) :
    v.Obeys P := by
  obtain ⟨id, rfl⟩ := Frames.getAt_eq_ok h
  exact ho.getD id name

theorem obeys_get (ho : m.Obeys P) (h : m.frames.get env name = .ok v) : v.Obeys P := by
  obtain ⟨id, rfl⟩ := Frames.get_eq_ok h
  exact ho.getD id name

theorem obeys_field (ho : m.Obeys P) {i : Nat} (h : (m.fields[i]?).bind (·.get? name) = some v) :
    v.Obeys P := by
  obtain ⟨table, ht, hv⟩ := Option.bind_eq_some_iff.1 h
  exact ho.fields i table ht name v hv

theorem obeys_newObject (ho : m.Obeys P) :
    Machine.Obeys P { m with fields := m.fields.push .empty } := by
  refine ⟨ho.values, ?_, ho.frames⟩
  intro i table ht
  dsimp only at ht
  rw [Array.getElem?_push] at ht
  split at ht
  · cases ht
    exact .empty _
  · exact ho.fields i table ht

/-! ### Calls -/

/-- The variables with which a body starts are the receiver, `inner` and the arguments. -/
theorem obeys_callVars {f : Closure} {this : Value} {frame : FrameId} {args : List Value}
    {vars : Table Value} (h : callVars f this frame args = .ok vars) (ht : this.Obeys P)
    (ha : ∀ a ∈ args, Value.Obeys P a) : vars.All (Value.Obeys P) :=
  (callVars_eq_ok h ht (fun _ => trivial) ha).1

end Policy

end Lox
