import Lox.Proofs.Frame
import Lox.Proofs.Machine.Visit

/-!
# Environments that match the program

A function is run inside the environment it was made in, and its body was resolved inside the scopes
around it. The two match when the frames of the environment were opened for these scopes and hold
the names declared there.

## Design notes

Everything is stated relative to a view and is kept when the view grows. A name whose initializer
is being evaluated, or was abandoned, counts as bound: it is excused.
-/

namespace Lox

variable {env : Env} {nest : Nest} {frames : Frames} {id : FrameId} {d : Nat}

/-- Some programs, and the nodes of them that are run. -/
structure World where
  programs : List Stmt → Prop
  roots : Moment → Prop

/-- How many frames there are, and which names are taken to be bound in them. -/
structure View where
  size : Nat
  binds : FrameId → String → Prop

namespace View

instance : LE View := ⟨fun a b => a.size ≤ b.size ∧ ∀ id x, a.binds id x → b.binds id x⟩

theorem le_refl (a : View) : a ≤ a := ⟨Nat.le_refl _, fun _ _ h => h⟩

theorem le_trans {a b c : View} (h : a ≤ b) (h' : b ≤ c) : a ≤ c :=
  ⟨Nat.le_trans h.1 h'.1, fun id x hx => h'.2 id x (h.2 id x hx)⟩

end View

/-- Some frames, where some names count as bound. -/
def Frames.view (frames : Frames) (excused : FrameId → String → Prop) : View :=
  ⟨frames.size, fun id x => (frames.held? id x).isSome = true ∨ excused id x⟩

section

variable (w : World)

/-- The names that count as bound while some moments last. -/
def Excused (moments : List Moment) (frame : FrameId) (name : String) : Prop :=
  Pending moments frame name ∨ Abandoned w.roots frame name

/-- An environment matches the scopes around a node: each frame was opened for its scope, and the
names declared there so far are bound. -/
inductive Fits (view : View) : Env → Nest → Prop where
  | globals (hs : Machine.globalId < view.size) : Fits view Machine.globals []
  | cons {id : FrameId} {layer : Layer} {env : Env} {nest : Nest}
      (ho : Opened w.roots id layer.opening env) (hs : id < view.size)
      (hb : ∀ x ∈ layer.names, view.binds id x) (h : Fits view env nest) :
      Fits view (id :: env) (layer :: nest)

def Stands (inner : Nest) (body : List Stmt) : Prop :=
  ∀ before s after, body = before ++ s :: after →
    Located w.programs (Nest.declare (before.flatMap Stmt.declared) inner) (.stmt s)

/-- The environment of a function matches the scopes around its body, up to some scopes whose frames
are opened before it is applied. -/
structure Closure.Placed (view : View) (missing : Nest) (f : Closure) : Prop where
  getter : f.isGetter = true → f.params = []
  body : ∃ nest, Stands w (⟨.call f.params f.body, paramScope f.params⟩ :: (missing ++ nest))
    f.body ∧ Fits w view f.env nest

/-- The scope that a method has and a function has not. -/
def receiverNest : Nest := [⟨.receiver, {"this"}⟩]

end

variable {w : World} {view view' : View} {excused : FrameId → String → Prop}

/-! ### Growing views -/

theorem Fits.mono (h : Fits w view env nest) (hv : view ≤ view') : Fits w view' env nest := by
  induction h with
  | globals hs => exact .globals (Nat.lt_of_lt_of_le hs hv.1)
  | cons ho hs hb _ ih =>
    exact .cons ho (Nat.lt_of_lt_of_le hs hv.1) (fun x hx => hv.2 _ x (hb x hx)) ih

theorem Closure.Placed.mono {missing : Nest} {f : Closure} (h : f.Placed w view missing)
    (hv : view ≤ view') : f.Placed w view' missing := by
  obtain ⟨nest, hs, hf⟩ := h.body
  exact ⟨h.getter, nest, hs, hf.mono hv⟩

theorem Frames.isSome_held?_push {x : String} (h : (frames.held? id x).isSome = true)
    (vars : Table Value) :
    (Frames.held? (frames.push (.named vars)) id x).isSome = true := by
  obtain ⟨v, hv⟩ := Option.isSome_iff_exists.1 h
  rw [held?_push_of_held? hv]
  rfl

theorem Frames.view_push (frames : Frames) (vars : Table Value) :
    frames.view excused ≤ Frames.view (frames.push (.named vars)) excused :=
  ⟨by simp [Frames.view], fun _ _ h => h.imp_left (isSome_held?_push · vars)⟩

theorem Frames.isSome_held?_write {i : FrameId} {x : String} (h : (frames.held? i x).isSome = true)
    (id : FrameId) (name : String) (v : Value) :
    ((frames.write id name v).held? i x).isSome = true := by
  by_cases hx : x = name
  · subst hx
    obtain ⟨u, hu⟩ := Option.isSome_iff_exists.1 h
    obtain ⟨vars, hvars⟩ := exists_named_of_held? hu
    by_cases hi : i = id
    · subst hi
      simp [Frames.held?_write hvars]
    · unfold Frames.held?
      rwa [Frames.getElem?_write, if_neg (Ne.symm hi)]
  · rwa [Frames.held?_write_of_ne hx]

theorem Frames.view_write {name : String} {v : Value} {excused' : FrameId → String → Prop}
    (hx : ∀ i x, excused' i x →
      excused i x ∨ ((frames.write id name v).held? i x).isSome = true) :
    frames.view excused' ≤ (frames.write id name v).view excused := by
  refine ⟨by simp [Frames.view], ?_⟩
  rintro i x (h | h)
  · exact Or.inl (Frames.isSome_held?_write h id name v)
  · exact (hx i x h).symm

theorem Frames.view_le_of_excused {excused' : FrameId → String → Prop}
    (h : ∀ frame name, excused frame name → excused' frame name) :
    frames.view excused ≤ frames.view excused' :=
  ⟨Nat.le_refl _, fun frame name hb => hb.imp_right (h frame name)⟩

/-! ### Environments -/

theorem Fits.layered (h : Fits w view env nest) : Layered w.roots env nest.openings := by
  induction h with
  | globals => exact .globals
  | cons ho _ _ _ ih => exact .cons ho ih

theorem Fits.at (h : Fits w view env nest) {layer : Layer} (hl : nest[d]? = some layer) :
    ∃ id outer, env.drop d = id :: outer ∧ Opened w.roots id layer.opening outer ∧
      id < view.size ∧ ∀ x ∈ layer.names, view.binds id x := by
  induction h generalizing d with
  | globals => simp at hl
  | cons ho hs hb _ ih =>
    cases d with
    | zero =>
      cases hl
      exact ⟨_, _, rfl, ho, hs, hb⟩
    | succ d => exact ih hl

theorem Fits.head (h : Fits w view env nest) : ∃ id outer, env = id :: outer ∧ id < view.size := by
  cases h with
  | globals hs => exact ⟨_, _, rfl, hs⟩
  | cons _ hs _ _ => exact ⟨_, _, rfl, hs⟩

theorem Fits.declare {outer : Env} {names : List String} (h : Fits w view (id :: outer) nest)
    (hn : ∀ x ∈ names, view.binds id x) :
    Fits w view (id :: outer) (Nest.declare names nest) := by
  generalize he : id :: outer = env at h
  cases h with
  | globals hs => exact .globals hs
  | cons ho hs hb h =>
    cases he
    refine .cons ho hs ?_ h
    rintro x (hx | hx)
    · exact hn x hx
    · exact hb x hx

theorem Fits.globals_lt (h : Fits w view env nest) : Machine.globalId < view.size := by
  induction h with
  | globals hs => exact hs
  | cons _ _ _ _ ih => exact ih

theorem Encloses.stands {inner : Nest} {node : Node} {body : List Stmt}
    (he : Encloses nest node inner body) (h : Located w.programs nest node) :
    Stands w inner body := by
  rintro before s after rfl
  exact .body h he

/-- The environment of a body: its frame was opened for the innermost of its scopes and holds the
variables that the scope starts with. -/
theorem Fits.enter {layer : Layer} {vars : Table Value} (hf : Fits w (frames.view excused) env nest)
    (ho : Opened w.roots frames.size layer.opening env)
    (hl : layer.names ⊆ vars.domain) :
    Fits w (Frames.view (frames.push (.named vars)) excused) (frames.size :: env) (layer :: nest) := by
  refine .cons ho (by simp [Frames.view]) ?_ (hf.mono (frames.view_push vars))
  intro x hx
  obtain ⟨v, hv⟩ := Table.mem_domain.1 (hl hx)
  exact Or.inl (by simp [hv])

/-- The frame to which the address of a local variable leads. -/
theorem Fits.locate {p : Value → Prop} {name : String} (hf : Fits w (frames.view excused) env nest)
    (ha : frames.AllNamed p)
    (hl : Scope.Locates nest.held name (.hops d)) :
    ∃ layer id outer vars, nest[d]? = some layer ∧ env.drop d = id :: outer ∧
      Opened w.roots id layer.opening outer ∧ frames[id]? = some (.named vars) ∧
      (frames.view excused).binds id name := by
  obtain ⟨⟨scope, hscope, hmem⟩, -⟩ := hl
  rw [Nest.held, List.getElem?_map] at hscope
  obtain ⟨layer, hlayer, rfl⟩ := Option.map_eq_some_iff.1 hscope
  obtain ⟨id, outer, hdrop, ho, hlt, hb⟩ := hf.at hlayer
  obtain ⟨vars, hid, -⟩ := ha.exists_named hlt
  exact ⟨layer, id, outer, vars, hlayer, hdrop, ho, hid, hb name hmem⟩

theorem getElem?_of_drop {outer : Env} (h : env.drop d = id :: outer) : env[d]? = some id := by
  rw [← List.head?_drop, h]
  rfl

end Lox
