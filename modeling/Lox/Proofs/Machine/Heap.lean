import Lox.Machine
import Lox.Proofs.Table
import Mathlib.Data.List.Infix
import Mathlib.Order.Basic

/-!
# The heap of a machine

Frames, functions and classes are numbered in the order in which they are made. A frame lies inside one
that was opened before it, and a class extends one that was declared before it; none of this changes
afterwards. A heap records it: for each frame the one it lies in, and for each identity number what was
made under it.
-/

namespace Lox

/-! ### Tables -/

/-- Every value that is entered in a table has a property. -/
def Table.Every {α : Type} (p : α → Prop) (t : Table α) : Prop := ∀ entry ∈ t.entries, p entry.2

namespace Table.Every

variable {α : Type} {p q : α → Prop} {t : Table α}

theorem empty : (Table.empty : Table α).Every p := by
  intro entry h
  cases h

theorem insert (h : t.Every p) (name : String) {a : α} (ha : p a) : (t.insert name a).Every p := by
  intro entry he
  rcases mem_entries_insert he with he | rfl
  · exact h entry he
  · exact ha

theorem get? (h : t.Every p) {name : String} {a : α} (ha : t.get? name = some a) : p a :=
  h _ (mem_entries_of_get? ha)

theorem mono (h : t.Every p) (hpq : ∀ a, p a → q a) : t.Every q :=
  fun entry he => hpq _ (h entry he)

theorem filter (h : t.Every p) (test : α → Bool) : (t.filter test).Every p :=
  fun entry he => h entry (List.mem_of_mem_filter he)

end Table.Every

/-! ### Heaps -/

/-- An environment follows the links: each frame lies in the next, and the last in none. -/
inductive Path (links : List (Option FrameId)) : Env → Prop where
  | root {i : FrameId} (h : links[i]? = some none) : Path links [i]
  | link {i j : FrameId} {outer : Env} (h : links[i]? = some (some j))
      (hp : Path links (j :: outer)) : Path links (i :: j :: outer)

/-- What is made under an identity number. -/
inductive Made where
  | function (f : Closure)
  | type (c : Class)
  /-- The methods of one name along the superclasses of an instance. -/
  | chain

/-- What is made under a number bears it and refers only to what is there: the frames of its
environment, a superclass and methods with smaller numbers. -/
def Made.Formed (links : List (Option FrameId)) (made : List Made) (i : Nat) : Made → Prop
  | .function f => f.id = i ∧ Path links f.env
  | .type c => c.id = i ∧
      (∀ parent ∈ c.superclass?, parent.id < i ∧ made[parent.id]? = some (.type parent)) ∧
      c.methods.Every (fun f => f.id < i ∧ made[f.id]? = some (.function f)) ∧
      c.statics.Every fun f => f.id < i ∧ made[f.id]? = some (.function f)
  | .chain => True

/-- For each frame the one it lies in, and for each identity number what was made under it. -/
structure Heap where
  links : List (Option FrameId)
  made : List Made
  /-- The global frame alone lies in no other. -/
  root : ∀ i : FrameId, links[i]? = some none ↔ i = Machine.globalId
  /-- A frame lies in one that was opened before it. -/
  earlier : ∀ i j : FrameId, links[i]? = some (some j) → j < i
  formed : ∀ (i : Nat) (x : Made), made[i]? = some x → x.Formed links made i

theorem getElem?_of_isPrefix {α : Type} {l l' : List α} (h : l <+: l') {i : Nat} {a : α}
    (hi : l[i]? = some a) : l'[i]? = some a := by
  obtain ⟨more, rfl⟩ := h
  obtain ⟨hlt, -⟩ := List.getElem?_eq_some_iff.1 hi
  rw [List.getElem?_append_left hlt, hi]

theorem Path.mono {links links' : List (Option FrameId)} (h : links <+: links') {env : Env}
    (hp : Path links env) : Path links' env := by
  induction hp with
  | root hi => exact .root (getElem?_of_isPrefix h hi)
  | link hi _ ih => exact .link (getElem?_of_isPrefix h hi) ih

theorem Made.Formed.mono {links links' : List (Option FrameId)} {made made' : List Made}
    (hl : links <+: links') (hm : made <+: made') {i : Nat} {x : Made}
    (h : x.Formed links made i) : x.Formed links' made' i := by
  have hstays : ∀ f : Closure, f.id < i ∧ made[f.id]? = some (.function f) →
      f.id < i ∧ made'[f.id]? = some (.function f) :=
    fun f hf => ⟨hf.1, getElem?_of_isPrefix hm hf.2⟩
  cases x with
  | function f => exact ⟨h.1, h.2.mono hl⟩
  | type c =>
    obtain ⟨hid, hparent, hmethods, hstatics⟩ := h
    refine ⟨hid, ?_, hmethods.mono hstays, hstatics.mono hstays⟩
    intro parent hp
    exact ⟨(hparent parent hp).1, getElem?_of_isPrefix hm (hparent parent hp).2⟩
  | chain => trivial

namespace Heap

/-- A later heap has all the links and all the things of an earlier one. -/
instance : Preorder Heap where
  le h h' := h.links <+: h'.links ∧ h.made <+: h'.made
  le_refl h := ⟨List.prefix_rfl, List.prefix_rfl⟩
  le_trans h h' h'' hle hle' := ⟨hle.1.trans hle'.1, hle.2.trans hle'.2⟩

variable (h : Heap)

theorem length_pos : 0 < h.links.length :=
  (List.getElem?_eq_some_iff.1 ((h.root Machine.globalId).2 rfl)).1

theorem root_append (j : FrameId) (i : FrameId) :
    (h.links ++ [some j])[i]? = some none ↔ i = Machine.globalId := by
  rcases Nat.lt_trichotomy i h.links.length with hi | rfl | hi
  · rw [List.getElem?_append_left hi]
    exact h.root i
  · -- the new frame is not the global one, which is there already
    have hne : h.links.length ≠ Machine.globalId := Nat.ne_of_gt h.length_pos
    simp [hne]
  · rw [List.getElem?_eq_none (by simp; omega)]
    have hne : i ≠ Machine.globalId := fun heq => by simp [heq, Machine.globalId] at hi
    simp [hne]

theorem earlier_append {j : FrameId} (hj : j < h.links.length) (i k : FrameId)
    (hk : (h.links ++ [some j])[i]? = some (some k)) : k < i := by
  rcases Nat.lt_trichotomy i h.links.length with hi | rfl | hi
  · rw [List.getElem?_append_left hi] at hk
    exact h.earlier i k hk
  · obtain rfl : j = k := by simpa using hk
    exact hj
  · rw [List.getElem?_eq_none (by simp; omega)] at hk
    cases hk

theorem formed_append_link (j : FrameId) (i : Nat) (x : Made) (hx : h.made[i]? = some x) :
    x.Formed (h.links ++ [some j]) h.made i :=
  (h.formed i x hx).mono (List.prefix_append _ _) List.prefix_rfl

theorem formed_append {x : Made} (hx : x.Formed h.links h.made h.made.length) (i : Nat) (y : Made)
    (hy : (h.made ++ [x])[i]? = some y) : y.Formed h.links (h.made ++ [x]) i := by
  have hmore : h.made <+: h.made ++ [x] := List.prefix_append _ _
  rcases Nat.lt_trichotomy i h.made.length with hi | rfl | hi
  · rw [List.getElem?_append_left hi] at hy
    exact (h.formed i y hy).mono List.prefix_rfl hmore
  · simp at hy
    subst hy
    exact hx.mono List.prefix_rfl hmore
  · rw [List.getElem?_eq_none (by simp; omega)] at hy
    cases hy

def enclose (j : FrameId) (hj : j < h.links.length) : Heap where
  links := h.links ++ [some j]
  made := h.made
  root := h.root_append j
  earlier := h.earlier_append hj
  formed := h.formed_append_link j

def make (x : Made) (hx : x.Formed h.links h.made h.made.length) : Heap where
  links := h.links
  made := h.made ++ [x]
  root := h.root
  earlier := h.earlier
  formed := h.formed_append hx

theorem le_enclose {j : FrameId} (hj : j < h.links.length) : h ≤ h.enclose j hj :=
  ⟨List.prefix_append _ _, List.prefix_rfl⟩

theorem le_make {x : Made} (hx : x.Formed h.links h.made h.made.length) : h ≤ h.make x hx :=
  ⟨List.prefix_rfl, List.prefix_append _ _⟩

/-! ### Walking along links and superclasses -/

/-- The frames along the links from a frame; `none` if so many steps do not lead to the end. -/
def follow (h : Heap) : Nat → FrameId → Option Env
  | 0, _ => none
  | steps + 1, i =>
    match h.links[i]? with
    | some (some j) => (h.follow steps j).map (i :: ·)
    | _ => some [i]

/-- The classes along the superclasses of a class; `none` if so many steps do not lead to the end. -/
def ancestry (h : Heap) : Nat → Nat → Option (List Class)
  | 0, _ => none
  | steps + 1, i =>
    match h.made[i]? with
    | some (.type c) =>
      match c.superclass? with
      | some parent => (h.ancestry steps parent.id).map (c :: ·)
      | none => some [c]
    | _ => some []

variable {h}

theorem follow_eq {i : FrameId} {outer : Env} (hp : Path h.links (i :: outer)) {steps : Nat}
    (hs : i < steps) : h.follow steps i = some (i :: outer) := by
  generalize henv : i :: outer = env at hp
  induction hp generalizing i outer steps with
  | root hi =>
    cases henv
    obtain ⟨steps, rfl⟩ := Nat.exists_eq_succ_of_ne_zero (Nat.ne_of_gt (Nat.zero_lt_of_lt hs))
    rw [follow, hi]
  | @link k j more hk hp ih =>
    cases henv
    obtain ⟨steps, rfl⟩ := Nat.exists_eq_succ_of_ne_zero (Nat.ne_of_gt (Nat.zero_lt_of_lt hs))
    -- the next frame was opened earlier, so a smaller number of steps is enough for it
    have hj : j < steps := Nat.lt_of_lt_of_le (h.earlier _ j hk) (Nat.le_of_lt_succ hs)
    rw [follow, hk]
    dsimp only
    rw [ih hj rfl]
    rfl

theorem pairwise_of_path {env : Env} (hp : Path h.links env) : env.Pairwise (· > ·) := by
  induction hp with
  | root _ => exact List.pairwise_singleton _ _
  | @link i j outer hi _ ih =>
    have hj : j < i := h.earlier i j hi
    refine List.pairwise_cons.2 ⟨?_, ih⟩
    intro k hk
    rcases List.mem_cons.1 hk with rfl | hk
    · exact hj
    · exact Nat.lt_trans (List.rel_of_pairwise_cons ih hk) hj

theorem lt_length_of_path {env : Env} (hp : Path h.links env) : ∀ id ∈ env, id < h.links.length := by
  induction hp with
  | root hi => simpa using (List.getElem?_eq_some_iff.1 hi).1
  | link hi _ ih => exact List.forall_mem_cons.2 ⟨(List.getElem?_eq_some_iff.1 hi).1, ih⟩

end Heap

/-! ### What a heap records -/

def Closure.Known (h : Heap) (f : Closure) : Prop := h.made[f.id]? = some (.function f)

def Class.Known (h : Heap) (c : Class) : Prop := h.made[c.id]? = some (.type c)

def Value.Known (h : Heap) : Value → Prop
  | .function f => f.Known h
  | .type c => c.Known h
  | .object o => o.type.Known h
  | .chain _ methods o => (∀ f ∈ methods, f.Known h) ∧ o.type.Known h
  | _ => True

/-- The functions and classes in the variables of a frame are recorded. -/
def Frame.Known (h : Heap) : Frame → Prop
  | .named vars => vars.Every (Value.Known h)
  | .indexed slots globals =>
      (∀ (i : Nat) (v : Value), slots[i]? = some v → v.Known h) ∧ globals.Every (Value.Known h)

/-- The functions and classes in what a computation ends with are recorded. -/
def Exit.Known (h : Heap) : Exit → Prop
  | .returned v => v.Known h
  | .delivered v => v.Known h
  | _ => True

section Known

variable {h h' : Heap} (hle : h ≤ h')

include hle

theorem Closure.Known.mono {f : Closure} (hf : f.Known h) : f.Known h' :=
  getElem?_of_isPrefix hle.2 hf

theorem Class.Known.mono {c : Class} (hc : c.Known h) : c.Known h' :=
  getElem?_of_isPrefix hle.2 hc

theorem Value.Known.mono {v : Value} (hv : v.Known h) : v.Known h' := by
  cases v with
  | function f => exact Closure.Known.mono hle hv
  | type c => exact Class.Known.mono hle hv
  | object o => exact Class.Known.mono hle hv
  | chain id methods o =>
    exact ⟨fun f hf => (hv.1 f hf).mono hle, Class.Known.mono hle hv.2⟩
  | nil | bool | num | int | text | native => trivial

theorem Frame.Known.mono {frame : Frame} (hf : frame.Known h) : frame.Known h' := by
  cases frame with
  | named vars => exact Table.Every.mono hf fun _ hv => hv.mono hle
  | indexed slots globals =>
    exact ⟨fun i v hv => (hf.1 i v hv).mono hle, hf.2.mono fun _ hv => hv.mono hle⟩

end Known

theorem Closure.Known.path {h : Heap} {f : Closure} (hf : f.Known h) : Path h.links f.env :=
  (h.formed _ _ hf).2

namespace Class.Known

variable {h : Heap}

theorem parent {c parent : Class} (hc : c.Known h) (hp : c.superclass? = some parent) :
    parent.id < c.id ∧ parent.Known h :=
  (h.formed _ _ hc).2.1 parent hp

theorem method {c : Class} (hc : c.Known h) {name : String} {f : Closure}
    (hf : c.methods.get? name = some f) : f.Known h :=
  ((h.formed _ _ hc).2.2.1.get? hf).2

theorem static {c : Class} (hc : c.Known h) {name : String} {f : Closure}
    (hf : c.statics.get? name = some f) : f.Known h :=
  ((h.formed _ _ hc).2.2.2.get? hf).2

theorem lineage : ∀ {c : Class}, c.Known h → ∀ k ∈ c.lineage, k.Known h
  | .mk _ _ none _ _, hc, k, hk => by
    obtain rfl := List.mem_singleton.1 hk
    exact hc
  | .mk _ _ (some _) _ _, hc, k, hk => by
    rcases List.mem_cons.1 hk with rfl | hk
    · exact hc
    · exact (hc.parent rfl).2.lineage k hk

end Class.Known

/-- A method is looked for along the superclasses. -/
theorem Class.findMethod?_eq (name : String) : ∀ c : Class,
    c.findMethod? name = c.lineage.findSome? fun k => k.methods.get? name
  | .mk _ _ none methods _ => by
    rw [findMethod?, lineage]
    cases hm : methods.get? name <;> simp [Class.methods, hm]
  | .mk _ _ (some parent) methods _ => by
    rw [findMethod?, lineage, parent.findMethod?_eq name]
    cases hm : methods.get? name <;> simp [Class.methods, hm]

theorem Class.findMethod?_eq_none {c : Class} {name : String} :
    c.findMethod? name = none ↔ ∀ k ∈ c.lineage, k.methods.get? name = none := by
  rw [findMethod?_eq, List.findSome?_eq_none_iff]

theorem Heap.ancestry_eq {h : Heap} {c : Class} (hc : c.Known h) {steps : Nat} (hs : c.id < steps) :
    h.ancestry steps c.id = some c.lineage := by
  induction steps generalizing c with
  | zero => cases hs
  | succ steps ih =>
    rw [ancestry, show h.made[c.id]? = some (.type c) from hc]
    obtain ⟨id, name, superclass?, methods, statics⟩ := c
    cases superclass? with
    | none => rfl
    | some parent =>
      obtain ⟨hlt, hp⟩ := hc.parent rfl
      have hparent := ih hp (Nat.lt_of_lt_of_le hlt (Nat.le_of_lt_succ hs))
      simp only [Class.superclass?, hparent]
      rfl

/-- A heap records what a machine holds: all its frames and all that has a number, and what the
current environment, the variables and the fields refer to. -/
structure Heap.Describes (h : Heap) (m : Machine) : Prop where
  size : h.links.length = m.frames.size
  fresh : h.made.length = m.fresh
  env : Path h.links m.env
  frames : ∀ (i : FrameId) (frame : Frame), m.frames[i]? = some frame → frame.Known h
  fields : ∀ (i : Nat) (table : Table Value),
    m.fields[i]? = some table → table.Every (Value.Known h)

end Lox
