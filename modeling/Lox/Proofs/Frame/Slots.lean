import Lox.Frame.Store
import Lox.Proofs.Frame
import Mathlib.Data.Set.Function

/-!
# Frames by position simulate frames by name

Two stores take the same operations, one with frames by name and one with frames by position, where a
name stands for the position that a numbering gives it. A frame by position has more slots than were
defined: those before the last one are filled with `nil`. As long as a variable is read and written only
after it was defined in its frame, nobody can tell.
-/

namespace Lox

namespace Frames.Indexed

variable {frames : Frames} {env : Env} {distance : Nat} {id : FrameId} {slots : Array Value}
  {globals : Table Value}

/-! ### Slots -/

theorem getElem?_padTo {i : Nat} (index : Nat) (hi : i < slots.size) :
    (padTo slots index)[i]? = slots[i]? := by
  unfold padTo
  rw [Array.getElem?_append_left hi]

theorem lt_size_padTo (slots : Array Value) (index : Nat) : index < (padTo slots index).size := by
  unfold padTo
  rw [Array.size_append, Array.size_replicate]
  omega

theorem getElem?_update (frames : Frames) (id : FrameId)
    (f : Array Value → Table Value → Array Value × Table Value) (i : FrameId) :
    (update frames id f)[i]? = if id = i then frames[i]?.map fun
      | .indexed slots globals => .indexed (f slots globals).1 (f slots globals).2
      | frame => frame
    else frames[i]? := by
  unfold update
  exact Array.getElem?_modify

@[simp] theorem size_update (frames : Frames) (id : FrameId)
    (f : Array Value → Table Value → Array Value × Table Value) :
    (update frames id f).size = frames.size := by
  simp [update]

/-! ### Access to the frame at a depth -/

theorem frameAt_eq (he : env[distance]? = some id) (hid : frames[id]? = some (.indexed slots globals))
    (operation : String) : frameAt frames env distance operation = .ok (id, slots, globals) := by
  obtain ⟨hlt, -⟩ := List.getElem?_eq_some_iff.1 he
  have hdrop : env.drop distance = id :: env.drop (distance + 1) := by
    rw [List.drop_eq_getElem_cons hlt]
    congr 1
    exact Option.some.inj ((List.getElem?_eq_getElem hlt).symm.trans he)
  unfold frameAt Frames.frameAt ancestor
  rw [if_pos hlt.le]
  simp only [bind, Except.bind, hdrop, hid]

theorem defineAt_eq (he : env[0]? = some id) (hid : frames[id]? = some (.indexed slots globals))
    (index : Nat) (value : Value) :
    defineAt frames env index value = .ok (update frames id fun slots globals =>
      ((padTo slots index).setIfInBounds index value, globals)) := by
  unfold defineAt
  rw [frameAt_eq he hid]
  rfl

theorem getAt_eq (he : env[distance]? = some id)
    (hid : frames[id]? = some (.indexed slots globals)) {index : Nat} {value : Value}
    (hv : slots[index]? = some value) : getAt frames env distance index = .ok value := by
  unfold getAt
  rw [frameAt_eq he hid]
  simp only [bind, Except.bind, hv]

theorem assignAt_eq (he : env[distance]? = some id)
    (hid : frames[id]? = some (.indexed slots globals)) {index : Nat} (hi : index < slots.size)
    (value : Value) :
    assignAt frames env distance index value = .ok (writeSlot frames id index value) := by
  unfold assignAt slotHolder
  rw [frameAt_eq he hid]
  simp only [bind, Except.bind, hi, if_true]
  rfl

end Frames.Indexed

namespace Store

open Frames

/-- An operation on environments: a new one inside another one or not, a definition, and reading and
writing a variable of the frame at a distance. -/
inductive Operation where
  | new (parent? : Option Nat)
  | define (number : Nat) (name : String) (value : Value)
  | read (number distance : Nat) (name : String)
  | write (number distance : Nat) (name : Token) (value : Value)

namespace Operation

def request : Operation → Request
  | .new parent? => .new parent?
  | .define number name value => .call number (.define name value)
  | .read number distance name => .call number (.getAt distance name)
  | .write number distance name value => .call number (.assignAt distance name value)

def name? : Operation → Option String
  | .new _ => none
  | .define _ name _ | .read _ _ name => some name
  | .write _ _ name _ => some name.lexeme

/-- The environments after an operation, each with its number and the numbers of those around it. -/
def grow (envs : Array Env) : Operation → Array Env
  | .new none => envs.push [envs.size]
  | .new (some parent) => envs.push (envs.size :: envs[parent]?.getD [])
  | _ => envs

end Operation

/-- The environments that operations open, each with its number and the numbers of those around it. -/
def lineages (operations : List Operation) : Array Env := operations.foldl Operation.grow #[]

def Operation.defines (owner : Nat) (name : String) : Operation → Bool
  | .define number x _ => number = owner && x = name
  | _ => false

def hasDefined (before : List Operation) (number distance : Nat) (name : String) : Bool :=
  match (lineages before)[number]?.bind (·[distance]?) with
  | some owner => before.any (·.defines owner name)
  | none => false

/-- Whether an operation asks for environments that have been opened, and for a variable that was defined
in its frame, by the operations before. -/
def Operation.isReady (before : List Operation) : Operation → Bool
  | .new none => true
  | .new (some parent) => parent < (lineages before).size
  | .define number _ _ => number < (lineages before).size
  | .read number distance name => hasDefined before number distance name
  | .write number distance name _ => hasDefined before number distance name.lexeme

def isOrderly (before : List Operation) : List Operation → Bool
  | [] => true
  | operation :: operations =>
    operation.isReady before && isOrderly (before ++ [operation]) operations

theorem exists_defined {before : List Operation} {number distance : Nat} {name : String}
    (h : hasDefined before number distance name = true) :
    ∃ env owner value, (lineages before)[number]? = some env ∧ env[distance]? = some owner ∧
      Operation.define owner name value ∈ before := by
  unfold hasDefined at h
  split at h
  · next owner howner =>
    obtain ⟨env, henv, hat⟩ := Option.bind_eq_some_iff.1 howner
    obtain ⟨operation, hmem, hdefines⟩ := List.any_eq_true.1 h
    cases operation with
    | define n x value =>
      obtain ⟨rfl, rfl⟩ : n = owner ∧ x = name := by simpa [Operation.defines] using hdefines
      exact ⟨env, n, value, henv, hat, hmem⟩
    | _ => cases hdefines
  · cases h

/-! ### Carrying operations out -/

def byName (s : Store) (operation : Operation) : Answer × Store := s.step .plain operation.request

def addSlots (s : Store) (outer : Env) : Answer × Store :=
  let (id, frames) := s.frames.addFrame Indexed.emptyFrame
  (.opened id, ⟨frames, s.envs.push (id :: outer)⟩)

def inside (s : Store) (number : Nat) (act : Env → Answer × Store) : Answer × Store :=
  match s.envs[number]? with
  | some env => act env
  | none => (.unknown, s)

/-- Carries an operation out in frames by position, where `index` gives the names their positions. -/
def bySlot (index : String → Nat) (s : Store) : Operation → Answer × Store
  | .new none => s.addSlots []
  | .new (some parent) => s.inside parent s.addSlots
  | .define number name value => s.inside number fun env =>
    s.keep ((Indexed.defineAt s.frames env (index name) value).mapError (·.told none))
  | .read number distance name => s.inside number fun env =>
    s.tell (((Indexed.getAt s.frames env distance (index name)).mapError (·.told none)).map .value)
  | .write number distance name value => s.inside number fun env =>
    s.keep ((Indexed.assignAt s.frames env distance (index name.lexeme) value).mapError (·.told none))

def answers (carry : Store → Operation → Answer × Store) : Store → List Operation → List Answer
  | _, [] => []
  | s, operation :: operations =>
    (carry s operation).1 :: answers carry (carry s operation).2 operations

def Answer.isGiven : Answer → Bool
  | .refused _ | .unknown => false
  | _ => true

/-! ### The simulation -/

/-- The variables of a frame by name are in the slots of a frame by position; other slots do not
matter. -/
structure Covers (index : String → Nat) (names : Set String) (vars : Table Value)
    (slots : Array Value) : Prop where
  names : ∀ x v, vars.get? x = some v → x ∈ names
  slots : ∀ x v, vars.get? x = some v → slots[index x]? = some v

namespace Covers

variable {index : String → Nat} {names : Set String} {vars : Table Value} {slots slots' : Array Value}

variable {x : String}

/-- A variable gets a value in both frames, and the slots of the others stay. -/
theorem insert (h : Covers index names vars slots) (hindex : Set.InjOn index names) (hx : x ∈ names)
    {value : Value} (hown : slots'[index x]? = some value)
    (hother : ∀ i, i < slots.size → i ≠ index x → slots'[i]? = slots[i]?) :
    Covers index names (vars.insert x value) slots' := by
  refine ⟨fun y v hy => ?_, fun y v hy => ?_⟩
  · rw [Table.get?_insert] at hy
    split at hy
    · next hyx => exact hyx ▸ hx
    · exact h.names y v hy
  · rw [Table.get?_insert] at hy
    split at hy
    · next hyx =>
      cases hy
      rw [hyx]
      exact hown
    · next hyx =>
      have hslot := h.slots y v hy
      obtain ⟨hlt, -⟩ := Array.getElem?_eq_some_iff.1 hslot
      have hne : index y ≠ index x := fun heq => hyx (hindex (h.names y v hy) hx heq)
      rw [hother _ hlt hne, hslot]

/-- Defining a variable fills up the slots before its own. -/
theorem define (h : Covers index names vars slots) (hindex : Set.InjOn index names) (hx : x ∈ names)
    (value : Value) :
    Covers index names (vars.insert x value)
      ((Indexed.padTo slots (index x)).setIfInBounds (index x) value) := by
  refine h.insert hindex hx ?_ fun i hi hne => ?_
  · rw [Array.getElem?_setIfInBounds_self, if_pos (Indexed.lt_size_padTo slots _)]
  · rw [Array.getElem?_setIfInBounds_ne (Ne.symm hne), Indexed.getElem?_padTo _ hi]

theorem write (h : Covers index names vars slots) (hindex : Set.InjOn index names)
    (hx : (vars.get? x).isSome = true) (value : Value) :
    Covers index names (vars.insert x value) (slots.setIfInBounds (index x) value) := by
  obtain ⟨old, hold⟩ := Option.isSome_iff_exists.1 hx
  obtain ⟨hlt, -⟩ := Array.getElem?_eq_some_iff.1 (h.slots x old hold)
  refine h.insert hindex (h.names x old hold) ?_ fun i _ hne => ?_
  · rw [Array.getElem?_setIfInBounds_self, if_pos hlt]
  · rw [Array.getElem?_setIfInBounds_ne (Ne.symm hne)]

end Covers

/-- After some operations, a store by name and a store by position have the same environments, the
variables of every frame are in its slots, and every variable that was defined is there. -/
structure Simulates (index : String → Nat) (names : Set String) (before : List Operation)
    (s t : Store) : Prop where
  envs : s.envs = lineages before
  envs' : t.envs = lineages before
  size : s.frames.size = (lineages before).size
  size' : t.frames.size = (lineages before).size
  lineage : ∀ (number : Nat) (env : Env), (lineages before)[number]? = some env →
    env[0]? = some number ∧ ∀ id ∈ env, id < (lineages before).size
  frames : ∀ id < (lineages before).size, ∃ vars slots globals,
    s.frames[id]? = some (.named vars) ∧ t.frames[id]? = some (.indexed slots globals) ∧
      Covers index names vars slots
  defined : ∀ id x v, Operation.define id x v ∈ before → (s.frames.held? id x).isSome = true

theorem lineages_append (before : List Operation) (operation : Operation) :
    lineages (before ++ [operation]) = operation.grow (lineages before) := by
  simp [lineages, List.foldl_append]

namespace Simulates

variable {index : String → Nat} {names : Set String} {before : List Operation} {s t : Store}

variable {number distance : Nat} {env : Env} {operation : Operation} {x : String}

theorem empty (index : String → Nat) (names : Set String) :
    Simulates index names [] Store.empty Store.empty where
  envs := rfl
  envs' := rfl
  size := rfl
  size' := rfl
  lineage number env h := by simp [lineages] at h
  frames id h := by simp [lineages] at h
  defined id x v h := by simp at h

theorem step_request (h : Simulates index names before s t)
    (henv : (lineages before)[number]? = some env) (call : Call) :
    s.step .plain (.call number call) = s.perform .plain env call := by
  simp only [step, h.envs, henv]

theorem inside_eq (h : Simulates index names before s t) (henv : (lineages before)[number]? = some env)
    (act : Env → Answer × Store) :
    t.inside number act = act env := by
  simp only [inside, h.envs', henv]

/-- The frame at a distance is there, by name and by position. -/
theorem frame_at (h : Simulates index names before s t) {owner : Nat}
    (henv : (lineages before)[number]? = some env) (howner : env[distance]? = some owner) :
    ∃ vars slots globals, s.frames[owner]? = some (.named vars) ∧
      t.frames[owner]? = some (.indexed slots globals) ∧ Covers index names vars slots :=
  h.frames owner ((h.lineage number env henv).2 owner (List.mem_of_getElem? howner))

theorem add (h : Simulates index names before s t) {outer : Env}
    (hgrow : operation.grow (lineages before) =
      (lineages before).push ((lineages before).size :: outer))
    (houter : ∀ id ∈ outer, id < (lineages before).size)
    (hdefine : ∀ id x v, operation ≠ .define id x v) :
    (s.add outer).1 = (t.addSlots outer).1 ∧ (s.add outer).1.isGiven = true ∧
      Simulates index names (before ++ [operation]) (s.add outer).2 (t.addSlots outer).2 := by
  have hsize : s.frames.size = t.frames.size := h.size.trans h.size'.symm
  refine ⟨congrArg Answer.opened hsize, rfl, ?_⟩
  have hlines : lineages (before ++ [operation]) =
      (lineages before).push ((lineages before).size :: outer) :=
    (lineages_append before operation).trans hgrow
  have hcount : (lineages (before ++ [operation])).size = (lineages before).size + 1 := by
    rw [hlines, Array.size_push]
  refine ⟨?_, ?_, ?_, ?_, fun number env henv => ?_, fun id hid => ?_, fun id x v hx => ?_⟩
  · have henvs : (s.add outer).2.envs = s.envs.push (s.frames.size :: outer) := rfl
    rw [henvs, hlines, h.envs, h.size]
  · have henvs : (t.addSlots outer).2.envs = t.envs.push (t.frames.size :: outer) := rfl
    rw [henvs, hlines, h.envs', h.size']
  · rw [hcount, ← h.size]
    exact Array.size_push ..
  · rw [hcount, ← h.size']
    exact Array.size_push ..
  · rw [hcount]
    rw [hlines, Array.getElem?_push] at henv
    split at henv
    · next hnew =>
      cases henv
      refine ⟨congrArg some hnew.symm, fun id hid => ?_⟩
      rcases List.mem_cons.1 hid with rfl | hid
      · exact Nat.lt_succ_self _
      · exact Nat.lt_succ_of_lt (houter id hid)
    · obtain ⟨hown, hall⟩ := h.lineage number env henv
      exact ⟨hown, fun id hid => Nat.lt_succ_of_lt (hall id hid)⟩
  · have hnamed : ∀ i, (s.add outer).2.frames[i]? =
        if i = s.frames.size then some (.named .empty) else s.frames[i]? :=
      fun i => Array.getElem?_push
    have hslots : ∀ i, (t.addSlots outer).2.frames[i]? =
        if i = t.frames.size then some Indexed.emptyFrame else t.frames[i]? :=
      fun i => Array.getElem?_push
    rw [hnamed, hslots, h.size, h.size']
    by_cases hnew : id = (lineages before).size
    · rw [if_pos hnew, if_pos hnew]
      exact ⟨_, _, _, rfl, rfl, ⟨fun x v hx => by simp at hx, fun x v hx => by simp at hx⟩⟩
    · rw [if_neg hnew, if_neg hnew]
      exact h.frames id (by omega)
  · have hbefore : Operation.define id x v ∈ before := by
      rcases List.mem_append.1 hx with hx | hx
      · exact hx
      · exact absurd (List.mem_singleton.1 hx).symm (hdefine id x v)
    have hheld := h.defined id x v hbefore
    obtain ⟨w, hw⟩ := Option.isSome_iff_exists.1 hheld
    obtain ⟨vars, hvars⟩ := exists_named_of_held? hw
    obtain ⟨hlt, -⟩ := Array.getElem?_eq_some_iff.1 hvars
    change (Frames.held? (s.frames.push (.named .empty)) id x).isSome = true
    rw [held?_push, if_neg hlt.ne]
    exact hheld

/-- A variable of a frame gets a value in both stores. -/
theorem rewrite (h : Simulates index names before s t) {owner : FrameId} {value : Value}
    {vars : Table Value} {slots : Array Value} {globals : Table Value}
    (hvars : s.frames[owner]? = some (.named vars))
    (hslots : t.frames[owner]? = some (.indexed slots globals))
    {f : Array Value → Table Value → Array Value × Table Value}
    (hcovers : Covers index names (vars.insert x value) (f slots globals).1)
    (hgrow : operation.grow (lineages before) = lineages before)
    (hdefine : ∀ id y v, operation = .define id y v → id = owner ∧ y = x) :
    Simulates index names (before ++ [operation]) { s with frames := s.frames.write owner x value }
      { t with frames := Indexed.update t.frames owner f } := by
  have hlines : lineages (before ++ [operation]) = lineages before :=
    (lineages_append before operation).trans hgrow
  refine ⟨?_, ?_, ?_, ?_, ?_, fun id hid => ?_, fun id y v hy => ?_⟩
  · rw [hlines]
    exact h.envs
  · rw [hlines]
    exact h.envs'
  · rw [hlines, ← h.size]
    exact size_write ..
  · rw [hlines, ← h.size']
    exact Indexed.size_update ..
  · rw [hlines]
    exact h.lineage
  · rw [hlines] at hid
    rw [getElem?_write, Indexed.getElem?_update]
    by_cases ho : owner = id
    · subst ho
      rw [if_pos rfl, if_pos rfl, hvars, hslots]
      exact ⟨_, _, _, rfl, rfl, hcovers⟩
    · rw [if_neg ho, if_neg ho]
      exact h.frames id hid
  · rw [held?_write hvars]
    split
    · rfl
    · next hother =>
      rcases List.mem_append.1 hy with hy | hy
      · exact h.defined id y v hy
      · exact absurd (hdefine id y v (List.mem_singleton.1 hy).symm) hother

theorem look (h : Simulates index names before s t) :
    Simulates index names (before ++ [.read number distance x]) s t := by
  have hlines : lineages (before ++ [.read number distance x]) = lineages before :=
    lineages_append before _
  refine ⟨hlines ▸ h.envs, hlines ▸ h.envs', hlines ▸ h.size, hlines ▸ h.size',
    hlines ▸ h.lineage, hlines ▸ h.frames, fun id y v hy => ?_⟩
  rcases List.mem_append.1 hy with hy | hy
  · exact h.defined id y v hy
  · cases List.mem_singleton.1 hy

/-- What a variable that was defined holds, by name and by position. -/
theorem defined_at (h : Simulates index names before s t) {owner : Nat} {v : Value}
    (henv : (lineages before)[number]? = some env)
    (howner : env[distance]? = some owner) (hdefined : Operation.define owner x v ∈ before) :
    ∃ vars slots globals value, s.frames[owner]? = some (.named vars) ∧
      t.frames[owner]? = some (.indexed slots globals) ∧ Covers index names vars slots ∧
      vars.get? x = some value := by
  obtain ⟨vars, slots, globals, hvars, hslots, hcovers⟩ := h.frame_at henv howner
  have hheld := h.defined owner x v hdefined
  rw [held?_of_named hvars] at hheld
  obtain ⟨value, hvalue⟩ := Option.isSome_iff_exists.1 hheld
  exact ⟨vars, slots, globals, value, hvars, hslots, hcovers, hvalue⟩

/-- An operation that is ready gets the same answer from both stores. -/
theorem step (h : Simulates index names before s t) (hindex : Set.InjOn index names)
    (hready : operation.isReady before = true)
    (hname : ∀ x ∈ operation.name?, x ∈ names) :
    (s.byName operation).1 = (t.bySlot index operation).1 ∧
      (s.byName operation).1.isGiven = true ∧
      Simulates index names (before ++ [operation]) (s.byName operation).2
        (t.bySlot index operation).2 := by
  cases operation with
  | new parent? =>
    cases parent? with
    | none => exact h.add rfl (by simp) nofun
    | some parent =>
      have hparent : parent < (lineages before).size := of_decide_eq_true hready
      have henv : (lineages before)[parent]? = some (lineages before)[parent] :=
        Array.getElem?_eq_getElem hparent
      have hname : s.byName (.new (some parent)) = s.add (lineages before)[parent] := by
        simp only [byName, Operation.request, Store.step, h.envs, henv]
      rw [hname, bySlot, h.inside_eq henv]
      refine h.add ?_ (h.lineage parent _ henv).2 nofun
      simp [Operation.grow, henv]
  | define number x value =>
    have hnumber : number < (lineages before).size := of_decide_eq_true hready
    have henv : (lineages before)[number]? = some (lineages before)[number] :=
      Array.getElem?_eq_getElem hnumber
    have howner := (h.lineage number _ henv).1
    obtain ⟨vars, slots, globals, hvars, hslots, hcovers⟩ := h.frame_at henv howner
    have hdefine : s.frames.define (lineages before)[number] x value =
        .ok (s.frames.write number x value) := by
      unfold Frames.define declaring
      rw [namedAt_eq_ok.2 ⟨howner, vars, hvars⟩]
      rfl
    have hbyName : s.byName (.define number x value) =
        (.done, { s with frames := s.frames.write number x value }) := by
      rw [byName, Operation.request, h.step_request henv]
      simp only [perform, Access.plain, hdefine]
      rfl
    rw [hbyName, bySlot, h.inside_eq henv, Indexed.defineAt_eq howner hslots]
    refine ⟨rfl, rfl, h.rewrite hvars hslots ?_ rfl fun id y v heq => ?_⟩
    · exact hcovers.define hindex (hname x rfl) value
    · cases heq
      exact ⟨rfl, rfl⟩
  | read number distance x =>
    obtain ⟨env, owner, v, henv, howner, hdefined⟩ := exists_defined hready
    obtain ⟨vars, slots, globals, value, hvars, hslots, hcovers, hvalue⟩ :=
      h.defined_at henv howner hdefined
    have hheld : s.frames.held? owner x = some value := (held?_of_named hvars x).trans hvalue
    have hbyName : s.byName (.read number distance x) = (.value value, s) := by
      rw [byName, Operation.request, h.step_request henv]
      simp only [perform, Access.plain, Int.toNat_natCast, getAt_of_held? howner hheld]
      rfl
    rw [hbyName, bySlot, h.inside_eq henv,
      Indexed.getAt_eq howner hslots (hcovers.slots x value hvalue)]
    exact ⟨rfl, rfl, h.look⟩
  | write number distance x value =>
    obtain ⟨env, owner, v, henv, howner, hdefined⟩ := exists_defined hready
    obtain ⟨vars, slots, globals, old, hvars, hslots, hcovers, hold⟩ :=
      h.defined_at henv howner hdefined
    have hassign : s.frames.assignAt env distance x.lexeme value =
        .ok (s.frames.write owner x.lexeme value) := by
      unfold Frames.assignAt
      rw [namedAt_eq_ok.2 ⟨howner, vars, hvars⟩]
      rfl
    have hbyName : s.byName (.write number distance x value) =
        (.done, { s with frames := s.frames.write owner x.lexeme value }) := by
      rw [byName, Operation.request, h.step_request henv]
      simp only [perform, Access.plain, Int.toNat_natCast, hassign]
      rfl
    obtain ⟨hlt, -⟩ := Array.getElem?_eq_some_iff.1 (hcovers.slots x.lexeme old hold)
    rw [hbyName, bySlot, h.inside_eq henv, Indexed.assignAt_eq howner hslots hlt]
    refine ⟨rfl, rfl, h.rewrite hvars hslots ?_ rfl nofun⟩
    exact hcovers.write hindex (by rw [hold]; rfl) value

theorem answers_eq (h : Simulates index names before s t) (hindex : Set.InjOn index names)
    {operations : List Operation} (horderly : isOrderly before operations = true)
    (hnames : ∀ operation ∈ operations, ∀ x ∈ operation.name?, x ∈ names) :
    answers byName s operations = answers (bySlot index) t operations ∧
      ∀ answer ∈ answers byName s operations, answer.isGiven = true := by
  induction operations generalizing before s t with
  | nil => exact ⟨rfl, by simp [answers]⟩
  | cons operation operations ih =>
    obtain ⟨hready, hrest⟩ := Bool.and_eq_true_iff.1 horderly
    obtain ⟨hanswer, hgiven, hnext⟩ := h.step hindex hready (hnames operation (by simp))
    obtain ⟨heq, hall⟩ := ih hnext hrest fun next hmem => hnames next (by simp [hmem])
    refine ⟨?_, fun answer hmem => ?_⟩
    · rw [answers, answers, hanswer, heq]
    · rcases List.mem_cons.1 hmem with rfl | hmem
      · exact hgiven
      · exact hall answer hmem

end Simulates

/-- Orderly operations are carried out on environments by name and on environments by position that lie
inside each other in the same way. Whatever positions the names have, as long as no two names share one,
all operations are carried out in both, and everything that is read is the same. -/
theorem slots_simulate {operations : List Operation} {index : String → Nat}
    (hindex : Set.InjOn index {x | ∃ operation ∈ operations, x ∈ operation.name?})
    (horderly : isOrderly [] operations = true) :
    answers byName empty operations = answers (bySlot index) empty operations ∧
      ∀ answer ∈ answers byName empty operations, answer.isGiven = true :=
  (Simulates.empty index _).answers_eq hindex horderly fun operation hmem _ hx => ⟨operation, hmem, hx⟩

/-- Two variables of one frame, the one with the larger position defined first, and a frame inside that
one which defines a variable of the same name. -/
def gaps : List Operation :=
  [.new none, .define 0 "b" (.bool true), .define 0 "a" .nil, .new (some 0),
    .define 1 "a" (.text "own"), .write 1 1 (.ident "b" 1) (.bool false), .read 1 0 "a", .read 1 1 "a",
    .read 1 1 "b"]

theorem slots_simulate_gaps :
    answers byName empty gaps = answers (bySlot fun x => if x = "a" then 1 else 4) empty gaps ∧
      (∀ answer ∈ answers byName empty gaps, answer.isGiven = true) ∧
      (answers byName empty gaps).drop 6 = [.value (.text "own"), .value .nil, .value (.bool false)] := by
  have hnames : {x | ∃ operation ∈ gaps, x ∈ operation.name?} ⊆ {"a", "b"} := by
    rintro x ⟨operation, hmem, hx⟩
    simp only [gaps, List.mem_cons, List.not_mem_nil, or_false] at hmem
    rcases hmem with rfl | rfl | rfl | rfl | rfl | rfl | rfl | rfl | rfl <;>
      simp_all [Operation.name?, Token.ident]
  have hindex : Set.InjOn (fun x => if x = "a" then 1 else 4) ({"a", "b"} : Set String) := by
    rintro x (rfl | rfl) y (rfl | rfl) hxy <;> simp_all
  obtain ⟨heq, hall⟩ := slots_simulate (hindex.mono hnames) rfl
  exact ⟨heq, hall, rfl⟩

end Store

end Lox
