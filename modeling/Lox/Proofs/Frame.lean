import Lox.Frame
import Lox.Proofs.Table

/-!
# Laws of frames
-/

namespace Lox.Frames

variable {id : FrameId} {name operation : String} {v : Value} {vars : Table Value} {env : Env}
  {distance : Nat}

/-- All frames hold variables by name, and all their values have a property. -/
def AllNamed (p : Value → Prop) (frames : Frames) : Prop :=
  ∀ (id : FrameId) (frame : Frame), frames[id]? = some frame →
    ∃ vars, frame = .named vars ∧ vars.All p

variable {frames : Frames} {p : Value → Prop}

theorem AllNamed.mono {q : Value → Prop} (h : frames.AllNamed p) (hpq : ∀ v, p v → q v) :
    frames.AllNamed q := by
  intro id frame hf
  obtain ⟨vars, rfl, hv⟩ := h id frame hf
  exact ⟨vars, rfl, hv.mono hpq⟩

theorem AllNamed.exists_named (h : frames.AllNamed p) (hid : id < frames.size) :
    ∃ vars, frames[id]? = some (.named vars) ∧ vars.All p := by
  have hf : frames[id]? = some frames[id] := Array.getElem?_eq_getElem hid
  obtain ⟨vars, hvars, hall⟩ := h id _ hf
  exact ⟨vars, by rw [hf, hvars], hall⟩

theorem AllNamed.held (h : frames.AllNamed p) (hv : frames.held? id name = some v) : p v := by
  unfold held? at hv
  split at hv
  · next vars hf =>
    obtain ⟨_, ⟨⟩, hall⟩ := h id _ hf
    exact hall name v hv
  · cases hv

theorem held?_of_named (hid : frames[id]? = some (.named vars)) (name : String) :
    frames.held? id name = vars.get? name := by
  rw [held?, hid]

theorem exists_named_of_held? (h : frames.held? id name = some v) :
    ∃ vars, frames[id]? = some (.named vars) := by
  unfold held? at h
  split at h
  · next vars hf => exact ⟨vars, hf⟩
  · cases h

/-! ### Opening a frame -/

@[simp] theorem held?_push (vars : Table Value) (id : FrameId) (name : String) :
    Frames.held? (frames.push (.named vars)) id name =
      if id = frames.size then vars.get? name else frames.held? id name := by
  unfold held?
  rw [Array.getElem?_push]
  by_cases h : id = frames.size
  · rw [if_pos h, if_pos h]
  · rw [if_neg h, if_neg h]

theorem held?_push_of_held? {x : String} (h : frames.held? id x = some v) (vars : Table Value) :
    Frames.held? (frames.push (.named vars)) id x = some v := by
  obtain ⟨old, hid⟩ := exists_named_of_held? h
  obtain ⟨hlt, -⟩ := Array.getElem?_eq_some_iff.1 hid
  rw [held?_push, if_neg (Nat.ne_of_lt hlt), h]

theorem AllNamed.push (h : frames.AllNamed p) (hv : vars.All p) :
    Frames.AllNamed p (frames.push (.named vars)) := by
  intro id frame hf
  rw [Array.getElem?_push] at hf
  split at hf
  · cases hf
    exact ⟨vars, rfl, hv⟩
  · exact h id frame hf

/-! ### Giving a variable a value -/

@[simp] theorem size_write (id : FrameId) (name : String) (v : Value) :
    (frames.write id name v).size = frames.size := by
  simp [write]

theorem getElem?_write (id i : FrameId) (name : String) (v : Value) :
    (frames.write id name v)[i]? = if id = i then frames[i]?.map fun
      | .named vars => .named (vars.insert name v)
      | frame => frame
    else frames[i]? := by
  unfold write
  exact Array.getElem?_modify

theorem held?_write (hid : frames[id]? = some (.named vars)) (name : String) (v : Value) (i : FrameId)
    (x : String) :
    (frames.write id name v).held? i x =
      if i = id ∧ x = name then some v else frames.held? i x := by
  unfold held?
  rw [getElem?_write]
  by_cases hi : id = i
  · subst hi
    rw [if_pos rfl, hid]
    simp
  · have hne : ¬(i = id ∧ x = name) := fun h => hi h.1.symm
    rw [if_neg hi, if_neg hne]

theorem held?_write_of_ne {x : String} (h : x ≠ name) (id i : FrameId) (v : Value) :
    (frames.write id name v).held? i x = frames.held? i x := by
  unfold held?
  rw [getElem?_write]
  by_cases hi : id = i
  · rw [if_pos hi]
    cases hf : frames[i]? with
    | none => rfl
    | some frame =>
      cases frame with
      | named vars => exact (vars.get?_insert name x v).trans (if_neg h)
      | indexed slots globals => rfl
  · rw [if_neg hi]

theorem AllNamed.write (h : frames.AllNamed p) (id : FrameId) (name : String) (hv : p v) :
    (frames.write id name v).AllNamed p := by
  intro i frame hf
  rw [getElem?_write] at hf
  split at hf
  · obtain ⟨frame', hf', rfl⟩ := Option.map_eq_some_iff.1 hf
    obtain ⟨vars, rfl, hall⟩ := h i frame' hf'
    exact ⟨vars.insert name v, rfl, hall.insert name hv⟩
  · exact h i frame hf

/-! ### Searching for a frame -/

theorem namedAt_eq_ok :
    frames.namedAt env distance operation = .ok id ↔
      env[distance]? = some id ∧ ∃ vars, frames[id]? = some (.named vars) := by
  unfold namedAt frameAt ancestor
  by_cases hd : distance ≤ env.length
  · rw [if_pos hd, ← List.head?_drop]
    cases hdrop : env.drop distance with
    | nil => simp [lacks, bind, Except.bind]
    | cons i outer =>
      cases hf : frames[i]? with
      | none =>
        simp only [lacks, bind, Except.bind, hf, List.head?_cons, Option.some.injEq]
        refine ⟨nofun, ?_⟩
        rintro ⟨rfl, vars, hvars⟩
        rw [hf] at hvars
        cases hvars
      | some frame =>
        simp only [bind, Except.bind, hf, List.head?_cons, Option.some.injEq]
        cases frame with
        | named vars =>
          simp only [Except.ok.injEq]
          refine ⟨?_, fun h => h.1⟩
          rintro rfl
          exact ⟨rfl, vars, hf⟩
        | indexed slots globals =>
          refine ⟨nofun, ?_⟩
          rintro ⟨rfl, vars, hvars⟩
          rw [hf] at hvars
          cases hvars
  · rw [if_neg hd]
    have hnone : env[distance]? = none := List.getElem?_eq_none (by omega)
    simp [lacks, bind, Except.bind, hnone]

theorem getAt_eq (he : env[distance]? = some id) (hid : frames[id]? = some (.named vars))
    (name : String) :
    frames.getAt env distance name = .ok ((frames.held? id name).getD .nil) := by
  have h : frames.namedAt env distance "get_at" = .ok id := namedAt_eq_ok.2 ⟨he, vars, hid⟩
  unfold getAt
  rw [h]
  rfl

/-- The value at a depth is what the frame found there holds. -/
theorem getAt_of_held? (he : env[distance]? = some id) (h : frames.held? id name = some v) :
    frames.getAt env distance name = .ok v := by
  obtain ⟨vars, hid⟩ := exists_named_of_held? h
  rw [getAt_eq he hid, h]
  rfl

theorem getAt_cons (frames : Frames) (id : FrameId) (env : Env) (distance : Nat) (name : String) :
    frames.getAt (id :: env) (distance + 1) name = frames.getAt env distance name := by
  have hancestor : ancestor (id :: env) (distance + 1) = ancestor env distance := by
    simp [ancestor]
  unfold getAt namedAt frameAt
  rw [hancestor]

theorem getAt_eq_ok (h : frames.getAt env distance name = .ok v) :
    ∃ id, v = (frames.held? id name).getD .nil := by
  unfold getAt at h
  cases hn : frames.namedAt env distance "get_at" with
  | error d =>
    rw [hn] at h
    cases h
  | ok id =>
    rw [hn] at h
    cases h
    exact ⟨id, rfl⟩

theorem holder_eq_ok (h : frames.holder operation name env = .ok id) :
    id ∈ env ∧ ∃ vars, frames[id]? = some (.named vars) ∧ vars.contains name = true := by
  induction env with
  | nil => cases h
  | cons i outer ih =>
    unfold holder at h
    cases hf : frames[i]? with
    | none =>
      rw [hf] at h
      cases h
    | some frame =>
      rw [hf] at h
      cases frame with
      | indexed slots globals => cases h
      | named vars =>
        dsimp only at h
        split at h
        · next hc =>
          cases h
          exact ⟨by simp, vars, hf, hc⟩
        · obtain ⟨hmem, hvars⟩ := ih h
          exact ⟨by simp [hmem], hvars⟩

theorem holder_singleton (hid : frames[id]? = some (.named vars)) :
    frames.holder operation name [id] =
      if vars.contains name then .ok id else .error (.fault (.undefinedVariable name)) := by
  simp only [holder, hid]

theorem get_singleton (hid : frames[id]? = some (.named vars)) :
    frames.get [id] name =
      match vars.get? name with
      | none => .error (.fault (.undefinedVariable name))
      | some .nil => .error (.fault (.uninitializedVariable name))
      | some v => .ok v := by
  unfold get
  rw [holder_singleton hid, Table.contains]
  cases hv : vars.get? name with
  | none => rfl
  | some v =>
    have hh : frames.held? id name = some v := (held?_of_named hid name).trans hv
    simp only [Option.isSome_some, if_true, bind, Except.bind, hh]
    cases v <;> rfl

theorem get_eq_ok (h : frames.get env name = .ok v) : ∃ id, v = (frames.held? id name).getD .nil := by
  unfold get at h
  cases hh : frames.holder "get" name env with
  | error d =>
    rw [hh] at h
    cases h
  | ok id =>
    rw [hh] at h
    refine ⟨id, ?_⟩
    simp only [bind, Except.bind] at h
    cases hv : (frames.held? id name).getD .nil <;> rw [hv] at h <;> cases h <;> rfl

end Lox.Frames
