import Lox.Proofs.Machine.Fulfilment
import Lox.Proofs.Scope.Forms

/-!
# What frames hold under `this`

A frame holds a receiver under `this`, or `nil` if the function that it was opened for has none. That
stays so while no variable and no parameter is called `this`.
-/

namespace Lox

open Eval Outcome

variable {f : Closure} {m : Machine} {vars : Table Value} {args : List Value} {this : Value}
  {frame : FrameId}

theorem Node.mem_bound_of_given {node : Node} {name : Token} (h : node.given? = some name) :
    name ∈ node.bound := by
  unfold given? at h
  split at h <;> cases h <;> simp [bound]

/-- The values that a frame may hold under `this`: an instance, or `nil` for none. -/
def Value.IsReceiver (v : Value) : Prop := v = .nil ∨ ∃ o, v = .object o

def Frames.Receives (frames : Frames) : Prop :=
  ∀ (id : FrameId) (v : Value), frames.held? id "this" = some v → v.IsReceiver

namespace Frames.Receives

variable {frames : Frames}

theorem getD (h : frames.Receives) (id : FrameId) :
    ((frames.held? id "this").getD .nil).IsReceiver := by
  cases hv : frames.held? id "this" with
  | none => exact .inl rfl
  | some v => exact h id v hv

theorem getAt (h : frames.Receives) {env : Env} {distance : Nat} {v : Value}
    (hv : frames.getAt env distance "this" = .ok v) : v.IsReceiver := by
  obtain ⟨id, rfl⟩ := Frames.getAt_eq_ok hv
  exact h.getD id

theorem push (h : frames.Receives) {vars : Table Value}
    (hv : ∀ v, vars.get? "this" = some v → v.IsReceiver) :
    Frames.Receives (frames.push (.named vars)) := by
  intro id v hid
  rw [held?_push] at hid
  split at hid
  · exact hv v hid
  · exact h id v hid

theorem write (h : frames.Receives) {name : String} (hn : name ≠ "this") (id : FrameId) (v : Value) :
    (frames.write id name v).Receives := by
  intro i u hu
  rw [held?_write_of_ne hn.symm] at hu
  exact h i u hu

end Frames.Receives

theorem Machine.receives_start (traced : Bool) (clock : Clock) :
    (Machine.start traced clock).frames.Receives := by
  intro id v hv
  unfold Frames.held? at hv
  match id with
  | 0 => cases hv
  | id + 1 => cases hv

/-! ### The receiver of a function -/

theorem Eval.receiver_of_getAt {v : Value} (h : m.frames.getAt f.env 0 "this" = .ok v) :
    receiver f m = .ok v m := by
  unfold receiver
  rw [bind_of_ok (get_eq_ok.2 ⟨rfl, rfl⟩), h]
  rfl

theorem Eval.receiver_eq_ok {m' : Machine} {v : Value} (h : receiver f m = .ok v m') :
    m.frames.getAt f.env 0 "this" = .ok v ∨ v = .nil := by
  unfold receiver at h
  rw [bind_of_ok (get_eq_ok.2 ⟨rfl, rfl⟩)] at h
  cases hget : m.frames.getAt f.env 0 "this" with
  | ok u =>
    rw [hget] at h
    cases h
    exact .inl rfl
  | error d =>
    rw [hget] at h
    cases d with
    | fault f =>
      cases h
      exact .inr rfl
    | defect d => cases h

/-! ### The variables of a call -/

/-- Parameters leave what has another name alone. -/
theorem get?_bindParams {vars' : Table Value} {params : List Token} {x : String}
    (h : bindParams vars params args = .ok vars')
    (hp : ∀ param ∈ params, param.lexeme ≠ x) : vars'.get? x = vars.get? x := by
  induction params generalizing vars args with
  | nil =>
    cases h
    rfl
  | cons param params ih =>
    cases args with
    | nil => cases h
    | cons a args =>
      have hne : param.lexeme ≠ x := hp param (by simp)
      rw [ih h fun q hq => hp q (by simp [hq]), Table.get?_insert, if_neg hne.symm]

theorem callVars_cases (h : callVars f this frame args = .ok vars) :
    ∃ start, receiverVars f this frame = .ok start ∧
      (f.isGetter = true ∧ vars = start ∨
        f.isGetter = false ∧ bindParams start f.params args = .ok vars) := by
  unfold callVars at h
  cases hr : receiverVars f this frame with
  | error d =>
    rw [hr] at h
    cases h
  | ok start =>
    rw [hr] at h
    change (if f.isGetter = true then _ else _) = _ at h
    cases hg : f.isGetter with
    | true =>
      rw [hg] at h
      cases h
      exact ⟨_, rfl, .inl ⟨rfl, rfl⟩⟩
    | false =>
      rw [hg] at h
      exact ⟨_, rfl, .inr ⟨rfl, h⟩⟩

theorem receiverVars_cases {start : Table Value} (h : receiverVars f this frame = .ok start) :
    start = Table.empty.insert "this" this ∨
      start = (Table.empty.insert "this" this).insert "inner" (.native (.inner frame)) := by
  unfold receiverVars at h
  dsimp only at h
  split at h
  · split at h
    · cases h
      exact .inr rfl
    · cases h
  · cases h
    exact .inl rfl

/-- What is no parameter is a variable of the receiver. -/
theorem get?_callVars_of_ne {x : String} (h : callVars f this frame args = .ok vars)
    (hp : ∀ param ∈ f.params, param.lexeme ≠ x) :
    ∃ start, receiverVars f this frame = .ok start ∧ vars.get? x = start.get? x := by
  obtain ⟨start, hstart, ⟨-, rfl⟩ | ⟨-, hbind⟩⟩ := callVars_cases h
  · exact ⟨_, hstart, rfl⟩
  · exact ⟨start, hstart, get?_bindParams hbind hp⟩

/-- A body starts with the receiver under `this`. -/
theorem get?_callVars (h : callVars f this frame args = .ok vars)
    (hp : ∀ param ∈ f.params, param.lexeme ≠ "this") : vars.get? "this" = some this := by
  obtain ⟨start, hstart, hvars⟩ := get?_callVars_of_ne h hp
  rw [hvars]
  obtain rfl | rfl := receiverVars_cases hstart <;> simp

theorem Covenant.Opens.receives {C : Covenant} (h : C.Opens m vars)
    (hp : ∀ f, C.callable m.frames f → ∀ param ∈ f.params, param.lexeme ≠ "this")
    (hm : m.frames.Receives) : Frames.Receives (m.frames.push (.named vars)) := by
  refine hm.push fun v hv => ?_
  cases h with
  | block => cases hv
  | parent c => cases hv
  | receiver o =>
    cases hv
    exact .inr ⟨o, rfl⟩
  | inherited hget =>
    cases hv
    exact hm.getAt hget
  | call hf hs =>
    -- the frame of a call holds what the frame of the receiver does
    obtain ⟨this, hthis, hvars⟩ := hs
    rw [get?_callVars hvars (hp _ hf)] at hv
    cases hv
    rcases receiver_eq_ok hthis with hget | rfl
    · exact hm.getAt hget
    · exact .inl rfl

end Lox
