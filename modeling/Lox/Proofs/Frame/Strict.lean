import Lox.Frame.Store
import Lox.Proofs.Frame

/-!
# Plain and strict access

The two ways to access variables by name have the same effect on every store, and they answer every
request alike but one: a variable that is empty is read at a known depth.
-/

namespace Lox

namespace Frames.Strict

/-! ### Operations at a depth -/

theorem ancestor_zero (env : Env) : ancestor env 0 = .ok env := by
  cases env <;> rfl

theorem ancestor_eq (env : Env) (distance : Nat) :
    ancestor env distance = Frames.ancestor env distance := by
  induction distance generalizing env with
  | zero =>
    rw [ancestor_zero]
    rfl
  | succ distance ih =>
    cases env with
    | nil => rfl
    | cons id outer =>
      rw [ancestor, ih]
      simp [Frames.ancestor]

/-- Both searches for the frame at a depth find it with its variables, or both fail for the same
defect. -/
theorem vars_cases (frames : Frames) (env : Env) (distance : Nat) (operation : String) :
    (∃ id vars, env[distance]? = some id ∧ frames[id]? = some (.named vars) ∧
      (ancestor env distance >>= Strict.vars frames operation) = .ok (id, vars) ∧
      frames.namedAt env distance operation = .ok id) ∨
    ∃ d, (ancestor env distance >>= Strict.vars frames operation) = .error (.defect d) ∧
      frames.namedAt env distance operation = .error (.defect d) := by
  rw [ancestor_eq]
  unfold namedAt frameAt Frames.ancestor
  by_cases hd : distance ≤ env.length
  · rw [if_pos hd, ← List.head?_drop]
    cases hdrop : env.drop distance with
    | nil => exact .inr ⟨_, rfl, rfl⟩
    | cons id outer =>
      simp only [bind, Except.bind, Strict.vars]
      cases hf : frames[id]? with
      | none => exact .inr ⟨_, rfl, rfl⟩
      | some frame =>
        cases frame with
        | named vars => exact .inl ⟨id, vars, rfl, hf, rfl, rfl⟩
        | indexed slots globals => exact .inr ⟨_, rfl, rfl⟩
  · rw [if_neg hd]
    exact .inr ⟨_, rfl, rfl⟩

/-- Replacing the variables of a frame by ones with a new value is giving the variable the value. -/
theorem setVars_insert {frames : Frames} {id : FrameId} {vars : Table Value}
    (hid : frames[id]? = some (.named vars)) (name : String) (value : Value) :
    setVars frames id (vars.insert name value) = frames.write id name value := by
  apply Array.ext_getElem?
  intro i
  rw [getElem?_write, setVars, Array.getElem?_setIfInBounds]
  by_cases hi : id = i
  · subst hi
    obtain ⟨hlt, -⟩ := Array.getElem?_eq_some_iff.1 hid
    rw [if_pos rfl, if_pos rfl, if_pos hlt, hid]
    rfl
  · rw [if_neg hi, if_neg hi]

/-- Both ways to give a variable of the frame at a depth a value. -/
theorem bind_setVars (frames : Frames) (env : Env) (distance : Nat) (operation name : String)
    (value : Value) :
    (do
      let (id, vars) ← ancestor env distance >>= Strict.vars frames operation
      return setVars frames id (vars.insert name value) : Except Denial Frames) =
    do
      let id ← frames.namedAt env distance operation
      return frames.write id name value := by
  rcases vars_cases frames env distance operation with ⟨id, vars, -, hid, hs, hp⟩ | ⟨d, hs, hp⟩
  · rw [hs, hp]
    exact congrArg Except.ok (setVars_insert hid name value)
  · rw [hs, hp]
    rfl

theorem assignAt_eq (frames : Frames) (env : Env) (distance : Nat) (name : String) (value : Value) :
    assignAt frames env distance name value = frames.assignAt env distance name value := by
  rw [Frames.assignAt, ← bind_setVars]
  cases h : ancestor env distance <;> simp only [assignAt, h] <;> rfl

theorem define_eq (frames : Frames) (env : Env) (name : String) (value : Value) :
    define frames env name value = frames.define env name value := by
  rw [Frames.define, declaring, ← bind_setVars, ancestor_zero]
  rfl

theorem getAt_eq (frames : Frames) (env : Env) (distance : Nat) (name : String) :
    getAt frames env distance name = frames.getAt env distance name >>= checked name := by
  have hbind : getAt frames env distance name =
      (ancestor env distance >>= Strict.vars frames "get_at") >>=
        fun found => checked name ((found.2.get? name).getD .nil) := by
    cases h : ancestor env distance <;> simp only [getAt, h] <;> rfl
  rw [hbind, Frames.getAt]
  rcases vars_cases frames env distance "get_at" with ⟨id, vars, -, hid, hs, hp⟩ | ⟨d, hs, hp⟩
  · rw [hs, hp]
    exact congrArg (fun held => checked name (held.getD .nil)) (held?_of_named hid name).symm
  · rw [hs, hp]
    rfl

/-- A name, neither `this` nor `super`, that has no value in the frame at a depth or is `nil` there. -/
structure Empty (frames : Frames) (env : Env) (distance : Nat) (name : String) : Prop where
  ne_this : name ≠ "this"
  ne_super : name ≠ "super"
  empty : ∃ id vars, env[distance]? = some id ∧ frames[id]? = some (.named vars) ∧
    (vars.get? name = none ∨ vars.get? name = some .nil)

variable {frames : Frames} {env : Env} {distance : Nat} {name : String}

theorem getAt_of_empty (h : Empty frames env distance name) :
    frames.getAt env distance name = .ok .nil ∧
      getAt frames env distance name = .error (.fault (.uninitializedVariable name)) := by
  obtain ⟨hthis, hsuper, id, vars, he, hid, hvars⟩ := h
  have hplain : frames.getAt env distance name = .ok .nil := by
    rw [Frames.getAt_eq he hid, held?_of_named hid]
    rcases hvars with hvars | hvars <;> simp only [hvars] <;> rfl
  have hchecked : checked name .nil = .error (.fault (.uninitializedVariable name)) := by
    simp [checked, exempt, hthis, hsuper, Value.isNil]
  rw [getAt_eq, hplain]
  exact ⟨rfl, hchecked⟩

theorem empty_of_getAt (h : frames.getAt env distance name = .ok .nil) (he : exempt name = false) :
    Empty frames env distance name := by
  simp only [exempt, Bool.or_eq_false_iff, decide_eq_false_iff_not] at he
  cases hn : frames.namedAt env distance "get_at" with
  | error d =>
    rw [Frames.getAt, hn] at h
    cases h
  | ok id =>
    obtain ⟨hid, vars, hvars⟩ := namedAt_eq_ok.1 hn
    rw [Frames.getAt_eq hid hvars, held?_of_named hvars] at h
    refine ⟨he.2, he.1, id, vars, hid, hvars, ?_⟩
    cases hv : vars.get? name with
    | none => exact .inl rfl
    | some v =>
      simp only [hv, Option.getD_some, Except.ok.injEq] at h
      exact .inr (congrArg some h)

theorem getAt_of_not_empty (h : ¬Empty frames env distance name) :
    getAt frames env distance name = frames.getAt env distance name := by
  rw [getAt_eq]
  cases hplain : frames.getAt env distance name with
  | error d => rfl
  | ok v =>
    show checked name v = .ok v
    unfold checked
    split
    · next hnil =>
      obtain ⟨hv, hexempt⟩ : v.isNil = true ∧ exempt name = false := by simpa using hnil
      cases v <;> cases hv
      exact absurd (empty_of_getAt hplain hexempt) h
    · rfl

/-! ### Operations by name -/

theorem get_eq (frames : Frames) (name : String) (env : Env) :
    get frames name env = frames.get env name := by
  unfold Frames.get
  induction env with
  | nil => rfl
  | cons id outer ih =>
    unfold get holder
    cases hf : frames[id]? with
    | none => rfl
    | some frame =>
      cases frame with
      | indexed slots globals => rfl
      | named vars =>
        dsimp only
        cases hv : vars.get? name with
        | none =>
          rw [if_neg (by simp [Table.contains, hv])]
          exact ih
        | some v =>
          rw [if_pos (by simp [Table.contains, hv])]
          have hheld : frames.held? id name = some v := (held?_of_named hf name).trans hv
          simp only [bind, Except.bind, hheld]
          cases v <;> rfl

theorem assign_eq (frames : Frames) (name : String) (value : Value) (env : Env) :
    assign frames name value env = frames.assign env name value := by
  unfold Frames.assign
  induction env with
  | nil => rfl
  | cons id outer ih =>
    unfold assign holder
    cases hf : frames[id]? with
    | none => rfl
    | some frame =>
      cases frame with
      | indexed slots globals => rfl
      | named vars =>
        dsimp only
        split
        · exact congrArg Except.ok (setVars_insert hf name value)
        · exact ih

theorem getOuter_eq (frames : Frames) (name : String) (env : Env) :
    getOuter frames name env = frames.getOutside name env := by
  fun_induction getOutside frames name env with
  | case1 => rfl
  | case2 id => rfl
  | case3 id next outer value hheld => simp [getOuter, getByName, hheld]
  | case4 id next outer hheld ih =>
    simp only [getOuter, getByName, hheld]
    exact ih

end Frames.Strict

namespace Store

open Frames

def ReadsEmpty (s : Store) (name : String) (request : Request) : Prop :=
  ∃ number distance env, request = .call number (.getAt distance name) ∧
    s.envs[number]? = some env ∧ Strict.Empty s.frames env distance.toNat name

/-- The answers of plain and of strict access to a request. They are the same unless an empty name is
read; that reads as `nil` in the one and is a fault without a token in the other. -/
inductive Agree (s : Store) (request : Request) : Answer → Answer → Prop
  | same (answer : Answer) (h : ∀ name, ¬s.ReadsEmpty name request) : Agree s request answer answer
  | empty {name : String} (h : s.ReadsEmpty name request) :
      Agree s request (.value .nil) (.refused (.fault none (.uninitializedVariable name)))

/-- Strict access is plain access but for reading at a depth. -/
theorem strict_eq : Access.strict = { Access.plain with getAt := Access.strict.getAt } := by
  simp only [Access.strict, Access.plain, Strict.define_eq, Strict.get_eq, Strict.assign_eq,
    Strict.ancestor_eq, Strict.assignAt_eq, Strict.getOuter_eq]

variable {s : Store} {env : Env} {distance : Int} {name : String}

theorem perform_strict_of_ne {call : Call} (h : ∀ distance name, call ≠ .getAt distance name) :
    s.perform .strict env call = s.perform .plain env call := by
  rw [strict_eq]
  cases call with
  | getAt distance name => exact absurd rfl (h distance name)
  | _ => rfl

theorem perform_strict_of_not_empty (h : ¬Strict.Empty s.frames env distance.toNat name) :
    s.perform .strict env (.getAt distance name) = s.perform .plain env (.getAt distance name) := by
  simp only [perform, Access.strict, Access.plain, Strict.getAt_of_not_empty h]

theorem perform_of_empty (h : Strict.Empty s.frames env distance.toNat name) :
    s.perform .plain env (.getAt distance name) = (.value .nil, s) ∧
      s.perform .strict env (.getAt distance name) =
        (.refused (.fault none (.uninitializedVariable name)), s) := by
  obtain ⟨hplain, hstrict⟩ := Strict.getAt_of_empty h
  simp only [perform, Access.strict, Access.plain, hplain, hstrict]
  exact ⟨rfl, rfl⟩

theorem agree_of_eq {request : Request} (h : s.step .strict request = s.step .plain request)
    (hne : ∀ name, ¬s.ReadsEmpty name request) :
    (s.step .strict request).2 = (s.step .plain request).2 ∧
      Agree s request (s.step .plain request).1 (s.step .strict request).1 := by
  rw [h]
  exact ⟨rfl, .same _ hne⟩

theorem step_agree (s : Store) (request : Request) :
    (s.step .strict request).2 = (s.step .plain request).2 ∧
      Agree s request (s.step .plain request).1 (s.step .strict request).1 := by
  cases request with
  | new parent? =>
    refine agree_of_eq ?_ nofun
    cases parent? <;> rfl
  | call number call =>
    cases henv : s.envs[number]? with
    | none =>
      refine agree_of_eq (by simp only [step, henv]) ?_
      rintro name ⟨_, _, env, ⟨⟩, henv', -⟩
      simp [henv] at henv'
    | some env =>
      have hstep : ∀ access, s.step access (.call number call) = s.perform access env call := by
        intro access
        simp only [step, henv]
      by_cases hempty : ∃ name, s.ReadsEmpty name (.call number call)
      · obtain ⟨name, hreads⟩ := hempty
        obtain ⟨_, distance, env', ⟨⟩, henv', h⟩ := id hreads
        obtain rfl : env = env' := Option.some.inj (henv.symm.trans henv')
        obtain ⟨hplain, hstrict⟩ := perform_of_empty h
        rw [hstep, hstep, hplain, hstrict]
        exact ⟨rfl, .empty hreads⟩
      · have hne : ∀ name, ¬s.ReadsEmpty name (.call number call) := not_exists.1 hempty
        refine agree_of_eq ?_ hne
        rw [hstep, hstep]
        cases call with
        | getAt distance name =>
          exact perform_strict_of_not_empty fun h => hne name ⟨number, distance, env, rfl, henv, h⟩
        | _ => exact perform_strict_of_ne nofun

/-- The stores are the same after every sequence of requests. -/
theorem after_strict (requests : List Request) : after .strict requests = after .plain requests := by
  have hstep : (fun (s : Store) request => (s.step .strict request).2) =
      fun s request => (s.step .plain request).2 := by
    funext s request
    exact (step_agree s request).1
  rw [after, after, hstep]

/-- Two stores take the same requests, one with plain and one with strict access. They are the same
after every sequence of requests, and they answer the next request alike, unless it reads at a
distance a name other than `this` and `super` that is `nil` or absent there. The searches for a
variable outside an environment find the same value. -/
theorem strict_in_step (requests : List Request) (request : Request) :
    after .strict requests = after .plain requests ∧
      Agree (after .plain requests) request ((after .plain requests).step .plain request).1
        ((after .strict requests).step .strict request).1 ∧
      ∀ (frames : Frames) (name : String) (env : Env),
        Strict.getOuter frames name env = frames.getOutside name env := by
  rw [after_strict]
  exact ⟨rfl, (step_agree _ request).2, Strict.getOuter_eq⟩

example : ((after .plain [.new none]).step .plain (.call 0 (.getAt 0 "x"))).1 = .value .nil ∧
    ((after .strict [.new none]).step .strict (.call 0 (.getAt 0 "x"))).1 =
      .refused (.fault none (.uninitializedVariable "x")) := by
  exact ⟨rfl, rfl⟩

end Store

end Lox
