import Lox.Frame.Store
import Lox.Proofs.Frame

/-!
# Access by name and at a depth

A variable that is looked up by name is the one of the nearest frame that holds the name. So looking it
up by name is looking it up at the distance of that frame, and giving it a value by name changes that
frame alone.
-/

namespace Lox

namespace Frames

/-- At a distance from an environment, and not before, a frame of the given number holds a name. -/
structure Nearest (frames : Frames) (name : String) (env : Env) (distance : Nat) (id : FrameId) :
    Prop where
  ancestor : ∃ outer, Frames.ancestor env distance = .ok (id :: outer)
  holds : (frames.held? id name).isSome = true
  least : ∀ d i outer, d < distance → Frames.ancestor env d = .ok (i :: outer) →
    frames.held? i name = none

variable {frames : Frames} {name : String} {env : Env} {distance : Nat} {id : FrameId}

theorem ancestor_eq_ok {outer : Env} :
    ancestor env distance = .ok (id :: outer) ↔ env.drop distance = id :: outer := by
  unfold ancestor
  by_cases h : distance ≤ env.length
  · rw [if_pos h, Except.ok.injEq]
  · rw [if_neg h, List.drop_eq_nil_of_le (by omega)]
    simp [lacks]

theorem ancestor_cons (i : FrameId) (env : Env) (distance : Nat) :
    ancestor (i :: env) (distance + 1) = ancestor env distance := by
  simp [ancestor]

namespace Nearest

theorem getElem? (h : Nearest frames name env distance id) : env[distance]? = some id := by
  obtain ⟨outer, houter⟩ := h.ancestor
  rw [← List.head?_drop, ancestor_eq_ok.1 houter, List.head?_cons]

theorem exists_held (h : Nearest frames name env distance id) :
    ∃ v, frames.held? id name = some v := Option.isSome_iff_exists.1 h.holds

theorem zero {v : Value} (h : frames.held? id name = some v) (outer : Env) :
    Nearest frames name (id :: outer) 0 id where
  ancestor := ⟨outer, ancestor_eq_ok.2 rfl⟩
  holds := by rw [h]; rfl
  least _ _ _ hd := absurd hd (Nat.not_lt_zero _)

/-- A frame that does not hold the name is passed. -/
theorem succ (h : Nearest frames name env distance id) {i : FrameId}
    (hi : frames.held? i name = none) : Nearest frames name (i :: env) (distance + 1) id where
  ancestor := by
    rw [ancestor_cons]
    exact h.ancestor
  holds := h.holds
  least d j outer hd hj := by
    cases d with
    | zero =>
      cases ancestor_eq_ok.1 hj
      exact hi
    | succ d =>
      rw [ancestor_cons] at hj
      exact h.least d j outer (Nat.lt_of_succ_lt_succ hd) hj

/-- What is nearest, but not innermost, is nearest further out. -/
theorem tail {i : FrameId} (h : Nearest frames name (i :: env) (distance + 1) id) :
    Nearest frames name env distance id where
  ancestor := by
    rw [← ancestor_cons i]
    exact h.ancestor
  holds := h.holds
  least d j outer hd hj :=
    h.least (d + 1) j outer (Nat.succ_lt_succ hd) ((ancestor_cons i env d).trans hj)

/-- Only the name matters and which frames hold it. -/
theorem congr {frames' : Frames} (h : Nearest frames name env distance id)
    (hheld : ∀ i, (frames'.held? i name).isSome = (frames.held? i name).isSome) :
    Nearest frames' name env distance id where
  ancestor := h.ancestor
  holds := (hheld id).trans h.holds
  least d i outer hd hi := by
    have hnone := hheld i
    rw [h.least d i outer hd hi] at hnone
    exact Option.not_isSome_iff_eq_none.1 (by simp [hnone])

end Nearest

/-- An environment of frames that hold variables by name. -/
def IsNamed (frames : Frames) (env : Env) : Prop :=
  ∀ id ∈ env, ∃ vars, frames[id]? = some (.named vars)

/-- A search by name ends at the nearest frame that holds the name, if there is one. -/
theorem holder_cases (hn : frames.IsNamed env) (name : String) :
    (∃ distance id, Nearest frames name env distance id ∧
      ∀ operation, frames.holder operation name env = .ok id) ∨
    (∀ distance id, ¬Nearest frames name env distance id) ∧
      ∀ operation, frames.holder operation name env = .error (.fault (.undefinedVariable name)) := by
  induction env with
  | nil =>
    refine .inr ⟨fun distance id h => ?_, fun _ => rfl⟩
    have hnil := h.getElem?
    simp at hnil
  | cons i outer ih =>
    obtain ⟨vars, hvars⟩ := hn i (by simp)
    have hheld : frames.held? i name = vars.get? name := held?_of_named hvars name
    cases hv : vars.get? name with
    | some v =>
      refine .inl ⟨0, i, .zero (hheld.trans hv) outer, fun operation => ?_⟩
      simp only [holder, hvars, Table.contains, hv, Option.isSome_some, if_true]
    | none =>
      have hpass : ∀ operation, frames.holder operation name (i :: outer) =
          frames.holder operation name outer := by
        intro operation
        simp [holder, hvars, Table.contains, hv]
      rcases ih fun id hid => hn id (by simp [hid]) with ⟨d, id, hd, hholder⟩ | ⟨hnone, hholder⟩
      · exact .inl ⟨d + 1, id, hd.succ (hheld.trans hv), fun op => (hpass op).trans (hholder op)⟩
      · refine .inr ⟨fun distance id h => ?_, fun op => (hpass op).trans (hholder op)⟩
        cases distance with
        | zero =>
          cases h.getElem?
          have hholds := h.holds
          rw [hheld, hv] at hholds
          cases hholds
        | succ d => exact hnone d id h.tail

theorem Nearest.holder_eq (h : Nearest frames name env distance id) (hn : frames.IsNamed env)
    (operation : String) : frames.holder operation name env = .ok id := by
  rcases holder_cases hn name with ⟨d, i, hd, hholder⟩ | ⟨hnone, -⟩
  · obtain rfl : distance = d := by
      obtain hlt | heq | hgt := Nat.lt_trichotomy distance d
      · obtain ⟨outer, houter⟩ := h.ancestor
        have hholds := h.holds
        rw [hd.least distance id outer hlt houter] at hholds
        cases hholds
      · exact heq
      · obtain ⟨outer, houter⟩ := hd.ancestor
        have hholds := hd.holds
        rw [h.least d i outer hgt houter] at hholds
        cases hholds
    cases h.getElem?.symm.trans hd.getElem?
    exact hholder operation
  · exact absurd h (hnone distance id)

/-! ### Reading and writing at the nearest frame -/

def given (name : String) (value : Value) : Except Denial Value :=
  if value.isNil then .error (.fault (.uninitializedVariable name)) else .ok value

namespace Nearest

variable (h : Nearest frames name env distance id) (hn : frames.IsNamed env)

include h

theorem namedAt_eq (operation : String) : frames.namedAt env distance operation = .ok id := by
  obtain ⟨v, hv⟩ := h.exists_held
  exact namedAt_eq_ok.2 ⟨h.getElem?, exists_named_of_held? hv⟩

theorem assignAt_eq (value : Value) :
    frames.assignAt env distance name value = .ok (frames.write id name value) := by
  unfold assignAt
  rw [h.namedAt_eq]
  rfl

include hn

theorem get_eq {v : Value} (hv : frames.held? id name = some v) :
    frames.get env name = given name v := by
  unfold get given
  rw [h.holder_eq hn]
  simp only [bind, Except.bind, hv, Option.getD_some]
  cases v <;> rfl

theorem assign_eq (value : Value) :
    frames.assign env name value = .ok (frames.write id name value) := by
  unfold assign
  rw [h.holder_eq hn]
  rfl

end Nearest

theorem get_eq_undefined (hn : frames.IsNamed env)
    (h : ∀ distance id, ¬Nearest frames name env distance id) :
    frames.get env name = .error (.fault (.undefinedVariable name)) ∧
      ∀ value, frames.assign env name value = .error (.fault (.undefinedVariable name)) := by
  rcases holder_cases hn name with ⟨d, i, hd, -⟩ | ⟨-, hholder⟩
  · exact absurd hd (h d i)
  · unfold get assign
    rw [hholder, hholder]
    exact ⟨rfl, fun _ => rfl⟩

theorem getOutside_eq (frames : Frames) (name : String) (i : FrameId) (outer : Env) :
    frames.getOutside name (i :: outer) = (outer.findSome? (frames.held? · name)).getD .nil := by
  induction outer generalizing i with
  | nil => rfl
  | cons next outer ih =>
    rw [getOutside, List.findSome?_cons]
    cases frames.held? next name with
    | some v => rfl
    | none => exact ih next

theorem Nearest.findSome?_eq (h : Nearest frames name env distance id) :
    env.findSome? (frames.held? · name) = frames.held? id name := by
  induction env generalizing distance with
  | nil =>
    have hnil := h.getElem?
    simp at hnil
  | cons i outer ih =>
    rw [List.findSome?_cons]
    cases distance with
    | zero =>
      cases h.getElem?
      obtain ⟨v, hv⟩ := h.exists_held
      rw [hv]
    | succ distance =>
      rw [h.least 0 i outer (Nat.succ_pos _) (ancestor_eq_ok.2 rfl)]
      exact ih h.tail

theorem exists_nearest {v : Value} (h : env.findSome? (frames.held? · name) = some v) :
    ∃ distance id, Nearest frames name env distance id := by
  induction env with
  | nil => cases h
  | cons i outer ih =>
    rw [List.findSome?_cons] at h
    cases hi : frames.held? i name with
    | some w => exact ⟨0, i, .zero hi outer⟩
    | none =>
      rw [hi] at h
      obtain ⟨distance, id, hnearest⟩ := ih h
      exact ⟨distance + 1, id, hnearest.succ hi⟩

/-! ### A variable that gets another value -/

theorem namedAt_write (frames : Frames) (i : FrameId) (x : String) (value : Value) (env : Env)
    (distance : Nat) (operation : String) :
    (frames.write i x value).namedAt env distance operation =
      frames.namedAt env distance operation := by
  unfold namedAt frameAt
  rcases ancestor env distance with d | _ | ⟨j, outer⟩
  · rfl
  · rfl
  · simp only [bind, Except.bind, getElem?_write]
    by_cases hij : i = j
    · rw [if_pos hij]
      rcases frames[j]? with _ | vars | ⟨slots, globals⟩ <;> rfl
    · rw [if_neg hij]

section Write

variable {i : FrameId} {x : String} (hx : (frames.held? i x).isSome = true)

include hx

theorem held?_rewrite (value : Value) (j : FrameId) (y : String) :
    (frames.write i x value).held? j y =
      if j = i ∧ y = x then some value else frames.held? j y := by
  obtain ⟨v, hv⟩ := Option.isSome_iff_exists.1 hx
  obtain ⟨vars, hvars⟩ := exists_named_of_held? hv
  exact held?_write hvars x value j y

/-- Which frame is the nearest does not change. -/
theorem nearest_rewrite (value : Value) :
    Nearest (frames.write i x value) name env distance id ↔
      Nearest frames name env distance id := by
  have hsame : ∀ j, ((frames.write i x value).held? j name).isSome = (frames.held? j name).isSome := by
    intro j
    rw [held?_rewrite hx]
    split
    · next h => rw [h.1, h.2, hx, Option.isSome_some]
    · rfl
  exact ⟨fun h => h.congr fun j => (hsame j).symm, fun h => h.congr hsame⟩

omit hx in
theorem IsNamed.write (hn : frames.IsNamed env) (i : FrameId) (x : String) (value : Value) :
    (frames.write i x value).IsNamed env := by
  intro id hid
  obtain ⟨vars, hvars⟩ := hn id hid
  rw [getElem?_write]
  split
  · exact ⟨vars.insert x value, by rw [hvars]; rfl⟩
  · exact ⟨vars, hvars⟩

theorem get_rewrite_of_nearest (hn : frames.IsNamed env) (h : Nearest frames x env distance i)
    (value : Value) : (frames.write i x value).get env x = given x value := by
  refine ((nearest_rewrite hx value).2 h).get_eq (hn.write i x value) ?_
  rw [held?_rewrite hx, if_pos ⟨rfl, rfl⟩]

theorem get_rewrite_of_not_nearest (hn : frames.IsNamed env)
    (h : name = x → ∀ distance, ¬Nearest frames x env distance i) (value : Value) :
    (frames.write i x value).get env name = frames.get env name := by
  have hn' := hn.write i x value
  rcases holder_cases hn name with ⟨d, id, hd, -⟩ | ⟨hnone, -⟩
  · obtain ⟨v, hv⟩ := hd.exists_held
    have hother : ¬(id = i ∧ name = x) := by
      rintro ⟨rfl, rfl⟩
      exact h rfl d hd
    have hv' : (frames.write i x value).held? id name = some v := by
      rw [held?_rewrite hx, if_neg hother, hv]
    rw [hd.get_eq hn hv, ((nearest_rewrite hx value).2 hd).get_eq hn' hv']
  · have hnone' : ∀ d id, ¬Nearest (frames.write i x value) name env d id :=
      fun d id hd => hnone d id ((nearest_rewrite hx value).1 hd)
    rw [(get_eq_undefined hn hnone).1, (get_eq_undefined hn' hnone').1]

theorem getAt_rewrite (value : Value) :
    (frames.write i x value).getAt env distance name =
      if env[distance]? = some i ∧ name = x then .ok value else frames.getAt env distance name := by
  by_cases hread : env[distance]? = some i ∧ name = x
  · obtain ⟨henv, rfl⟩ := hread
    rw [if_pos ⟨henv, rfl⟩]
    exact getAt_of_held? henv (by rw [held?_rewrite hx, if_pos ⟨rfl, rfl⟩])
  · rw [if_neg hread]
    unfold getAt
    rw [namedAt_write]
    cases hat : frames.namedAt env distance "get_at" with
    | error d => rfl
    | ok j =>
      have hj : ¬(j = i ∧ name = x) := fun hj => hread ⟨hj.1 ▸ (namedAt_eq_ok.1 hat).1, hj.2⟩
      simp only [bind, Except.bind, held?_rewrite hx, if_neg hj]

theorem getOutside_rewrite_of_nearest {j : FrameId} (h : Nearest frames x env distance i)
    (value : Value) : (frames.write i x value).getOutside x (j :: env) = value := by
  rw [getOutside_eq, ((nearest_rewrite hx value).2 h).findSome?_eq, held?_rewrite hx,
    if_pos ⟨rfl, rfl⟩]
  rfl

theorem getOutside_rewrite_of_not_nearest {j : FrameId}
    (h : name = x → ∀ distance, ¬Nearest frames x env distance i) (value : Value) :
    (frames.write i x value).getOutside name (j :: env) = frames.getOutside name (j :: env) := by
  rw [getOutside_eq, getOutside_eq]
  cases hfound : env.findSome? (frames.held? · name) with
  | some v =>
    obtain ⟨d, id, hd⟩ := exists_nearest hfound
    have hother : ¬(id = i ∧ name = x) := by
      rintro ⟨rfl, rfl⟩
      exact h rfl d hd
    rw [((nearest_rewrite hx value).2 hd).findSome?_eq, held?_rewrite hx, if_neg hother,
      ← hd.findSome?_eq, hfound]
  | none =>
    cases hfound' : env.findSome? ((frames.write i x value).held? · name) with
    | none => rfl
    | some v =>
      obtain ⟨d, id, hd⟩ := exists_nearest hfound'
      have hsome := ((nearest_rewrite hx value).1 hd).holds
      rw [← ((nearest_rewrite hx value).1 hd).findSome?_eq, hfound] at hsome
      cases hsome

end Write

end Frames

namespace Store

open Frames

/-! ### Stores of frames by name -/

/-- All environments consist of frames that hold variables by name. -/
def Named (s : Store) : Prop :=
  ∀ (number : Nat) (env : Env), s.envs[number]? = some env → s.frames.IsNamed env

variable {s : Store} {env : Env}

theorem step_call {number : Nat} (henv : s.envs[number]? = some env) (access : Access) (call : Call) :
    s.step access (.call number call) = s.perform access env call := by
  simp only [step, henv]

theorem Named.add (h : s.Named) (henv : s.frames.IsNamed env) : (s.add env).2.Named := by
  have hpush : ∀ {outer : Env}, s.frames.IsNamed outer →
      Frames.IsNamed (s.frames.push (.named .empty)) outer := by
    intro outer houter id hid
    obtain ⟨vars, hvars⟩ := houter id hid
    obtain ⟨hlt, -⟩ := Array.getElem?_eq_some_iff.1 hvars
    exact ⟨vars, by rw [Array.getElem?_push, if_neg hlt.ne, hvars]⟩
  intro number outer houter
  change (s.envs.push (s.frames.size :: env))[number]? = some outer at houter
  rw [Array.getElem?_push] at houter
  split at houter
  · cases houter
    intro id hid
    rcases List.mem_cons.1 hid with rfl | hid
    · exact ⟨.empty, Array.getElem?_push_size⟩
    · exact hpush henv id hid
  · exact hpush (h number outer houter)

theorem Named.keep (h : s.Named) {r : Except Denial Frames} (told : Denial → Refusal)
    (hr : ∀ frames, r = .ok frames → ∃ i x v, frames = s.frames.write i x v) :
    (s.keep (r.mapError told)).2.Named := by
  cases r with
  | error d => exact h
  | ok frames =>
    obtain ⟨i, x, v, rfl⟩ := hr frames rfl
    exact fun number env henv => (h number env henv).write i x v

/-- What is written is one variable. -/
theorem exists_write {r : Except Denial FrameId} {frames frames' : Frames} {x : String} {v : Value}
    (h : (do let id ← r; return frames.write id x v : Except Denial Frames) = .ok frames') :
    ∃ i y w, frames' = frames.write i y w := by
  cases r with
  | error d => cases h
  | ok id =>
    cases h
    exact ⟨id, x, v, rfl⟩

theorem named_step (h : s.Named) (request : Request) : (s.step .plain request).2.Named := by
  cases request with
  | new parent? =>
    cases parent? with
    | none => exact h.add nofun
    | some parent =>
      cases henv : s.envs[parent]? with
      | none => simpa only [step, henv] using h
      | some env => simpa only [step, henv] using h.add (h parent env henv)
  | call number call =>
    cases henv : s.envs[number]? with
    | none => simpa only [step, henv] using h
    | some env =>
      have htell : ∀ r, (s.tell r).2.Named := by
        intro r
        cases r <;> exact h
      rw [step_call henv]
      cases call with
      | define name value => exact h.keep _ fun _ => exists_write
      | assign name value => exact h.keep _ fun _ => exists_write
      | assignAt distance name value => exact h.keep _ fun _ => exists_write
      | get | ancestor | getAt => exact htell _
      | outer name => exact h

theorem named_after (requests : List Request) : (after .plain requests).Named := by
  have hfold : ∀ {s : Store}, s.Named →
      (requests.foldl (fun s request => (s.step .plain request).2) s).Named := by
    induction requests with
    | nil => exact id
    | cons request requests ih => exact fun h => ih (named_step h request)
  exact hfold fun number env henv => by simp [empty] at henv

/-! ### Answers -/

/-- Whether an environment is asked for something that it does not change. -/
def Call.isRead : Call → Bool
  | .get _ | .getAt .. | .ancestor _ | .outer _ => true
  | .define .. | .assign .. | .assignAt .. => false

/-- What a call that reads a variable answers if the variable has the given value. -/
def Call.answer (value : Value) : Call → Answer
  | .get x =>
    if value.isNil then .refused (.fault (some x) (.uninitializedVariable x.lexeme)) else .value value
  | _ => .value value

/-- A call of an environment reads a variable of a frame. -/
inductive Reads (s : Store) (id : FrameId) : String → Env → Call → Prop where
  | get {x : String} {token : Token} {env : Env} {distance : Nat} (hx : token.lexeme = x)
      (h : s.frames.Nearest x env distance id) : Reads s id x env (.get token)
  | getAt {x : String} {env : Env} {distance : Int} (h : env[distance.toNat]? = some id) :
      Reads s id x env (.getAt distance x)
  | outer {x : String} {i : FrameId} {env : Env} {distance : Nat}
      (h : s.frames.Nearest x env distance id) : Reads s id x (i :: env) (.outer x)

/-- The second store is the first one but for a variable of a frame, which has the given value. -/
structure Rewrites (s s' : Store) (id : FrameId) (x : String) (value : Value) : Prop where
  envs : s'.envs = s.envs
  size : s'.frames.size = s.frames.size
  held : ∀ i y, s'.frames.held? i y = if i = id ∧ y = x then some value else s.frames.held? i y

theorem perform_get (s : Store) (env : Env) (x : Token) :
    s.perform .plain env (.get x) =
      match s.frames.get env x.lexeme with
      | .ok v => (.value v, s)
      | .error d => (.refused (d.told (some x)), s) := by
  change s.tell (((s.frames.get env x.lexeme).mapError (·.told (some x))).map .value) = _
  cases s.frames.get env x.lexeme <;> rfl

theorem perform_getAt (s : Store) (env : Env) (distance : Int) (x : String) :
    s.perform .plain env (.getAt distance x) =
      match s.frames.getAt env distance.toNat x with
      | .ok v => (.value v, s)
      | .error d => (.refused (d.told none), s) := by
  change s.tell (((s.frames.getAt env distance.toNat x).mapError (·.told none)).map .value) = _
  cases s.frames.getAt env distance.toNat x <;> rfl

theorem perform_assign (s : Store) (env : Env) (x : Token) (value : Value) :
    s.perform .plain env (.assign x value) =
      s.keep ((s.frames.assign env x.lexeme value).mapError (·.told (some x))) := rfl

theorem perform_assignAt (s : Store) (env : Env) (distance : Int) (x : Token) (value : Value) :
    s.perform .plain env (.assignAt distance x value) =
      s.keep ((s.frames.assignAt env distance.toNat x.lexeme value).mapError (·.told none)) := rfl

theorem perform_get_of_given {x : Token} {v : Value}
    (h : s.frames.get env x.lexeme = given x.lexeme v) :
    s.perform .plain env (.get x) = (Call.answer v (.get x), s) := by
  rw [perform_get, h]
  cases v <;> rfl

section Rewritten

variable {id : FrameId} {x : String} (hx : (s.frames.held? id x).isSome = true)
  (hn : s.frames.IsNamed env)

include hx

theorem rewrites_write (value : Value) :
    s.Rewrites { s with frames := s.frames.write id x value } id x value where
  envs := rfl
  size := size_write ..
  held := held?_rewrite hx value

include hn

theorem perform_of_reads {call : Call} (h : s.Reads id x env call) (value : Value) :
    ({ s with frames := s.frames.write id x value } : Store).perform .plain env call =
      (call.answer value, { s with frames := s.frames.write id x value }) := by
  cases h with
  | get htoken h =>
    subst htoken
    exact perform_get_of_given (get_rewrite_of_nearest hx hn h value)
  | getAt h => rw [perform_getAt, getAt_rewrite hx, if_pos ⟨h, rfl⟩]; rfl
  | outer h =>
    exact congrArg (fun v => (Answer.value v, _)) (getOutside_rewrite_of_nearest hx h value)

/-- All other calls that read are answered as before. -/
theorem perform_of_not_reads {call : Call} (hcall : call.isRead = true) (h : ¬s.Reads id x env call)
    (value : Value) :
    (({ s with frames := s.frames.write id x value } : Store).perform .plain env call).1 =
      (s.perform .plain env call).1 := by
  cases call with
  | get y =>
    have hother : y.lexeme = x → ∀ d, ¬s.frames.Nearest x env d id := by
      rintro rfl d hd
      exact h (.get rfl hd)
    rw [perform_get, perform_get, get_rewrite_of_not_nearest hx hn hother]
    split <;> rfl
  | getAt distance y =>
    have hother : ¬(env[distance.toNat]? = some id ∧ y = x) := by
      rintro ⟨hd, rfl⟩
      exact h (.getAt hd)
    rw [perform_getAt, perform_getAt, getAt_rewrite hx, if_neg hother]
    split <;> rfl
  | ancestor distance =>
    have htell : ∀ (s₁ s₂ : Store) r, (s₁.tell r).1 = (s₂.tell r).1 := by
      intro s₁ s₂ r
      cases r <;> rfl
    exact htell _ _ _
  | outer y =>
    cases env with
    | nil => rfl
    | cons i outer =>
      have hother : y = x → ∀ d, ¬s.frames.Nearest x outer d id := by
        rintro rfl d hd
        exact h (.outer hd)
      exact congrArg Answer.value (getOutside_rewrite_of_not_nearest hx hother value)
  | define | assign | assignAt => cases hcall

end Rewritten

/-- Requests have led to a store, and an environment of it is asked for a variable. Let a frame at a
distance be the nearest one that holds the name. Reading at that distance gives the value there; reading
by name gives the same value unless it is `nil`, which is refused as not initialized. Giving the variable a
value by name and at that distance leaves the same store, which is the one before but for that variable of
that frame: every environment whose nearest frame for the name is that one now reads the new value, and all
else that is read is as before. If there is no such frame, both requests by name are refused as about an
undefined variable, and the store stays as it is. -/
theorem by_name_at_depth {requests : List Request} (hs : after .plain requests = s) {number : Nat}
    (henv : s.envs[number]? = some env) (x : Token) :
    (∀ distance id, s.frames.Nearest x.lexeme env distance id →
      (∃ v, s.step .plain (.call number (.getAt distance x.lexeme)) = (.value v, s) ∧
        s.step .plain (.call number (.get x)) = (Call.answer v (.get x), s)) ∧
      ∀ value, ∃ s', s.step .plain (.call number (.assign x value)) = (.done, s') ∧
        s.step .plain (.call number (.assignAt distance x value)) = (.done, s') ∧
        s.Rewrites s' id x.lexeme value ∧
        ∀ number' env' call, s.envs[number']? = some env' → call.isRead = true →
          (s.Reads id x.lexeme env' call →
            s'.step .plain (.call number' call) = (call.answer value, s')) ∧
          (¬s.Reads id x.lexeme env' call →
            (s'.step .plain (.call number' call)).1 = (s.step .plain (.call number' call)).1)) ∧
    ((∀ distance id, ¬s.frames.Nearest x.lexeme env distance id) →
      s.step .plain (.call number (.get x)) =
        (.refused (.fault (some x) (.undefinedVariable x.lexeme)), s) ∧
      ∀ value, s.step .plain (.call number (.assign x value)) =
        (.refused (.fault (some x) (.undefinedVariable x.lexeme)), s)) := by
  have hnamed : s.Named := hs ▸ named_after requests
  have hn := hnamed number env henv
  refine ⟨fun distance id h => ⟨?_, fun value => ?_⟩, fun h => ?_⟩
  · obtain ⟨v, hv⟩ := h.exists_held
    refine ⟨v, ?_, ?_⟩
    · rw [step_call henv, perform_getAt, Int.toNat_natCast, getAt_of_held? h.getElem? hv]
    · rw [step_call henv]
      exact perform_get_of_given (h.get_eq hn hv)
  · refine ⟨{ s with frames := s.frames.write id x.lexeme value }, ?_, ?_,
      rewrites_write h.holds value, fun number' env' call henv' hcall => ?_⟩
    · rw [step_call henv, perform_assign, h.assign_eq hn]
      rfl
    · rw [step_call henv, perform_assignAt, Int.toNat_natCast, h.assignAt_eq]
      rfl
    · have hn' := hnamed number' env' henv'
      rw [step_call henv', step_call (s := { s with frames := s.frames.write id x.lexeme value }) henv']
      exact ⟨fun hr => perform_of_reads h.holds hn' hr value,
        fun hr => perform_of_not_reads h.holds hn' hcall hr value⟩
  · obtain ⟨hget, hassign⟩ := get_eq_undefined hn h
    refine ⟨?_, fun value => ?_⟩
    · rw [step_call henv, perform_get, hget]
      rfl
    · rw [step_call henv, perform_assign, hassign]
      rfl

/-- Two environments inside a third one, which holds `a`; one of them holds a variable `a` of its own. -/
def siblings : List Request :=
  [.new none, .new (some 0), .new (some 0), .call 0 (.define "a" (.bool true)),
    .call 2 (.define "a" (.text "own"))]

/-- A value that is given to `a` from inside is read outside, but not where another `a` is nearer. -/
theorem by_name_at_depth_siblings : ∃ s',
    (after .plain siblings).step .plain (.call 1 (.assign (.ident "a" 1) (.bool false))) = (.done, s') ∧
      (after .plain siblings).step .plain (.call 1 (.assignAt 1 (.ident "a" 1) (.bool false))) =
        (.done, s') ∧
      s'.step .plain (.call 0 (.get (.ident "a" 2))) = (.value (.bool false), s') ∧
      (s'.step .plain (.call 2 (.get (.ident "a" 3)))).1 = .value (.text "own") := by
  have henv : (after .plain siblings).envs[1]? = some [1, 0] := rfl
  have hheld : (after .plain siblings).frames.held? 0 "a" = some (.bool true) := rfl
  have hnearest : (after .plain siblings).frames.Nearest "a" [1, 0] 1 0 := (Nearest.zero hheld []).succ rfl
  obtain ⟨hat, -⟩ := by_name_at_depth rfl henv (.ident "a" 1)
  obtain ⟨-, hassign⟩ := hat 1 0 hnearest
  obtain ⟨s', hbyName, hatDepth, -, hreads⟩ := hassign (.bool false)
  refine ⟨s', hbyName, hatDepth, ?_, ?_⟩
  · exact (hreads 0 [0] (.get (.ident "a" 2)) rfl rfl).1 (.get rfl (Nearest.zero hheld []))
  · refine ((hreads 2 [2, 0] (.get (.ident "a" 3)) rfl rfl).2 ?_).trans rfl
    -- the own variable comes first, so the frame outside is not the nearest one
    rintro ⟨-, h⟩
    have hown : (after .plain siblings).frames.holder "get" "a" [2, 0] = .ok 2 := rfl
    cases hown.symm.trans (h.holder_eq (named_after siblings 2 _ rfl) "get")

end Store

end Lox
