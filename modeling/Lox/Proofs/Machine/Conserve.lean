import Lox.Proofs.Frame
import Lox.Proofs.Machine.Heap
import Lox.Proofs.Outcome

/-!
# Computations that conserve the heap

However such a computation ends, it ends in the environment in which it started, and what was made
before is still as it was made.
-/

namespace Lox

open Outcome

variable {α β : Type} {h h' h'' : Heap} {m m' m'' : Machine}

variable {name : String} {f : Closure}

/-- A machine comes later than another one and is in the same environment. -/
structure Heap.Later (h : Heap) (m : Machine) (h' : Heap) (m' : Machine) : Prop where
  le : h ≤ h'
  describes : h'.Describes m'
  env : m'.env = m.env

theorem Heap.Later.refl (hd : h.Describes m) : h.Later m h m := ⟨le_rfl, hd, rfl⟩

theorem Heap.Later.trans (hl : h.Later m h' m') (hl' : h'.Later m' h'' m'') : h.Later m h'' m'' :=
  ⟨hl.le.trans hl'.le, hl'.describes, hl'.env.trans hl.env⟩

/-- An outcome has a later machine, and what it ends with is recorded. -/
def Heap.Yields (h : Heap) (m : Machine) (post : Heap → α → Prop) :
    EStateM.Result Exit Machine α → Prop
  | .ok a m' => ∃ h', h.Later m h' m' ∧ post h' a
  | .error e m' => ∃ h', h.Later m h' m' ∧ e.Known h'

/-- However the computation ends, it ends in a later machine and with something that is recorded. -/
def Run.Conserves (h : Heap) (post : Heap → α → Prop) (x : Run α) (m : Machine) : Prop :=
  h.Yields m post (x m)

namespace Run.Conserves

variable {post : Heap → α → Prop} {post' : Heap → β → Prop} {x : Run α} {f : α → Run β}

theorem ok (hx : Conserves h post x m) {a : α} (hrun : x m = .ok a m') :
    ∃ h', h.Later m h' m' ∧ post h' a := by
  unfold Conserves at hx
  rwa [hrun] at hx

theorem error (hx : Conserves h post x m) {e : Exit} (hrun : x m = .error e m') :
    ∃ h', h.Later m h' m' ∧ e.Known h' := by
  unfold Conserves at hx
  rwa [hrun] at hx

theorem pure (hd : h.Describes m) {a : α} (hp : post h a) : Conserves h post (Pure.pure a) m :=
  ⟨h, .refl hd, hp⟩

theorem throw (hd : h.Describes m) {e : Exit} (he : e.Known h) :
    Conserves h post (MonadExcept.throw e : Run α) m :=
  ⟨h, .refl hd, he⟩

theorem after (hl : h.Later m h' m') (hx : Conserves h' post x m') : h.Yields m post (x m') := by
  cases hrun : x m' with
  | ok a m'' =>
    obtain ⟨h'', hl', hp⟩ := hx.ok hrun
    exact ⟨h'', hl.trans hl', hp⟩
  | error e m'' =>
    obtain ⟨h'', hl', he⟩ := hx.error hrun
    exact ⟨h'', hl.trans hl', he⟩

theorem bind (hx : Conserves h post x m)
    (hf : ∀ a h' m', h.Later m h' m' → post h' a → Conserves h' post' (f a) m') :
    Conserves h post' (x >>= f) m := by
  unfold Conserves
  cases hrun : x m with
  | ok a m' =>
    obtain ⟨h', hl, hp⟩ := hx.ok hrun
    rw [bind_of_ok hrun]
    exact after hl (hf a h' m' hl hp)
  | error e m' =>
    rw [bind_of_error hrun]
    exact hx.error hrun

theorem get_bind {f : Machine → Run β} (hf : Conserves h post' (f m) m) :
    Conserves h post' (get >>= f) m := hf

theorem ite {c : Prop} [Decidable c] {y : Run α} (hx : Conserves h post x m)
    (hy : Conserves h post y m) : Conserves h post (if c then x else y) m := by
  by_cases hc : c
  · rwa [if_pos hc]
  · rwa [if_neg hc]

end Run.Conserves

/-! ### Methods -/

theorem known_findMethod? {c : Class} (hc : c.Known h) (hf : c.findMethod? name = some f) :
    f.Known h := by
  rw [Class.findMethod?_eq] at hf
  obtain ⟨k, hk, hm⟩ := List.exists_of_findSome?_eq_some hf
  exact (hc.lineage k hk).method hm

theorem known_methodChain {c : Class} (hc : c.Known h) (hf : f ∈ c.methodChain name) : f.Known h := by
  obtain ⟨k, hk, hm⟩ := List.mem_filterMap.1 (List.mem_reverse.1 hf)
  exact (hc.lineage k hk).method hm

theorem known_findStatic? : ∀ {c : Class}, c.Known h →
    c.findStatic? name = some f → f.Known h
  | .mk _ _ none _ statics, hc, hf => by
    rw [Class.findStatic?] at hf
    split at hf
    · next m hm =>
      cases hf
      exact hc.static hm
    · cases hf
  | .mk _ _ (some parent) _ statics, hc, hf => by
    rw [Class.findStatic?] at hf
    split at hf
    · next m hm =>
      cases hf
      exact hc.static hm
    · exact known_findStatic? (hc.parent rfl).2 hf

/-! ### Machines -/

namespace Heap.Describes

variable {env : Env} {v : Value} {distance : Nat} {name : String}

/-- What is written and traced is not recorded. -/
theorem congr (hd : h.Describes m) (hframes : m'.frames = m.frames) (hfields : m'.fields = m.fields)
    (henv : m'.env = m.env) (hfresh : m'.fresh = m.fresh) : h.Describes m' where
  size := by rw [hframes, hd.size]
  fresh := by rw [hfresh, hd.fresh]
  env := by rw [henv]; exact hd.env
  frames := by rw [hframes]; exact hd.frames
  fields := by rw [hfields]; exact hd.fields

theorem inside (hd : h.Describes m) (hp : Path h.links env) : h.Describes { m with env := env } :=
  ⟨hd.size, hd.fresh, hp, hd.frames, hd.fields⟩

theorem modify (hd : h.Describes m) (id : FrameId) {p : Frame → Frame}
    (hp : ∀ frame, frame.Known h → (p frame).Known h) :
    h.Describes { m with frames := m.frames.modify id p } where
  size := by rw [hd.size]; exact Array.size_modify.symm
  fresh := hd.fresh
  env := hd.env
  fields := hd.fields
  frames := by
    intro i frame hf
    rw [Array.getElem?_modify] at hf
    split at hf
    · obtain ⟨frame', hf', rfl⟩ := Option.map_eq_some_iff.1 hf
      exact hp frame' (hd.frames i frame' hf')
    · exact hd.frames i frame hf

theorem write (hd : h.Describes m) (id : FrameId) (name : String) (hv : v.Known h) :
    h.Describes { m with frames := m.frames.write id name v } := by
  refine hd.modify id ?_
  rintro (vars | ⟨slots, globals⟩) hf
  · exact Table.Every.insert hf name hv
  · exact hf

/-- Frames by position are changed in their slots or in their globals. -/
theorem update (hd : h.Describes m) (id : FrameId)
    {p : Array Value → Table Value → Array Value × Table Value}
    (hp : ∀ slots globals, Frame.Known h (.indexed slots globals) →
      Frame.Known h (.indexed (p slots globals).1 (p slots globals).2)) :
    h.Describes { m with frames := Frames.Indexed.update m.frames id p } := by
  refine hd.modify id ?_
  rintro (vars | ⟨slots, globals⟩) hf
  · exact hf
  · exact hp slots globals hf

theorem writeSlot (hd : h.Describes m) (id : FrameId) (index : Nat) (hv : v.Known h) :
    h.Describes { m with frames := Frames.Indexed.writeSlot m.frames id index v } := by
  refine hd.update id fun slots globals hf => ⟨?_, hf.2⟩
  intro i w hw
  rw [Array.getElem?_setIfInBounds] at hw
  split at hw
  · split at hw
    · exact Option.some.inj hw ▸ hv
    · cases hw
  · exact hf.1 i w hw

theorem writeGlobal (hd : h.Describes m) (id : FrameId) (name : String) (hv : v.Known h) :
    h.Describes { m with frames := Frames.Indexed.writeGlobal m.frames id name v } :=
  hd.update id fun _ _ hf => ⟨hf.1, hf.2.insert name hv⟩

theorem formed_type (hd : h.Describes m) {parent? : Option Class}
    (hp : ∀ c ∈ parent?, c.Known h) {table : Table Closure} (ht : table.Every (Closure.Known h))
    (name : String) (p q : Closure → Bool) :
    Made.Formed h.links h.made m.fresh
      (.type (.mk m.fresh name parent? (table.filter p) (table.filter q))) := by
  have hlt : ∀ {i : Nat} {x : Made}, h.made[i]? = some x → i < m.fresh := fun hx =>
    hd.fresh ▸ (List.getElem?_eq_some_iff.1 hx).1
  have htable := ht.mono fun f (hf : f.Known h) => (⟨hlt hf, hf⟩ : _ ∧ _)
  exact ⟨rfl, fun c hc => ⟨hlt (hp c hc), hp c hc⟩, htable.filter p, htable.filter q⟩

/-! ### What is read -/

theorem held (hd : h.Describes m) (id : FrameId) (name : String) :
    ((m.frames.held? id name).getD .nil).Known h := by
  unfold Frames.held?
  split
  · next vars hf =>
    cases hv : vars.get? name with
    | none => trivial
    | some v => exact Table.Every.get? (hd.frames id _ hf) hv
  · trivial

theorem getAt (hd : h.Describes m) (hv : m.frames.getAt env distance name = .ok v) : v.Known h := by
  obtain ⟨id, rfl⟩ := Frames.getAt_eq_ok hv
  exact hd.held id name

theorem get (hd : h.Describes m) (hv : m.frames.get env name = .ok v) : v.Known h := by
  obtain ⟨id, rfl⟩ := Frames.get_eq_ok hv
  exact hd.held id name

/-- A frame by position is one of the frames. -/
theorem frameAt (hd : h.Describes m) {operation : String} {place : FrameId × Array Value × Table Value}
    (hf : Frames.Indexed.frameAt m.frames env distance operation = .ok place) :
    Frame.Known h (.indexed place.2.1 place.2.2) := by
  unfold Frames.Indexed.frameAt Frames.frameAt at hf
  cases ha : Frames.ancestor env distance with
  | error d =>
    rw [ha] at hf
    cases hf
  | ok found =>
    rw [ha] at hf
    cases found with
    | nil => cases hf
    | cons id outer =>
      simp only [bind, Except.bind] at hf
      cases hframe : m.frames[id]? with
      | none =>
        rw [hframe] at hf
        cases hf
      | some frame =>
        rw [hframe] at hf
        cases frame with
        | named vars => cases hf
        | indexed slots globals =>
          cases hf
          exact hd.frames id _ hframe

theorem getSlot (hd : h.Describes m) {index : Int}
    (hv : Frames.Indexed.getAt m.frames env distance index = .ok v) : v.Known h := by
  unfold Frames.Indexed.getAt at hv
  cases hf : Frames.Indexed.frameAt m.frames env distance "get_at_index" with
  | error d =>
    rw [hf] at hv
    cases hv
  | ok place =>
    rw [hf] at hv
    cases index with
    | negSucc i => cases hv
    | ofNat i =>
      simp only [bind, Except.bind] at hv
      split at hv
      · next w hw =>
        cases hv
        exact (hd.frameAt hf).1 i v hw
      · cases hv

theorem getGlobal (hd : h.Describes m) (hv : Frames.Indexed.getGlobal m.frames env name = .ok v) :
    v.Known h := by
  unfold Frames.Indexed.getGlobal at hv
  cases hf : Frames.Indexed.frameAt m.frames env 0 "get_global" with
  | error d =>
    rw [hf] at hv
    cases hv
  | ok place =>
    rw [hf] at hv
    simp only [bind, Except.bind] at hv
    split at hv
    · next w hw =>
      cases hv
      exact (hd.frameAt hf).2.get? hw
    · cases hv

end Heap.Describes

/-! ### Steps of the machine -/

namespace Run

/-- Nothing is asked of what a computation yields. -/
abbrev Any {α : Type} : Heap → α → Prop := fun _ _ => True

section Steps

variable {post : Heap → α → Prop} (hd : h.Describes m)

variable {v : Value}

include hd

theorem conserves_fail (token : Token) (fault : Fault) : Conserves h post (fail token fault) m :=
  .throw hd trivial

theorem conserves_fail_bind (token : Token) (fault : Fault) {f : β → Run α} :
    Conserves h post (fail token fault >>= f) m :=
  ⟨h, .refl hd, trivial⟩

theorem conserves_breakDown (defect : Defect) : Conserves h post (breakDown defect) m :=
  .throw hd trivial

theorem conserves_ofExcept {r : Except Defect α} (hp : ∀ a, r = .ok a → post h a) :
    Conserves h post (ofExcept r) m := by
  cases r with
  | ok a => exact .pure hd (hp a rfl)
  | error d => exact conserves_breakDown hd d

theorem conserves_ofExcept_any (r : Except Defect α) : Conserves h Any (ofExcept r) m :=
  conserves_ofExcept hd fun _ _ => trivial

theorem conserves_ofAccess (token : Token) {r : Except Denial α} (hp : ∀ a, r = .ok a → post h a) :
    Conserves h post (ofAccess token r) m := by
  rcases r with (f | d) | a
  · exact conserves_fail hd token f
  · exact conserves_breakDown hd d
  · exact .pure hd (hp a rfl)

theorem conserves_ofAccess_any (token : Token) (r : Except Denial α) :
    Conserves h Any (ofAccess token r) m :=
  conserves_ofAccess hd token fun _ _ => trivial

omit hd in
theorem conserves_modify {p : Machine → Machine} (hp : h.Describes (p m))
    (henv : (p m).env = m.env) : Conserves h Any (modify p : Run Unit) m :=
  ⟨h, ⟨le_rfl, hp, henv⟩, trivial⟩

theorem conserves_write (line : Line) : Conserves h Any (write line) m :=
  conserves_modify (hd.congr rfl rfl rfl rfl) rfl

theorem conserves_trace (text : Except Defect String) : Conserves h Any (trace text) m := by
  refine .get_bind (.ite ?_ (.pure hd trivial))
  exact (conserves_ofExcept_any hd _).bind fun s h' m' hl _ =>
    conserves_write hl.describes _

theorem conserves_fresh {x : Made} (hx : x.Formed h.links h.made m.fresh) :
    Conserves h (fun h' n => n = m.fresh ∧ h'.made[n]? = some x) fresh m := by
  rw [← hd.fresh] at hx
  have hmade : (h.make x hx).made[m.fresh]? = some x := by
    change (h.made ++ [x])[m.fresh]? = some x
    rw [← hd.fresh]
    simp
  refine ⟨h.make x hx, ⟨h.le_make hx, ?_, rfl⟩, rfl, hmade⟩
  exact {
    size := hd.size
    fresh := by simp [Heap.make, hd.fresh]
    env := hd.env
    frames := fun i frame hf => (hd.frames i frame hf).mono (h.le_make hx)
    fields := fun i table ht => (hd.fields i table ht).mono fun _ hv => hv.mono (h.le_make hx) }

theorem conserves_openFrame {env : Env} (hp : Path h.links env) {vars : Table Value}
    (hv : vars.Every (Value.Known h)) :
    Conserves h (fun h' i => Path h'.links (i :: env)) (openFrame vars) m := by
  obtain ⟨j, outer, rfl, hj⟩ : ∃ j outer, env = j :: outer ∧ j < h.links.length := by
    cases hp with
    | root hi => exact ⟨_, _, rfl, (List.getElem?_eq_some_iff.1 hi).1⟩
    | link hi => exact ⟨_, _, rfl, (List.getElem?_eq_some_iff.1 hi).1⟩
  have hle := h.le_enclose hj
  have hlink : (h.enclose j hj).links[m.frames.size]? = some (some j) := by
    change (h.links ++ [some j])[m.frames.size]? = _
    rw [← hd.size]
    simp
  refine ⟨h.enclose j hj, ⟨hle, ?_, rfl⟩, .link hlink (hp.mono hle.1)⟩
  exact {
    size := by simp [Heap.enclose, hd.size]
    fresh := hd.fresh
    env := hd.env.mono hle.1
    frames := by
      intro i frame hf
      rw [Array.getElem?_push] at hf
      split at hf
      · cases hf
        exact Frame.Known.mono hle hv
      · exact (hd.frames i frame hf).mono hle
    fields := fun i table ht => (hd.fields i table ht).mono fun _ hv => hv.mono hle }

theorem conserves_newObject {type : Class} (hc : type.Known h) :
    Conserves h (fun h' o => Value.Known h' (.object o)) (newObject type) m := by
  refine ⟨h, ⟨le_rfl, ?_, rfl⟩, hc⟩
  exact {
    size := hd.size
    fresh := hd.fresh
    env := hd.env
    frames := hd.frames
    fields := by
      intro i table ht
      rw [Array.getElem?_push] at ht
      split at ht
      · cases ht
        exact .empty
      · exact hd.fields i table ht }

theorem conserves_within {env : Env} {body : Run α}
    (hb : Conserves h post body { m with env := env }) :
    Conserves h post (within env body) m := by
  have hback : ∀ {h' m'}, h.Later { m with env := env } h' m' →
      h.Later m h' { m' with env := m.env } := fun hl =>
    ⟨hl.le, hl.describes.inside (hd.env.mono hl.le.1), rfl⟩
  unfold Conserves within
  dsimp only
  cases hrun : body { m with env := env } with
  | ok a m' =>
    obtain ⟨h', hl, hp⟩ := hb.ok hrun
    exact ⟨h', hback hl, hp⟩
  | error e m' =>
    obtain ⟨h', hl, he⟩ := hb.error hrun
    exact ⟨h', hback hl, he⟩

omit hd in
theorem conserves_catchReturn {body : Run Value} (hb : Conserves h Value.Known body m) :
    Conserves h Value.Known (catchReturn body) m := by
  unfold Conserves catchReturn
  cases hrun : body m with
  | ok v m' => exact hb.ok hrun
  | error e m' =>
    have he := hb.error hrun
    cases e <;> exact he

theorem conserves_writeAt (id : FrameId) (name : String) (hv : v.Known h) :
    Conserves h Any (modify fun m => { m with frames := m.frames.write id name v } : Run Unit) m :=
  conserves_modify (hd.write id name hv) rfl

theorem conserves_define (token : Token) (name : String) (hv : v.Known h) :
    Conserves h Any (define token name v) m := by
  refine .get_bind ((conserves_ofAccess_any hd token _).bind ?_)
  intro id h' m' hl _
  exact conserves_writeAt hl.describes id name (hv.mono hl.le)

theorem conserves_read (name : Token) (address : Address) :
    Conserves h Value.Known (read name address) m := by
  refine .get_bind (conserves_ofAccess hd name fun v hv => ?_)
  cases address with
  | hops depth => exact hd.getAt hv
  | slot depth index => exact hd.getSlot hv
  | free =>
    dsimp only at hv
    split at hv
    · exact hd.getGlobal hv
    · exact hd.get hv

theorem conserves_assign (name : Token) (address : Address) (hv : v.Known h) :
    Conserves h Any (assign name address v) m := by
  refine .get_bind ?_
  cases address with
  | hops depth =>
    refine (conserves_ofAccess_any hd name _).bind ?_
    intro id h' m' hl _
    exact conserves_writeAt hl.describes id name.lexeme (hv.mono hl.le)
  | slot depth index =>
    refine (conserves_ofAccess_any hd name _).bind ?_
    intro place h' m' hl _
    exact conserves_modify (hl.describes.writeSlot _ _ (hv.mono hl.le)) rfl
  | free =>
    dsimp only
    split
    · refine (conserves_ofAccess_any hd name _).bind ?_
      intro id h' m' hl _
      exact conserves_modify (hl.describes.writeGlobal _ _ (hv.mono hl.le)) rfl
    · refine (conserves_ofAccess_any hd name _).bind ?_
      intro id h' m' hl _
      exact conserves_writeAt hl.describes id name.lexeme (hv.mono hl.le)

theorem conserves_field? (o : Object) (name : String) :
    Conserves h (fun h' v? => ∀ v ∈ v?, v.Known h') (field? o name) m := by
  refine .get_bind (.pure hd ?_)
  intro v hv
  obtain ⟨table, ht, hv⟩ := Option.bind_eq_some_iff.1 hv
  exact (hd.fields o.id table ht).get? hv

theorem conserves_setField (o : Object) (name : String) (hv : v.Known h) :
    Conserves h Any (setField o name v) m := by
  refine conserves_modify ?_ rfl
  exact {
    size := hd.size
    fresh := hd.fresh
    env := hd.env
    frames := hd.frames
    fields := by
      intro i table ht
      rw [Array.getElem?_modify] at ht
      split at ht
      · obtain ⟨table', ht', rfl⟩ := Option.map_eq_some_iff.1 ht
        exact (hd.fields i table' ht').insert name hv
      · exact hd.fields i table ht }

end Steps

end Run

end Lox
