import Lox.Proofs.Machine.Likeness

/-!
# Runs that are alike

Nodes that are alike, run on machines that are alike, end alike, unless the comparison ends before: the
first run may be spared, and the second may break. The step from the parts of a node to the node is
proved once, for all ways in which machines may be alike. Where the runs write differently, printing
and the methods of super- and subclasses are left out (`Node.isSilent`).
-/

namespace Lox

/-- Ways to leave a computation that are alike. -/
inductive Exit.Like (c : Likeness) : Exit → Exit → Prop
  | returned : v.Like c v' → Like c (.returned v) (.returned v')
  | delivered : v.Like c v' → Like c (.delivered v) (.delivered v')
  | broke : Like c .broke .broke
  | fault (cause) : c.token t t' → Like c (.fault t cause) (.fault t' cause)
  | defect (d) : Like c (.defect d) (.defect d)
  | exhausted : Like c .exhausted .exhausted

/-- Machines with frames and fields that are alike, in one environment. -/
structure Machine.Like (c : Likeness) (m m' : Machine) : Prop where
  frames : Frames.Like c m.frames m'.frames
  fields : ArrayLike (Table.Like (Value.Like c)) m.fields m'.fields
  env : m'.env = m.env
  fresh : m'.fresh = m.fresh
  clock : m'.clock = m.clock
  aside : c.aside m.traced m.out m'.traced m'.out

/-- Outcomes that are alike, or one of which ends the comparison. -/
inductive Outcome.Like {α β : Type} (c : Comparison) (value : α → β → Prop) :
    EStateM.Result Exit Machine α → EStateM.Result Exit Machine β → Prop
  | ok : value a b → m.Like c m' → Like c value (.ok a m) (.ok b m')
  | error : e.Like c e' → m.Like c m' → Like c value (.error e m) (.error e' m')
  | spared (m r) : c.spared e → Like c value (.error e m) r
  | broken (m r) : c.broken e → Like c value r (.error e m)

/-- Bounds on two runs. If they are not the same, reaching the smaller one ends the comparison. -/
def Comparison.Bounds (c : Comparison) (bound bound' : Nat) : Prop :=
  bound' = bound ∨ bound ≤ bound' ∧ c.spared .exhausted ∨ bound' ≤ bound ∧ c.broken .exhausted

/-- The second computation does on a machine that is alike what the first does. -/
def Run.Relates {α β : Type} (c : Comparison) (value : α → β → Prop) (x : Run α) (y : Run β) : Prop :=
  ∀ m m', m.Like c m' → Outcome.Like c value (x m) (y m')

namespace Run

variable {α β α' β' : Type} {c : Comparison} {value : α → β → Prop} {value' : α' → β' → Prop}

namespace Relates

theorem of_bounds {x : Nat → Run α} {y : Nat → Run β} (hx : x 0 = MonadExcept.throw .exhausted)
    (hy : y 0 = MonadExcept.throw .exhausted) {bound bound' : Nat} (hb : c.Bounds bound bound')
    (hstep : ∀ n n', bound = n + 1 → bound' = n' + 1 → c.Bounds n n' →
      Relates c value (x (n + 1)) (y (n' + 1))) : Relates c value (x bound) (y bound') := by
  intro m m' hm
  cases bound with
  | zero =>
    rw [hx]
    rcases hb with rfl | ⟨-, hspared⟩ | ⟨hle, -⟩
    · exact hy ▸ .error .exhausted hm
    · exact .spared _ _ hspared
    · rw [Nat.le_zero.1 hle, hy]
      exact .error .exhausted hm
  | succ n =>
    cases bound' with
    | zero =>
      rw [hy]
      rcases hb with h | ⟨h, -⟩ | ⟨-, hbroken⟩
      · cases h
      · cases h
      · exact .broken _ _ hbroken
    | succ n' =>
      refine hstep n n' rfl rfl ?_ m m' hm
      simpa only [Comparison.Bounds, Nat.succ.injEq, Nat.succ_le_succ_iff] using hb

theorem pure {a : α} {b : β} (h : value a b) : Relates c value (Pure.pure a) (Pure.pure b) :=
  fun _ _ hm => .ok h hm

theorem throw {e e' : Exit} (h : e.Like c e') :
    Relates c value (MonadExcept.throw e) (MonadExcept.throw e') :=
  fun _ _ hm => .error h hm

theorem bind {x : Run α} {y : Run β} {f : α → Run α'} {g : β → Run β'} (hx : Relates c value x y)
    (hf : ∀ a b, value a b → Relates c value' (f a) (g b)) :
    Relates c value' (x >>= f) (y >>= g) := by
  intro m m' hm
  have h := hx m m' hm
  change Outcome.Like c value' (EStateM.bind x f m) (EStateM.bind y g m')
  unfold EStateM.bind
  generalize x m = r at h ⊢
  generalize y m' = r' at h ⊢
  cases h with
  | ok hv hm' => exact hf _ _ hv _ _ hm'
  | error he hm' => exact .error he hm'
  | spared _ _ he => exact .spared _ _ he
  | broken _ _ he => exact .broken _ _ he

theorem get_bind {f g : Machine → Run α} {value : α → α → Prop}
    (h : ∀ m m', m.Like c m' → Relates c value (f m) (g m')) :
    Relates c value (get >>= f) (get >>= g) :=
  fun m m' hm => h m m' hm m m' hm

theorem modify {p q : Machine → Machine} (h : ∀ m m', m.Like c m' → (p m).Like c (q m')) :
    Relates c Eq (modify p) (modify q) :=
  fun m m' hm => .ok rfl (h m m' hm)

theorem ite {p p' : Prop} [Decidable p] [Decidable p'] {x x₂ : Run α} {y y₂ : Run β} (hp : p' ↔ p)
    (hx : Relates c value x y) (hy : Relates c value x₂ y₂) :
    Relates c value (if p then x else x₂) (if p' then y else y₂) := by
  by_cases h : p
  · rwa [if_pos h, if_pos (hp.2 h)]
  · rwa [if_neg h, if_neg (mt hp.1 h)]

theorem broken {e : Exit} (h : c.broken e) (x : Run α) : Relates c value x (MonadExcept.throw e : Run β) :=
  fun _ _ _ => .broken _ _ h

end Relates

variable {t t' : Token}

theorem relates_fail (ht : c.token t t') (fault : Fault) :
    Relates c value (fail t fault) (fail t' fault) :=
  .throw (.fault fault ht)

/-- After a failure nothing else is done. -/
theorem relates_fail_bind {γ δ : Type} {f : γ → Run α} {g : δ → Run β} (ht : c.token t t')
    (fault : Fault) : Relates c value (fail t fault >>= f) (fail t' fault >>= g) :=
  fun _ _ hm => .error (.fault fault ht) hm

theorem relates_breakDown (defect : Defect) :
    Relates c value (breakDown defect) (breakDown defect) :=
  .throw (.defect defect)

theorem relates_ofExcept {r : Except Defect α} {r' : Except Defect β} (h : ResultLike value r r') :
    Relates c value (ofExcept r) (ofExcept r') := by
  cases h with
  | ok hv => exact .pure hv
  | error d => exact relates_breakDown d

theorem relates_ofExcept_self {r r' : Except Defect α} (h : r' = r) :
    Relates c Eq (ofExcept r) (ofExcept r') := by
  subst h
  cases r' with
  | ok a => exact .pure rfl
  | error d => exact relates_breakDown d

theorem relates_ofAccess (ht : c.token t t') {r : Except Denial α} {r' : Except Denial β}
    (h : ResultLike value r r') : Relates c value (ofAccess t r) (ofAccess t' r') := by
  cases h with
  | ok hv => exact .pure hv
  | error d =>
    cases d with
    | fault cause => exact relates_fail ht cause
    | defect d => exact relates_breakDown d

theorem relates_ofAccess_self (ht : c.token t t') {r r' : Except Denial α} (h : r' = r) :
    Relates c Eq (ofAccess t r) (ofAccess t' r') := by
  refine relates_ofAccess ht ?_
  subst h
  cases r' with
  | ok a => exact .ok rfl
  | error d => exact .error d

theorem relates_fresh : Relates c Eq fresh fresh :=
  fun _ _ hm => .ok hm.fresh.symm ⟨hm.frames, hm.fields, hm.env, congrArg (· + 1) hm.fresh, hm.clock, hm.aside⟩

theorem relates_readClock : Relates c Eq readClock readClock :=
  fun _ _ hm => .ok (congrArg (·.reading 0) hm.clock.symm)
    ⟨hm.frames, hm.fields, hm.env, hm.fresh, congrArg Clock.next hm.clock, hm.aside⟩

theorem relates_openFrame {vars vars' : Table Value} (h : vars.Like (Value.Like c) vars') :
    Relates c Eq (openFrame vars) (openFrame vars') :=
  fun _ _ hm => .ok hm.frames.size.symm
    ⟨hm.frames.push (.named h), hm.fields, hm.env, hm.fresh, hm.clock, hm.aside⟩

theorem relates_newObject {k k' : Class} (h : k.Like c k') :
    Relates c (fun o o' => o'.id = o.id ∧ o.type.Like c o'.type) (newObject k) (newObject k') :=
  fun _ _ hm => .ok ⟨hm.fields.size, h⟩
    ⟨hm.frames, hm.fields.push .empty, hm.env, hm.fresh, hm.clock, hm.aside⟩

theorem relates_within (env : Env) {x : Run α} {y : Run β} (h : Relates c value x y) :
    Relates c value (within env x) (within env y) := by
  intro m m' hm
  have hbody := h { m with env := env } { m' with env := env }
    ⟨hm.frames, hm.fields, rfl, hm.fresh, hm.clock, hm.aside⟩
  unfold within
  generalize x { m with env := env } = r at hbody ⊢
  generalize y { m' with env := env } = r' at hbody ⊢
  cases hbody with
  | ok hv hm₁ => exact .ok hv ⟨hm₁.frames, hm₁.fields, hm.env, hm₁.fresh, hm₁.clock, hm₁.aside⟩
  | error he hm₁ => exact .error he ⟨hm₁.frames, hm₁.fields, hm.env, hm₁.fresh, hm₁.clock, hm₁.aside⟩
  | spared _ _ he => exact .spared _ _ he
  | broken _ _ he => exact .broken _ _ he

theorem relates_write (frame : FrameId) (name : String) {v v' : Value} (hv : v.Like c v') :
    Relates c Eq (modify fun m => { m with frames := m.frames.write frame name v })
      (modify fun m => { m with frames := m.frames.write frame name v' }) :=
  .modify fun _ _ hm =>
    ⟨Frames.Like.write hm.frames frame name hv, hm.fields, hm.env, hm.fresh, hm.clock, hm.aside⟩

theorem relates_setField {o o' : Object} (ho : o'.id = o.id) (name : String) {v v' : Value}
    (hv : v.Like c v') : Relates c Eq (setField o name v) (setField o' name v') := by
  refine .modify fun m m' hm => ?_
  rw [ho]
  exact ⟨hm.frames, hm.fields.modify (fun _ _ ht => ht.insert name hv) o.id, hm.env, hm.fresh, hm.clock,
    hm.aside⟩

theorem relates_field? {o o' : Object} (ho : o'.id = o.id) (name : String) :
    Relates c (Option.Rel (Value.Like c)) (field? o name) (field? o' name) := by
  intro m m' hm
  refine .ok ?_ hm
  rw [ho]
  exact (hm.fields.getElem? o.id).casesOn (fun ht => ht.get? name) .none

section Lawful

variable (hc : c.Lawful)

include hc

theorem relates_catchReturn {x y : Run Value} (h : Relates c (Value.Like c) x y) :
    Relates c (Value.Like c) (catchReturn x) (catchReturn y) := by
  intro m m' hm
  have hbody := h m m' hm
  unfold catchReturn
  generalize x m = r at hbody ⊢
  generalize y m' = r' at hbody ⊢
  cases hbody with
  | ok hv hm' => exact .ok hv hm'
  | error he hm' =>
    cases he with
    | returned hv => exact .ok hv hm'
    | _ => exact .error (by constructor <;> assumption) hm'
  | @spared e _ _ he =>
    cases e with
    | returned v => cases hc.spared he
    | _ => exact .spared _ _ he
  | @broken e _ _ he =>
    cases e with
    | returned v => cases hc.broken he
    | _ => exact .broken _ _ he

theorem relates_deliver {x y : Run Unit} (h : Relates c Eq x y) :
    Relates c (Value.Like c) (Eval.deliver x) (Eval.deliver y) := by
  intro m m' hm
  have hbody := h m m' hm
  unfold Eval.deliver
  generalize x m = r at hbody ⊢
  generalize y m' = r' at hbody ⊢
  cases hbody with
  | ok _ hm' => exact .ok .nil hm'
  | error he hm' =>
    cases he with
    | delivered hv => exact .ok hv hm'
    | _ => exact .error (by constructor <;> assumption) hm'
  | @spared e _ _ he =>
    cases e with
    | delivered v => cases hc.spared he
    | _ => exact .spared _ _ he
  | @broken e _ _ he =>
    cases e with
    | delivered v => cases hc.broken he
    | _ => exact .broken _ _ he

theorem relates_ofText {r r' : Except Defect String} (h : c.Texts r r') :
    Relates c Eq (ofExcept r) (ofExcept r') := by
  rcases h with h | ⟨hu, rfl⟩
  · exact relates_ofExcept_self h
  · exact .broken (hc.unnamed hu) _

theorem relates_define (ht : c.token t t') {v v' : Value} (hv : v.Like c v') :
    Relates c Eq (define t t.lexeme v) (define t' t'.lexeme v') := by
  rw [hc.lexeme ht]
  refine .get_bind fun m m' hm => (relates_ofAccess_self ht ?_).bind fun frame _ h => ?_
  · unfold Frames.declaring
    rw [hm.env, hm.frames.namedAt]
  · exact h ▸ relates_write frame _ hv

theorem relates_read (ht : c.token t t') (address : Address) :
    Relates c (Value.Like c) (read t address) (read t' address) := by
  refine .get_bind fun m m' hm => relates_ofAccess ht ?_
  rw [hc.lexeme ht, hm.env]
  cases address with
  | hops depth => exact hm.frames.getAt m.env depth t.lexeme
  | slot depth index => exact hm.frames.slotAt m.env depth index
  | free =>
    have hnamed := hm.frames.get Machine.globals t.lexeme
    have hglobal := hm.frames.getGlobal Machine.globals t.lexeme
    refine (hm.frames.getElem? Machine.globalId).casesOn (fun hframe => ?_) hnamed
    cases hframe with
    | named _ => exact hnamed
    | indexed _ _ => exact hglobal

theorem relates_assign (ht : c.token t t') (address : Address) {v v' : Value} (hv : v.Like c v') :
    Relates c Eq (assign t address v) (assign t' address v') := by
  refine .get_bind fun m m' hm => ?_
  rw [hc.lexeme ht, hm.env]
  cases address with
  | hops depth =>
    refine (relates_ofAccess_self ht (hm.frames.namedAt ..)).bind fun frame _ h => ?_
    exact h ▸ relates_write frame _ hv
  | slot depth index =>
    refine (relates_ofAccess_self ht (hm.frames.slotHolder ..)).bind fun place _ h => ?_
    subst h
    exact .modify fun _ _ hm => ⟨Frames.Like.writeSlot hm.frames _ _ hv, hm.fields, hm.env, hm.fresh,
      hm.clock, hm.aside⟩
  | free =>
    have hnamed : Relates c Eq
        (do let id ← ofAccess t (m.frames.holder "assign" t.lexeme Machine.globals)
            modify fun m => { m with frames := m.frames.write id t.lexeme v })
        (do let id ← ofAccess t' (m'.frames.holder "assign" t.lexeme Machine.globals)
            modify fun m => { m with frames := m.frames.write id t.lexeme v' }) :=
      (relates_ofAccess_self ht (hm.frames.holder ..)).bind fun frame _ h => h ▸ relates_write frame _ hv
    have hglobal : Relates c Eq
        (do let id ← ofAccess t (Frames.Indexed.globalHolder m.frames Machine.globals t.lexeme)
            modify fun m => { m with frames := Frames.Indexed.writeGlobal m.frames id t.lexeme v })
        (do let id ← ofAccess t' (Frames.Indexed.globalHolder m'.frames Machine.globals t.lexeme)
            modify fun m => { m with frames := Frames.Indexed.writeGlobal m.frames id t.lexeme v' }) := by
      refine (relates_ofAccess_self ht (hm.frames.globalHolder ..)).bind fun frame _ h => ?_
      subst h
      exact .modify fun _ _ hm => ⟨Frames.Like.writeGlobal hm.frames _ _ hv, hm.fields, hm.env, hm.fresh,
        hm.clock, hm.aside⟩
    refine (hm.frames.getElem? Machine.globalId).casesOn (fun hframe => ?_) hnamed
    cases hframe with
    | named _ => exact hnamed
    | indexed _ _ => exact hglobal

end Lawful

end Run

namespace Eval

open Run

variable {c : Comparison} {v v' w w' : Value} {f f' : Closure} {k k' : Class} {o o' : Object}
  {t t' : Token} {args args' : List Value}

section Operators

variable (hc : c.Lawful)

include hc

/-! ### Operators -/

omit hc in
theorem relates_operands (ht : c.token t t') (hv : v.Like c v') (hw : w.Like c w') :
    Relates c Eq (operands t v w) (operands t' v' w') := by
  unfold operands
  rw [hv.isNumber, hw.isNumber]
  refine .ite Iff.rfl ?_ (relates_fail_bind ht _)
  refine (relates_ofExcept_self hv.toDouble).bind fun x _ hx => ?_
  exact (relates_ofExcept_self hw.toDouble).bind fun y _ hy => .pure (by rw [hx, hy])

omit hc in
theorem relates_compareNumbers (ht : c.token t t') (hv : v.Like c v') (hw : w.Like c w')
    (test : Float → Float → Bool) :
    Relates c (Value.Like c) (compareNumbers t v w test) (compareNumbers t' v' w' test) :=
  (relates_operands ht hv hw).bind fun _ _ h => h ▸ .pure (.bool _)

omit hc in
theorem relates_combineNumbers (ht : c.token t t') (hv : v.Like c v') (hw : w.Like c w')
    (g : Float → Float → Float) :
    Relates c (Value.Like c) (combineNumbers t v w g) (combineNumbers t' v' w' g) :=
  (relates_operands ht hv hw).bind fun _ _ h => h ▸ .pure (.num _)

theorem relates_add (hv : v.Like c v') (hw : w.Like c w') :
    Relates c (Value.Like c) (add v w) (add v' w') := by
  have htexts : Relates c (Value.Like c)
      (do let s ← ofExcept v.operandText
          let t ← ofExcept w.operandText
          return Value.text (s ++ t))
      (do let s ← ofExcept v'.operandText
          let t ← ofExcept w'.operandText
          return Value.text (s ++ t)) :=
    (relates_ofText hc hv.operandText).bind fun s _ hs =>
      (relates_ofText hc hw.operandText).bind fun t _ ht => .pure (hs ▸ ht ▸ .text _)
  have hnumbers : Relates c (Value.Like c)
      (do let x ← ofExcept v.toDouble
          let y ← ofExcept w.toDouble
          return Value.num (x + y))
      (do let x ← ofExcept v'.toDouble
          let y ← ofExcept w'.toDouble
          return Value.num (x + y)) :=
    (relates_ofExcept_self hv.toDouble).bind fun x _ hx =>
      (relates_ofExcept_self hw.toDouble).bind fun y _ hy => .pure (hx ▸ hy ▸ .num _)
  cases hv <;> cases hw <;> first | exact htexts | exact hnumbers

omit hc in
theorem relates_divide (ht : c.token t t') (hv : v.Like c v') (hw : w.Like c w') :
    Relates c (Value.Like c) (divide t v w) (divide t' v' w') := by
  have hcombine := relates_combineNumbers ht hv hw (· / ·)
  have hrest : Relates c (Value.Like c)
      (do if w.equals (.int 0) then fail t .divisionByZero
          combineNumbers t v w (· / ·))
      (do if w'.equals (.int 0) then fail t' .divisionByZero
          combineNumbers t' v' w' (· / ·)) := by
    rw [hw.equals (.int 0)]
    exact .ite Iff.rfl (relates_fail_bind ht _) hcombine
  unfold divide
  rw [hv.isNumber, hw.isNumber]
  exact .ite Iff.rfl hrest (relates_fail_bind ht _)

theorem relates_binary (ht : c.token t t') (hv : v.Like c v') (hw : w.Like c w') :
    Relates c (Value.Like c) (binary t v w) (binary t' v' w') := by
  unfold binary
  rw [hc.kind ht, hv.equals hw]
  split
  · exact relates_compareNumbers ht hv hw _
  · exact relates_compareNumbers ht hv hw _
  · exact relates_compareNumbers ht hv hw _
  · exact relates_compareNumbers ht hv hw _
  · exact .pure (.bool _)
  · exact .pure (.bool _)
  · exact relates_combineNumbers ht hv hw _
  · exact relates_add hc hv hw
  · exact relates_divide ht hv hw
  · exact relates_combineNumbers ht hv hw _
  · exact .pure .nil

theorem relates_unary (ht : c.token t t') (hv : v.Like c v') :
    Relates c (Value.Like c) (unary t v) (unary t' v') := by
  have hnegate : Relates c (Value.Like c)
      (do return Value.num (-(← ofExcept v.toDouble)))
      (do return Value.num (-(← ofExcept v'.toDouble))) :=
    (relates_ofExcept_self hv.toDouble).bind fun x _ hx => .pure (hx ▸ .num _)
  unfold unary
  rw [hc.kind ht, hv.isNumber, hv.isTruthy]
  split
  · exact .ite Iff.rfl hnegate (relates_fail_bind ht _)
  · exact .pure (.bool _)
  · exact .pure .nil

/-! ### Functions -/

omit hc in
theorem relates_receiver (hf : f.Like c f') : Relates c (Value.Like c) (receiver f) (receiver f') := by
  refine .get_bind fun m m' hm => ?_
  rw [hf.env]
  refine (hm.frames.getAt f.env 0 "this").casesOn (fun hv => .pure hv) fun d => ?_
  cases d with
  | fault _ => exact .pure .nil
  | defect d => exact relates_breakDown d

theorem bindParams_like {params params' : List Token} (hp : List.Forall₂ c.token params params')
    (ha : List.Forall₂ (Value.Like c) args args') {vars vars' : Table Value}
    (hv : vars.Like (Value.Like c) vars') :
    ResultLike (Table.Like (Value.Like c)) (bindParams vars params args)
      (bindParams vars' params' args') := by
  induction hp generalizing args args' vars vars' with
  | nil => exact .ok hv
  | cons ht _ ih =>
    cases ha with
    | nil => exact .error _
    | cons h has =>
      rw [bindParams, bindParams, hc.lexeme ht]
      exact ih has (hv.insert _ h)

theorem relates_callVars (hf : f.Like c f') (hv : v.Like c v') (frame : FrameId)
    (ha : List.Forall₂ (Value.Like c) args args') :
    Relates c (Table.Like (Value.Like c)) (ofExcept (callVars f v frame args))
      (ofExcept (callVars f' v' frame args')) := by
  have hthis : (Table.empty.insert "this" v).Like (Value.Like c) (Table.empty.insert "this" v') :=
    Table.Like.empty.insert "this" hv
  have hparams : ∀ {vars vars' : Table Value}, vars.Like (Value.Like c) vars' →
      ResultLike (Table.Like (Value.Like c))
        (if f.isGetter then return vars else bindParams vars f.params args)
        (if f'.isGetter then return vars' else bindParams vars' f'.params args') := by
    intro vars vars' hvars
    rw [hf.isGetter]
    split
    · exact .ok hvars
    · exact bindParams_like hc hf.params ha hvars
  unfold callVars receiverVars
  cases hv with
  | object id hk =>
    rcases hf.name? with hname | ⟨hu, hname⟩
    · rw [hname]
      cases f.name? with
      | none => exact relates_breakDown _
      | some name => exact relates_ofExcept (hparams (hthis.insert "inner" (.native _)))
    · rw [hname]
      exact .broken (hc.unnamed hu) _
  | _ => exact relates_ofExcept (hparams hthis)

omit hc in
theorem relates_bindReceiver (hf : f.Like c f') (hv : v.Like c v') :
    Relates c (Closure.Like c) (bindReceiver f v) (bindReceiver f' v') := by
  refine (relates_openFrame (Table.Like.empty.insert "this" hv)).bind fun frame _ hframe => ?_
  refine relates_fresh.bind fun number _ hnumber => .pure ?_
  subst hframe hnumber
  exact { hf with id := rfl, env := congrArg (frame :: ·) hf.env }

omit hc in
theorem relates_applyNative (n : Native) (ha : List.Forall₂ (Value.Like c) args args') :
    Relates c (Value.Like c) (applyNative n args) (applyNative n args') := by
  have hclock : Relates c (Value.Like c) (do return .num (← readClock))
      (do return .num (← readClock)) :=
    relates_readClock.bind fun x _ hx => .pure (hx ▸ .num x)
  cases n with
  | clock => exact hclock
  | indexedClock => exact hclock
  | deliver =>
    refine .throw (.delivered ?_)
    cases ha with
    | nil => exact .nil
    | cons h _ => exact h
  | inner frame => exact .pure .nil

omit hc in
theorem arity?_like (hv : v.Like c v') : arity? v' = arity? v := by
  cases hv with
  | function hf => exact congrArg some hf.arity
  | type hk => exact congrArg some hk.arity
  | chain id i hfs hk =>
    cases hfs with
    | nil => rfl
    | cons hf _ => exact congrArg some hf.arity
  | _ => rfl

end Operators

/-- Nodes that are alike. -/
inductive Node.Like (c : Likeness) : Node → Node → Prop
  | expr : c.expr e e' → Like c (.expr e) (.expr e')
  | stmt : c.stmt s s' → Like c (.stmt s) (.stmt s')

section Parts

variable (hc : c.Lawful) {rec rec' : Recur}
  (hrec : ∀ node node', Node.Like c node node' → Relates c (Value.Like c) (rec node) (rec' node'))

include hc hrec

omit hc in
theorem relates_execAll {ss ss' : List Stmt} (h : List.Forall₂ c.stmt ss ss') :
    Relates c Eq (execAll rec ss) (execAll rec' ss') := by
  induction h with
  | nil => exact .pure rfl
  | cons hs _ ih => exact (hrec _ _ (.stmt hs)).bind fun _ _ _ => ih

omit hc in
theorem relates_execIn (env : Env) {vars vars' : Table Value} (hvars : vars.Like (Value.Like c) vars')
    {ss ss' : List Stmt} (h : List.Forall₂ c.stmt ss ss') :
    Relates c Eq (execIn rec env vars ss) (execIn rec' env vars' ss') :=
  (relates_openFrame hvars).bind fun _ _ hframe =>
    hframe ▸ relates_within _ (relates_execAll hrec h)

theorem relates_apply (hf : f.Like c f') (ha : List.Forall₂ (Value.Like c) args args') :
    Relates c (Value.Like c) (apply rec f args) (apply rec' f' args') := by
  refine (relates_receiver hf).bind fun this this' hthis => .get_bind fun m m' hm => ?_
  rw [hm.frames.size, hf.env, hf.isInit]
  refine (relates_callVars hc hf hthis _ ha).bind fun vars vars' hvars => ?_
  refine (relates_deliver hc (relates_execIn hrec f.env hvars hf.body)).bind fun v v' hv => ?_
  exact .ite Iff.rfl (relates_receiver hf) (.pure hv)

theorem relates_applyChain (i : Nat) (hk : k.Like c k') (ha : List.Forall₂ (Value.Like c) args args')
    {fs fs' : List Closure} (hfs : List.Forall₂ (Closure.Like c) fs fs') (hv : v.Like c v') :
    Relates c (Value.Like c) (applyChain rec ⟨i, k⟩ args fs v) (applyChain rec' ⟨i, k'⟩ args' fs' v') := by
  induction hfs generalizing v v' with
  | nil => exact .pure hv
  | cons hf _ ih =>
    refine (relates_catchReturn hc ?_).bind fun _ _ hv => ih hv
    exact (relates_bindReceiver hf (.object i hk)).bind fun _ _ hbound => relates_apply hc hrec hbound ha

theorem relates_construct (hk : k.Like c k') (ha : List.Forall₂ (Value.Like c) args args') :
    Relates c (Value.Like c) (construct rec k args) (construct rec' k' args') := by
  refine (relates_newObject hk).bind fun o o' ho => ?_
  obtain ⟨i, k⟩ := o
  obtain ⟨i', k'⟩ := o'
  obtain ⟨hi, hk'⟩ := ho
  obtain rfl : i = i' := hi.symm
  have ho : (Value.object ⟨i, k⟩).Like c (.object ⟨i, k'⟩) := .object i hk'
  refine (hk.findMethod? "init").casesOn (fun hf => ?_) (.pure ho)
  refine (relates_bindReceiver hf ho).bind fun _ _ hbound => ?_
  exact (relates_apply hc hrec hbound ha).bind fun _ _ _ => .pure ho

theorem relates_call (hv : v.Like c v') (ha : List.Forall₂ (Value.Like c) args args') :
    Relates c (Value.Like c) (call rec v args) (call rec' v' args') := by
  cases hv with
  | function hf => exact relates_apply hc hrec hf ha
  | type hk => exact relates_construct hc hrec hk ha
  | chain id i hfs hk => exact relates_applyChain hc hrec i hk ha hfs .nil
  | native n => exact relates_applyNative n ha
  | _ => exact .pure .nil

omit hc in
theorem relates_evalAll {es es' : List Expr} (h : List.Forall₂ c.expr es es') :
    Relates c (List.Forall₂ (Value.Like c)) (evalAll rec es) (evalAll rec' es') := by
  induction h with
  | nil => exact .pure .nil
  | cons he _ ih =>
    exact (hrec _ _ (.expr he)).bind fun _ _ hv => ih.bind fun _ _ hvs => .pure (.cons hv hvs)

theorem relates_callChecked (ht : c.token t t') (hv : v.Like c v')
    (ha : List.Forall₂ (Value.Like c) args args') :
    Relates c (Value.Like c) (callChecked rec t v args) (callChecked rec' t' v' args') := by
  have hcall := relates_catchReturn hc (relates_call hc hrec hv ha)
  unfold callChecked
  rw [arity?_like hv, ← ha.length_eq]
  cases arity? v with
  | none => exact relates_fail ht _
  | some arity =>
    exact .ite Iff.rfl (relates_fail_bind ht _) hcall

/-! ### Properties -/

theorem relates_property (ho : o'.id = o.id) (hk : o.type.Like c o'.type) (ht : c.token t t') :
    Relates c (Value.Like c) (property rec o t) (property rec' o' t') := by
  obtain ⟨i, k⟩ := o
  obtain ⟨i', k'⟩ := o'
  obtain rfl : i = i' := ho.symm
  have hchain : ∀ fs fs', List.Forall₂ (Closure.Like c) fs fs' → Relates c (Value.Like c)
      (do return Value.chain (← fresh) fs ⟨i, k⟩) (do return Value.chain (← fresh) fs' ⟨i, k'⟩) :=
    fun fs fs' hfs => relates_fresh.bind fun number _ hnumber => .pure (hnumber ▸ .chain _ i hfs hk)
  unfold property
  rw [hc.lexeme ht]
  refine (relates_field? rfl t.lexeme).bind fun value? value?' hvalue => ?_
  cases hvalue with
  | some hv => exact .pure hv
  | none =>
    refine (hk.findMethod? t.lexeme).casesOn (fun _ => ?_) (relates_fail ht _)
    have hmethods := hk.methodChain t.lexeme
    dsimp only
    generalize k.methodChain t.lexeme = fs at hmethods ⊢
    generalize k'.methodChain t.lexeme = fs' at hmethods ⊢
    cases hmethods with
    | nil => exact hchain _ _ .nil
    | cons hf hrest =>
      cases hrest with
      | nil =>
        refine (relates_bindReceiver hf (.object i hk)).bind fun bound bound' hbound => ?_
        rw [hbound.isGetter]
        exact .ite Iff.rfl (relates_catchReturn hc (relates_apply hc hrec hbound .nil))
          (.pure (.function hbound))
      | cons hg hrest => exact hchain _ _ (.cons hf (.cons hg hrest))

theorem relates_getProperty (hv : v.Like c v') (ht : c.token t t') :
    Relates c (Value.Like c) (getProperty rec v t) (getProperty rec' v' t') := by
  cases hv with
  | type hk =>
    unfold getProperty
    dsimp only
    rw [hc.lexeme ht]
    exact (hk.findStatic? t.lexeme).casesOn (fun hf => .pure (.function hf)) (relates_fail ht _)
  | object i hk => exact relates_property hc hrec rfl hk ht
  | _ => exact relates_fail ht _

/-! ### Nodes -/

theorem relates_initializer (ht : c.token t t') {e e' : Expr} (he : c.expr e e') :
    Relates c (Value.Like c) (initializer rec t e) (initializer rec' t' e') := by
  intro m m' hm
  have h := hrec _ _ (.expr he) m m' hm
  unfold initializer
  generalize rec (.expr e) m = r at h ⊢
  generalize rec' (.expr e') m' = r' at h ⊢
  cases h with
  | ok hv hm' => exact .ok hv hm'
  | error hexit hm' =>
    cases hexit with
    | @fault t₁ t₁' cause ht₁ =>
      dsimp only
      rw [hc.lexeme ht, hc.lexeme ht₁, hm'.env]
      split
      · rename_i m₁ m₁' _
        rcases m₁.env with _ | ⟨i, _ | ⟨j, outer⟩⟩
        · exact .ok .nil hm'
        · exact .ok .nil hm'
        · dsimp only
          exact (hm'.frames.get (j :: outer) t.lexeme).casesOn (fun hv => .ok hv hm')
            fun _ => .error (.fault cause ht₁) hm'
      · exact .error (.fault cause ht₁) hm'
    | _ => exact .error (by constructor <;> assumption) hm'
  | @spared e _ _ he =>
    cases e with
    | fault t cause => cases hc.spared he
    | _ => exact .spared _ _ he
  | @broken e _ _ he =>
    cases e with
    | fault t cause => cases hc.broken he
    | _ => exact .broken _ _ he

theorem relates_loop {e e' : Expr} {s s' : Stmt} (he : c.expr e e') (hs : c.stmt s s')
    {rounds rounds' : Nat} (hb : c.Bounds rounds rounds') :
    Relates c (Value.Like c) (loop rec e s rounds) (loop rec' e' s' rounds') := by
  induction rounds generalizing rounds' with
  | zero => exact .of_bounds rfl rfl hb nofun
  | succ rounds ih =>
    refine .of_bounds rfl rfl hb fun n n' hn _ hb => ?_
    obtain rfl : rounds = n := Nat.succ.inj hn
    intro m m' hm
    have hcondition := hrec _ _ (.expr he) m m' hm
    unfold loop
    generalize rec (.expr e) m = r at hcondition ⊢
    generalize rec' (.expr e') m' = r' at hcondition ⊢
    cases hcondition with
    | error hexit hm' => exact .error hexit hm'
    | spared _ _ he => exact .spared _ _ he
    | broken _ _ he => exact .broken _ _ he
    | @ok v v' m₁ m₁' hv hm₁ =>
      dsimp only
      rw [hv.isTruthy]
      split
      · have hbody := hrec _ _ (.stmt hs) m₁ m₁' hm₁
        generalize rec (.stmt s) m₁ = r at hbody ⊢
        generalize rec' (.stmt s') m₁' = r' at hbody ⊢
        cases hbody with
        | ok _ hm₂ => exact ih hb _ _ hm₂
        | error hexit hm₂ =>
          cases hexit with
          | broke => exact .ok .nil hm₂
          | _ => exact .error (by constructor <;> assumption) hm₂
        | @spared e _ _ he =>
          cases e with
          | broke => cases hc.spared he
          | _ => exact .spared _ _ he
        | @broken e _ _ he =>
          cases e with
          | broke => cases hc.broken he
          | _ => exact .broken _ _ he
      · exact .ok .nil hm₁

omit hc hrec in
theorem relates_closureOf (hc : c.Lawful) {d d' : Function} (hd : Function.Like c.token c.stmt d d')
    (env : Env) (isInit : Bool) :
    Relates c (Closure.Like c) (closureOf d env isInit) (closureOf d' env isInit) := by
  obtain ⟨isStatic, isGetter, hname, hparams, hbody⟩ := hd
  refine relates_fresh.bind fun number _ hnumber => .pure ?_
  subst hnumber
  exact ⟨rfl, .inl (congrArg some (hc.lexeme hname)), hparams, hbody, rfl, rfl, rfl, rfl⟩

omit hrec in
theorem relates_methodTable (env : Env) {ds ds' : List Function}
    (h : List.Forall₂ (Function.Like c.token c.stmt) ds ds') {table table' : Table Closure}
    (ht : table.Like (Closure.Like c) table') :
    Relates c (Table.Like (Closure.Like c)) (methodTable env ds table) (methodTable env ds' table') := by
  induction h generalizing table table' with
  | nil => exact .pure ht
  | cons hd _ ih =>
    unfold methodTable
    rw [hc.lexeme hd.name]
    exact (relates_closureOf hc hd env _).bind fun _ _ hf => ih (ht.insert _ hf)

omit hrec in
theorem relates_parentClass {p p' : Option (Token × Address)}
    (h : Option.Rel (fun p p' => c.token p.1 p'.1 ∧ p'.2 = p.2) p p') :
    Relates c (Option.Rel (Class.Like c)) (parentClass p) (parentClass p') := by
  cases h with
  | none => exact .pure .none
  | @some p p' hp =>
    obtain ⟨name, address⟩ := p
    obtain ⟨name', _⟩ := p'
    obtain ⟨ht, rfl⟩ := hp
    refine (relates_read hc ht _).bind fun v v' hv => ?_
    cases hv with
    | type hk => exact .pure (.some hk)
    | _ => exact relates_fail ht _

omit hrec in
theorem relates_declareClass (ht : c.token t t') {p p' : Option (Token × Address)}
    (hp : Option.Rel (fun p p' => c.token p.1 p'.1 ∧ p'.2 = p.2) p p') {ds ds' : List Function}
    (hds : List.Forall₂ (Function.Like c.token c.stmt) ds ds') :
    Relates c Eq (declareClass t p ds) (declareClass t' p' ds') := by
  refine (relates_parentClass hc hp).bind fun parent? parent?' hparent => ?_
  refine (relates_define hc ht .nil).bind fun _ _ _ => .get_bind fun m m' hm => ?_
  have henv : Relates c Eq (methodEnv m.env parent?) (methodEnv m'.env parent?') := by
    rw [hm.env]
    cases hparent with
    | none => exact .pure rfl
    | some hk =>
      exact (relates_openFrame (Table.Like.empty.insert "super" (.type hk))).bind fun _ _ hframe =>
        .pure (hframe ▸ rfl)
  refine henv.bind fun env _ henv => ?_
  subst henv
  refine (relates_methodTable hc env hds .empty).bind fun table table' htable => ?_
  refine relates_fresh.bind fun number _ hnumber => .get_bind fun m m' hm => ?_
  subst hnumber
  have hstatic : ∀ f f' : Closure, f.Like c f' → f'.isStatic = f.isStatic := fun _ _ hf => hf.isStatic
  have hmethods := htable.filter (p := (!·.isStatic)) (q := (!·.isStatic)) fun f f' hf => by
    rw [hstatic f f' hf]
  have hstatics := htable.filter (p := (·.isStatic)) (q := (·.isStatic)) hstatic
  rw [hc.lexeme ht, hm.env]
  refine (relates_ofAccess_self ht (hm.frames.holder ..)).bind fun frame _ hframe => ?_
  subst hframe
  refine relates_write frame _ (.type ?_)
  cases hparent with
  | none => exact .root _ _ hmethods hstatics
  | some hk => exact .derived _ _ hk hmethods hstatics

/-- What neither writes nor traces. -/
def Node.isSilent : Node → Bool
  | .stmt (.print _) | .expr (.super ..) | .expr (.inner ..) => false
  | _ => true

theorem relates_evalExpr {e e' : Expr} (he : c.expr e e') (hsilent : Node.isSilent (.expr e) = true) :
    Relates c (Value.Like c) (evalExpr rec e) (evalExpr rec' e') := by
  cases hc.expr he with
  | gap => exact relates_breakDown _
  | literal value => exact .pure (.ofLiteral c value)
  | grouping hb => exact hrec _ _ (.expr hb)
  | unary ht hr => exact (hrec _ _ (.expr hr)).bind fun _ _ hv => relates_unary hc ht hv
  | binary hl ht hr =>
    refine (hrec _ _ (.expr hl)).bind fun _ _ hv => ?_
    exact (hrec _ _ (.expr hr)).bind fun _ _ hw => relates_binary hc ht hv hw
  | logical hl ht hr =>
    refine (hrec _ _ (.expr hl)).bind fun _ _ hv => ?_
    rw [hv.isTruthy, hc.kind ht]
    exact .ite Iff.rfl (.pure hv) (hrec _ _ (.expr hr))
  | «variable» address ht => exact relates_read hc ht address
  | assign address ht hv =>
    refine (hrec _ _ (.expr hv)).bind fun _ _ hv => ?_
    exact (relates_assign hc ht address hv).bind fun _ _ _ => .pure hv
  | call hf ht has =>
    refine (hrec _ _ (.expr hf)).bind fun _ _ hv => ?_
    exact (relates_evalAll hrec has).bind fun _ _ hvs => relates_callChecked hc hrec ht hv hvs
  | lambda hps hss =>
    refine relates_fresh.bind fun number _ hnumber => .get_bind fun m m' hm => .pure (.function ?_)
    exact ⟨hnumber.symm, .inl rfl, hps, hss, hm.env, rfl, rfl, rfl⟩
  | get ho ht => exact (hrec _ _ (.expr ho)).bind fun _ _ hv => relates_getProperty hc hrec hv ht
  | set ho ht hv =>
    refine (hrec _ _ (.expr ho)).bind fun v v' hobject => ?_
    cases hobject with
    | object i hk =>
      refine (hrec _ _ (.expr hv)).bind fun _ _ hw => ?_
      rw [hc.lexeme ht]
      exact (relates_setField rfl _ hw).bind fun _ _ _ => .pure hw
    | _ => exact relates_fail ht _
  | this address ht => exact relates_read hc ht address
  | super | inner => cases hsilent

omit hrec in
theorem relates_unnamed (hu : c.unnames) (ht : c.token t t') {ps ps' : List Token} {ss ss' : List Stmt}
    (hparams : List.Forall₂ c.token ps ps') (hbody : List.Forall₂ c.stmt ss ss')
    (hlambda : rec' (.expr (.lambda ps' ss')) = evalExpr rec' (.lambda ps' ss') ∨
      rec' (.expr (.lambda ps' ss')) = throw .exhausted ∧ c.broken .exhausted) (rounds rounds' : Nat) :
    Relates c (Value.Like c) (execStmt rec rounds (.funDecl ⟨t, ps, ss, false, false⟩))
      (execStmt rec' rounds' (.varDecl t' (some (.lambda ps' ss')))) := by
  have hmade : Relates c (Value.Like c)
      (do return .function (← closureOf ⟨t, ps, ss, false, false⟩ (← get).env false))
      (initializer rec' t' (.lambda ps' ss')) := by
    intro m m' hm
    unfold initializer
    rcases hlambda with hlambda | ⟨hlambda, hbroken⟩
    · rw [hlambda]
      refine .ok (.function ⟨hm.fresh, .inr ⟨hu, rfl⟩, hparams, hbody, hm.env, rfl, rfl, rfl⟩)
        ⟨hm.frames, hm.fields, hm.env, congrArg (· + 1) hm.fresh, hm.clock, hm.aside⟩
    · rw [hlambda]
      exact .broken _ _ hbroken
  exact hmade.bind fun _ _ hv => (relates_define hc ht hv).bind fun _ _ _ => .pure .nil

theorem relates_execStmt {rounds rounds' : Nat} (hb : c.Bounds rounds rounds')
    (hlambda : c.unnames → ∀ ps ss, rec' (.expr (.lambda ps ss)) = evalExpr rec' (.lambda ps ss) ∨
      rec' (.expr (.lambda ps ss)) = throw .exhausted ∧ c.broken .exhausted)
    {s s' : Stmt} (hs : c.stmt s s') (hsilent : Node.isSilent (.stmt s) = true) :
    Relates c (Value.Like c) (execStmt rec rounds s) (execStmt rec' rounds' s') := by
  have hnil : Relates c (Value.Like c) (pure .nil) (pure .nil) := .pure .nil
  cases hc.stmt hs with
  | gap => exact relates_breakDown _
  | bare hv => exact hrec _ _ (.expr hv)
  | expression hv => exact (hrec _ _ (.expr hv)).bind fun _ _ _ => hnil
  | print => cases hsilent
  | varDecl ht hinit =>
    cases hinit with
    | none => exact (relates_define hc ht .nil).bind fun _ _ _ => hnil
    | some he =>
      refine (relates_initializer hc hrec ht he).bind fun _ _ hv => ?_
      exact (relates_define hc ht hv).bind fun _ _ _ => hnil
  | block hss =>
    refine .get_bind fun m m' hm => ?_
    rw [hm.env]
    exact (relates_execIn hrec m.env .empty hss).bind fun _ _ _ => hnil
  | ifStmt he hs₁ hs₂ =>
    refine (hrec _ _ (.expr he)).bind fun _ _ hv => ?_
    rw [hv.isTruthy]
    refine .ite Iff.rfl ((hrec _ _ (.stmt hs₁)).bind fun _ _ _ => hnil) ?_
    cases hs₂ with
    | none => exact hnil
    | some hs₂ => exact (hrec _ _ (.stmt hs₂)).bind fun _ _ _ => hnil
  | whileStmt he hbody => exact relates_loop hc hrec he hbody hb
  | breakStmt _ => exact .throw .broke
  | funDecl hd =>
    have hname := hd.name
    refine .get_bind fun m m' hm => ?_
    rw [hm.env]
    refine (relates_closureOf hc hd m.env false).bind fun _ _ hf => ?_
    exact (relates_define hc hname (.function hf)).bind fun _ _ _ => hnil
  | classDecl ht hp hds => exact (relates_declareClass hc ht hp hds).bind fun _ _ _ => hnil
  | returnStmt _ hvalue =>
    cases hvalue with
    | none => exact .throw (.returned .nil)
    | some hv => exact (hrec _ _ (.expr hv)).bind fun _ _ hv => .throw (.returned hv)
  | unnamed hu ht hparams hbody =>
    exact relates_unnamed hc hu ht hparams hbody (hlambda hu _ _) rounds rounds'

end Parts

end Eval

/-! ### Runs that write the same -/

/-- Both runs are traced or neither is, and what the one writes the other may write. -/
structure Likeness.Plain (c : Likeness) : Prop where
  traced {b b' : Bool} {o o' : Array Line} : c.aside b o b' o' → b' = b
  push {b b' : Bool} {o o' : Array Line} (line : Line) : c.aside b o b' o' →
    c.aside b (o.push line) b' (o'.push line)

namespace Run

variable {c : Comparison} (hc : c.Lawful) (hp : c.Plain)

include hp

theorem relates_writeLine (line : Line) : Relates c Eq (write line) (write line) :=
  .modify fun _ _ hm => ⟨hm.frames, hm.fields, hm.env, hm.fresh, hm.clock, hp.push line hm.aside⟩

include hc

theorem relates_trace {r r' : Except Defect String} (h : c.Texts r r') :
    Relates c Eq (trace r) (trace r') := by
  refine .get_bind fun m m' hm => ?_
  rw [hp.traced hm.aside]
  refine .ite Iff.rfl ((relates_ofText hc h).bind fun s _ hs => ?_) (.pure rfl)
  exact hs ▸ relates_writeLine hp _

end Run

namespace Eval

open Run

variable {c : Comparison} (hc : c.Lawful) (hp : c.Plain)

include hc hp

theorem relates_superMethod {t t' : Token} (ht : c.token t t') (address : Address) :
    Relates c (Value.Like c) (superMethod t address) (superMethod t' address) := by
  have htrace : ∀ text, Relates c Eq (trace (.ok text)) (trace (.ok text)) :=
    fun _ => relates_trace hc hp (.inl rfl)
  unfold superMethod
  rw [hc.lexeme ht]
  refine (htrace _).bind fun _ _ _ => ?_
  cases address with
  | hops depth =>
    refine (htrace _).bind fun _ _ _ => .get_bind fun m m' hm => ?_
    rw [hm.env]
    refine (relates_ofAccess ht (hm.frames.getAt m.env depth "super")).bind fun _ _ hparent => ?_
    refine (relates_trace hc hp (hparent.display.map _)).bind fun _ _ _ => ?_
    refine (relates_ofAccess ht (hm.frames.getAt m.env (depth - 1) "this")).bind fun _ _ hthis => ?_
    refine (relates_trace hc hp (hthis.display.map _)).bind fun _ _ _ => ?_
    cases hparent with
    | type hk =>
      dsimp only
      refine (hk.findMethod? t.lexeme).casesOn (fun hf => ?_) ?_
      · refine (relates_trace hc hp (hf.display.map _)).bind fun _ _ _ => ?_
        exact (relates_bindReceiver hf hthis).bind fun _ _ hbound => .pure (.function hbound)
      · exact (htrace _).bind fun _ _ _ => relates_fail ht _
    | _ => exact relates_breakDown _
  | _ => exact (htrace _).bind fun _ _ _ => relates_breakDown _

/-- Nodes that are alike run alike. A variable with an anonymous function takes one more nested
computation than a declared function. -/
theorem relates_run {depth depth' : Nat} (hb : c.Bounds depth depth')
    (hu : c.unnames → depth < depth' ∨ c.broken .exhausted) {node node' : Node}
    (hn : Node.Like c node node') :
    Relates c (Value.Like c) (run depth node) (run depth' node') := by
  induction depth generalizing depth' node node' with
  | zero => exact .of_bounds (x := fun n => run n node) (y := fun n => run n node') rfl rfl hb nofun
  | succ depth ih =>
    refine .of_bounds (x := fun n => run n node) (y := fun n => run n node') rfl rfl hb ?_
    rintro _ depth' ⟨⟩ rfl hb
    have hu := fun h => (hu h).imp_left Nat.lt_of_succ_lt_succ
    have hrec : ∀ node node', Node.Like c node node' →
        Relates c (Value.Like c) (run depth node) (run depth' node') := fun _ _ hn => ih hb hu hn
    have hlambda : c.unnames → ∀ ps ss,
        run depth' (.expr (.lambda ps ss)) = evalExpr (run depth') (.lambda ps ss) ∨
          run depth' (.expr (.lambda ps ss)) = throw .exhausted ∧ c.broken .exhausted := by
      intro h ps ss
      cases depth' with
      | zero => exact .inr ⟨rfl, (hu h).resolve_left (Nat.not_lt_zero _)⟩
      | succ n => exact .inl rfl
    cases hn with
    | @expr e e' he =>
      by_cases hsilent : Node.isSilent (.expr e) = true
      · exact relates_evalExpr hc hrec he hsilent
      · cases hc.expr he with
        | super address _ ht => exact relates_superMethod hc hp ht address
        | inner address hk ht =>
          simp only [run, step, evalExpr, hc.lexeme ht]
          exact (relates_trace hc hp (.inl rfl)).bind fun _ _ _ => relates_fail hk _
        | _ => exact absurd rfl hsilent
    | @stmt s s' hs =>
      by_cases hsilent : Node.isSilent (.stmt s) = true
      · exact relates_execStmt hc hrec hb hlambda hs hsilent
      · cases hc.stmt hs with
        | print hv =>
          refine (hrec _ _ (.expr hv)).bind fun _ _ hv => ?_
          refine (relates_trace hc hp (hv.print.map _)).bind fun _ _ _ => ?_
          refine (relates_ofText hc hv.print).bind fun text _ htext => ?_
          exact htext ▸ (relates_writeLine hp _).bind fun _ _ _ => .pure .nil
        | _ => exact absurd rfl hsilent

end Eval

end Lox
