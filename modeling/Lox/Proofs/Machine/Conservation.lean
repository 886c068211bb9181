import Lox.Machine.Eval
import Lox.Proofs.Machine.Conserve

/-!
# Runs conserve the heap

Each construct of the evaluator, given that its parts conserve the heap, conserves it, whichever way it
ends.
-/

namespace Lox

variable {h : Heap} {m : Machine}

namespace Eval

open Run

variable {args : List Value}

/-! ### Operators -/

section Operators

variable (hd : h.Describes m)

include hd

theorem conserves_operands (op : Token) (left right : Value) :
    Conserves h Any (operands op left right) m := by
  unfold operands
  refine .ite ?_ (conserves_fail_bind hd op _)
  refine (conserves_ofExcept_any hd _).bind fun x h₁ m₁ hl₁ _ => ?_
  refine (conserves_ofExcept_any hl₁.describes _).bind ?_
  intro y h₂ m₂ hl₂ _
  exact .pure hl₂.describes trivial

theorem conserves_compareNumbers (op : Token) (left right : Value) (test : Float → Float → Bool) :
    Conserves h Value.Known (compareNumbers op left right test) m :=
  (conserves_operands hd op left right).bind fun _ _ _ hl _ => .pure hl.describes trivial

theorem conserves_combineNumbers (op : Token) (left right : Value) (f : Float → Float → Float) :
    Conserves h Value.Known (combineNumbers op left right f) m :=
  (conserves_operands hd op left right).bind fun _ _ _ hl _ => .pure hl.describes trivial

theorem conserves_add (left right : Value) : Conserves h Value.Known (add left right) m := by
  have htexts : Conserves h Value.Known
      (do let s ← ofExcept left.operandText
          let t ← ofExcept right.operandText
          return Value.text (s ++ t)) m := by
    refine (conserves_ofExcept_any hd _).bind fun s h₁ m₁ hl₁ _ => ?_
    refine (conserves_ofExcept_any hl₁.describes _).bind ?_
    intro t h₂ m₂ hl₂ _
    exact .pure hl₂.describes trivial
  have hnumbers : Conserves h Value.Known
      (do let x ← ofExcept left.toDouble
          let y ← ofExcept right.toDouble
          return Value.num (x + y)) m := by
    refine (conserves_ofExcept_any hd _).bind fun x h₁ m₁ hl₁ _ => ?_
    refine (conserves_ofExcept_any hl₁.describes _).bind ?_
    intro y h₂ m₂ hl₂ _
    exact .pure hl₂.describes trivial
  cases left <;> cases right <;> first | exact htexts | exact hnumbers

theorem conserves_divide (op : Token) (left right : Value) :
    Conserves h Value.Known (divide op left right) m := by
  unfold divide
  refine .ite (.ite (conserves_fail_bind hd op _) ?_) (conserves_fail_bind hd op _)
  exact conserves_combineNumbers hd op left right _

theorem conserves_binary (op : Token) (left right : Value) :
    Conserves h Value.Known (binary op left right) m := by
  unfold binary
  split
  · exact conserves_compareNumbers hd op left right _
  · exact conserves_compareNumbers hd op left right _
  · exact conserves_compareNumbers hd op left right _
  · exact conserves_compareNumbers hd op left right _
  · exact .pure hd trivial
  · exact .pure hd trivial
  · exact conserves_combineNumbers hd op left right _
  · exact conserves_add hd left right
  · exact conserves_divide hd op left right
  · exact conserves_combineNumbers hd op left right _
  · exact .pure hd trivial

theorem conserves_unary (op : Token) (right : Value) :
    Conserves h Value.Known (unary op right) m := by
  unfold unary
  split
  · refine .ite ?_ (conserves_fail_bind hd op _)
    refine (conserves_ofExcept_any hd _).bind fun x h₁ m₁ hl₁ _ => ?_
    exact .pure hl₁.describes trivial
  · exact .pure hd trivial
  · exact .pure hd trivial

end Operators

/-! ### Functions -/

theorem conserves_receiver (hd : h.Describes m) (f : Closure) :
    Conserves h Value.Known (receiver f) m := by
  refine .get_bind ?_
  split
  · next v hv => exact .pure hd (hd.getAt hv)
  · exact conserves_breakDown hd _
  · exact .pure hd trivial

theorem known_bindParams {params : List Token} {vars vars' : Table Value}
    (hv : vars.Every (Value.Known h)) (ha : ∀ v ∈ args, v.Known h)
    (hb : bindParams vars params args = .ok vars') : vars'.Every (Value.Known h) := by
  induction params generalizing vars args with
  | nil =>
    cases hb
    exact hv
  | cons p ps ih =>
    cases args with
    | nil => cases hb
    | cons a as =>
      exact ih (hv.insert _ (ha a (by simp))) (fun v hv => ha v (by simp [hv])) hb

theorem known_callVars {f : Closure} {this : Value} {frame : FrameId} {vars : Table Value}
    (ht : this.Known h) (ha : ∀ v ∈ args, v.Known h)
    (hc : callVars f this frame args = .ok vars) : vars.Every (Value.Known h) := by
  have hthis : (Table.empty.insert "this" this).Every (Value.Known h) :=
    Table.Every.empty.insert "this" ht
  have hreceiver : ∀ vars₁, receiverVars f this frame = .ok vars₁ →
      vars₁.Every (Value.Known h) := by
    intro vars₁ hr
    unfold receiverVars at hr
    dsimp only at hr
    split at hr
    · split at hr
      · cases hr
        exact hthis.insert "inner" trivial
      · cases hr
    · cases hr
      exact hthis
  unfold callVars at hc
  cases hr : receiverVars f this frame with
  | error d =>
    rw [hr] at hc
    cases hc
  | ok vars₁ =>
    rw [hr] at hc
    simp only [bind, Except.bind] at hc
    split at hc
    · cases hc
      exact hreceiver _ hr
    · exact known_bindParams (hreceiver _ hr) ha hc

theorem conserves_bindReceiver (hd : h.Describes m) {f : Closure} (hf : f.Known h) {v : Value}
    (hv : v.Known h) : Conserves h Closure.Known (bindReceiver f v) m := by
  have hvars : (Table.empty.insert "this" v).Every (Value.Known h) :=
    Table.Every.empty.insert "this" hv
  refine (conserves_openFrame hd hf.path hvars).bind fun i h₁ m₁ hl₁ hp => ?_
  -- the new frame lies in the innermost frame of the method, so its environment is a path again
  have hformed : Made.Formed h₁.links h₁.made m₁.fresh
      (.function { f with id := m₁.fresh, env := i :: f.env }) := ⟨rfl, hp⟩
  refine (conserves_fresh hl₁.describes hformed).bind fun n h₂ m₂ hl₂ hn => ?_
  obtain ⟨rfl, hmade⟩ := hn
  exact .pure hl₂.describes hmade

theorem conserves_deliver {body : Run Unit} (hb : Conserves h Any body m) :
    Conserves h Value.Known (deliver body) m := by
  unfold Conserves deliver
  cases hrun : body m with
  | ok u m' =>
    obtain ⟨h', hl, -⟩ := hb.ok hrun
    exact ⟨h', hl, trivial⟩
  | error e m' =>
    have he := hb.error hrun
    cases e <;> exact he

theorem conserves_applyNative (hd : h.Describes m) (n : Native) (ha : ∀ v ∈ args, v.Known h) :
    Conserves h Value.Known (applyNative n args) m := by
  cases n with
  | clock | indexedClock => exact ⟨h, ⟨le_rfl, hd.congr rfl rfl rfl rfl, rfl⟩, trivial⟩
  | deliver =>
    refine .throw hd ?_
    cases args with
    | nil => trivial
    | cons v vs => exact ha v (by simp)
  | inner frame => exact .pure hd trivial

section Recursive

variable {rec : Recur}
  (hrec : ∀ (node : Node) (h : Heap) (m : Machine), h.Describes m →
    Conserves h Value.Known (rec node) m)

variable {env : Env} {args : List Value}

include hrec

theorem conserves_execAll (hd : h.Describes m) (body : List Stmt) :
    Conserves h Any (execAll rec body) m := by
  induction body generalizing h m with
  | nil => exact .pure hd trivial
  | cons s ss ih => exact (hrec (.stmt s) h m hd).bind fun _ _ _ hl _ => ih hl.describes

theorem conserves_execIn (hd : h.Describes m) (hp : Path h.links env) {vars : Table Value}
    (hv : vars.Every (Value.Known h)) (body : List Stmt) :
    Conserves h Any (execIn rec env vars body) m := by
  refine (conserves_openFrame hd hp hv).bind fun i h₁ m₁ hl₁ hpath => ?_
  exact conserves_within hl₁.describes (conserves_execAll hrec (hl₁.describes.inside hpath) body)

theorem conserves_apply (hd : h.Describes m) {f : Closure} (hf : f.Known h) (ha : ∀ v ∈ args, v.Known h) :
    Conserves h Value.Known (apply rec f args) m := by
  refine (conserves_receiver hd f).bind fun this h₁ m₁ hl₁ ht => .get_bind ?_
  have ha₁ : ∀ v ∈ args, v.Known h₁ := fun v hv => (ha v hv).mono hl₁.le
  have hvars : Conserves h₁ (fun h' vars => vars.Every (Value.Known h'))
      (ofExcept (callVars f this m₁.frames.size args)) m₁ :=
    conserves_ofExcept hl₁.describes fun vars hc => known_callVars ht ha₁ hc
  refine hvars.bind fun vars h₂ m₂ hl₂ hv => ?_
  have hpath : Path h₂.links f.env := hf.path.mono (hl₁.trans hl₂).le.1
  refine (conserves_deliver (conserves_execIn hrec hl₂.describes hpath hv f.body)).bind ?_
  intro result h₃ m₃ hl₃ hr
  exact .ite (conserves_receiver hl₃.describes f) (.pure hl₃.describes hr)

theorem conserves_applyChain (hd : h.Describes m) {this : Object} (ho : this.type.Known h)
    (ha : ∀ v ∈ args, v.Known h) {methods : List Closure}
    (hm : ∀ f ∈ methods, f.Known h) {result : Value} (hr : result.Known h) :
    Conserves h Value.Known (applyChain rec this args methods result) m := by
  induction methods generalizing h m result with
  | nil => exact .pure hd hr
  | cons f fs ih =>
    have hone : Conserves h Value.Known
        (catchReturn do
          let bound ← bindReceiver f (.object this)
          apply rec bound args) m := by
      refine conserves_catchReturn ?_
      refine (conserves_bindReceiver hd (hm f (by simp)) (v := .object this) ho).bind ?_
      intro bound h₁ m₁ hl₁ hb
      exact conserves_apply hrec hl₁.describes hb fun v hv => (ha v hv).mono hl₁.le
    refine hone.bind fun value h₁ m₁ hl₁ hv => ?_
    exact ih hl₁.describes (ho.mono hl₁.le) (fun v hv => (ha v hv).mono hl₁.le)
      (fun g hg => (hm g (by simp [hg])).mono hl₁.le) hv

theorem conserves_construct (hd : h.Describes m) {c : Class} (hc : c.Known h)
    (ha : ∀ v ∈ args, v.Known h) : Conserves h Value.Known (construct rec c args) m := by
  refine (conserves_newObject hd hc).bind fun o h₁ m₁ hl₁ ho => ?_
  cases hf : c.findMethod? "init" with
  | none => exact .pure hl₁.describes ho
  | some init =>
    have hinit : init.Known h₁ := (known_findMethod? hc hf).mono hl₁.le
    refine (conserves_bindReceiver hl₁.describes hinit ho).bind fun bound h₂ m₂ hl₂ hb => ?_
    have ha₂ : ∀ v ∈ args, v.Known h₂ := fun v hv => (ha v hv).mono (hl₁.trans hl₂).le
    refine (conserves_apply hrec hl₂.describes hb ha₂).bind fun _ h₃ m₃ hl₃ _ => ?_
    exact .pure hl₃.describes (Value.Known.mono (hl₂.trans hl₃).le ho)

theorem conserves_call (hd : h.Describes m) {callee : Value} (hc : callee.Known h)
    (ha : ∀ v ∈ args, v.Known h) :
    Conserves h Value.Known (call rec callee args) m := by
  cases callee with
  | function f => exact conserves_apply hrec hd hc ha
  | type c => exact conserves_construct hrec hd hc ha
  | chain id methods this => exact conserves_applyChain hrec hd hc.2 ha hc.1 trivial
  | native n => exact conserves_applyNative hd n ha
  | nil | bool | num | int | text | object => exact .pure hd trivial

theorem conserves_evalAll (hd : h.Describes m) (es : List Expr) :
    Conserves h (fun h' vs => ∀ v ∈ vs, v.Known h') (evalAll rec es) m := by
  induction es generalizing h m with
  | nil => exact .pure hd (by simp)
  | cons e es ih =>
    refine (hrec (.expr e) h m hd).bind fun v h₁ m₁ hl₁ hv => ?_
    refine (ih hl₁.describes).bind fun vs h₂ m₂ hl₂ hvs => .pure hl₂.describes ?_
    intro w hw
    rcases List.mem_cons.1 hw with rfl | hw
    · exact hv.mono hl₂.le
    · exact hvs w hw

theorem conserves_callChecked (hd : h.Describes m) (paren : Token) {callee : Value}
    (hc : callee.Known h) (ha : ∀ v ∈ args, v.Known h) :
    Conserves h Value.Known (callChecked rec paren callee args) m := by
  unfold callChecked
  cases arity? callee with
  | none => exact conserves_fail hd paren _
  | some arity =>
    refine .ite (conserves_fail_bind hd paren _) ?_
    exact conserves_catchReturn (conserves_call hrec hd hc ha)

/-! ### Properties -/

theorem conserves_property (hd : h.Describes m) {o : Object} (ho : o.type.Known h) (name : Token) :
    Conserves h Value.Known (property rec o name) m := by
  refine (conserves_field? hd o name.lexeme).bind fun value? h₁ m₁ hl₁ hv => ?_
  have ho₁ : o.type.Known h₁ := ho.mono hl₁.le
  cases value? with
  | some value => exact .pure hl₁.describes (hv value rfl)
  | none =>
    dsimp only
    cases o.type.findMethod? name.lexeme with
    | none => exact conserves_fail hl₁.describes name _
    | some found =>
      have hknown : ∀ f ∈ o.type.methodChain name.lexeme, f.Known h₁ := fun f hf =>
        known_methodChain ho₁ hf
      dsimp only
      split
      · next f hchain =>
        have hf : f.Known h₁ := hknown f (by simp [hchain])
        refine (conserves_bindReceiver hl₁.describes hf (v := .object o) ho₁).bind ?_
        intro bound h₂ m₂ hl₂ hb
        refine .ite ?_ (.pure hl₂.describes hb)
        exact conserves_catchReturn (conserves_apply hrec hl₂.describes hb (by simp))
      · refine (conserves_fresh hl₁.describes (x := .chain) trivial).bind fun n h₂ m₂ hl₂ _ => ?_
        exact .pure hl₂.describes
          ⟨fun f hf => (hknown f hf).mono hl₂.le, ho₁.mono hl₂.le⟩

theorem conserves_getProperty (hd : h.Describes m) {object : Value} (ho : object.Known h)
    (name : Token) : Conserves h Value.Known (getProperty rec object name) m := by
  cases object with
  | type c =>
    unfold getProperty
    dsimp only
    cases hs : c.findStatic? name.lexeme with
    | none => exact conserves_fail hd name _
    | some f => exact .pure hd (known_findStatic? ho hs)
  | object o => exact conserves_property hrec hd ho name
  | nil | bool | num | int | text | function | chain | native => exact conserves_fail hd name _

omit hrec in
theorem conserves_superMethod (hd : h.Describes m) (method : Token) (address : Address) :
    Conserves h Value.Known (superMethod method address) m := by
  refine (conserves_trace hd _).bind fun _ h₁ m₁ hl₁ _ => ?_
  cases address with
  | hops depth =>
    refine (conserves_trace hl₁.describes _).bind fun _ h₂ m₂ hl₂ _ => .get_bind ?_
    refine (conserves_ofAccess hl₂.describes method fun v hv => hl₂.describes.getAt hv).bind ?_
    intro parent h₃ m₃ hl₃ hparent
    refine (conserves_trace hl₃.describes _).bind fun _ h₄ m₄ hl₄ _ => ?_
    have hreceiver : Conserves h₄ Value.Known
        (ofAccess method (m₂.frames.getAt m₂.env (depth - 1) "this")) m₄ :=
      conserves_ofAccess hl₄.describes method fun v hv =>
        (hl₂.describes.getAt hv).mono (hl₃.trans hl₄).le
    refine hreceiver.bind fun this h₅ m₅ hl₅ hthis => ?_
    refine (conserves_trace hl₅.describes _).bind fun _ h₆ m₆ hl₆ _ => ?_
    have hparent₆ : parent.Known h₆ := hparent.mono ((hl₄.trans hl₅).trans hl₆).le
    cases parent with
    | type c =>
      dsimp only
      refine (conserves_trace hl₆.describes _).bind fun _ h₇ m₇ hl₇ _ => ?_
      cases hf : c.findMethod? method.lexeme with
      | none => exact conserves_fail hl₇.describes method _
      | some f =>
        have hmethod : f.Known h₇ := (known_findMethod? hparent₆ hf).mono hl₇.le
        refine (conserves_bindReceiver hl₇.describes hmethod (hthis.mono (hl₆.trans hl₇).le)).bind ?_
        intro bound h₈ m₈ hl₈ hb
        exact .pure hl₈.describes hb
    | nil | bool | num | int | text | function | object | chain | native =>
      exact conserves_breakDown hl₆.describes _
  | slot | free =>
    exact (conserves_trace hl₁.describes _).bind fun _ _ _ hl₂ _ => conserves_breakDown hl₂.describes _

/-! ### Nodes -/

theorem conserves_evalExpr (hd : h.Describes m) (e : Expr) :
    Conserves h Value.Known (evalExpr rec e) m := by
  cases e with
  | gap => exact conserves_breakDown hd _
  | literal value =>
    refine .pure hd ?_
    cases value <;> trivial
  | grouping body => exact hrec (.expr body) h m hd
  | unary op right =>
    exact (hrec (.expr right) h m hd).bind fun v _ _ hl _ => conserves_unary hl.describes op v
  | binary left op right =>
    refine (hrec (.expr left) h m hd).bind fun v h₁ m₁ hl₁ _ => ?_
    exact (hrec (.expr right) h₁ m₁ hl₁.describes).bind fun w _ _ hl₂ _ =>
      conserves_binary hl₂.describes op v w
  | logical left op right =>
    refine (hrec (.expr left) h m hd).bind fun v h₁ m₁ hl₁ hv => ?_
    exact .ite (.pure hl₁.describes hv) (hrec (.expr right) h₁ m₁ hl₁.describes)
  | «variable» name address => exact conserves_read hd name address
  | assign name address value =>
    refine (hrec (.expr value) h m hd).bind fun v h₁ m₁ hl₁ hv => ?_
    refine (conserves_assign hl₁.describes name address hv).bind fun _ h₂ m₂ hl₂ _ => ?_
    exact .pure hl₂.describes (hv.mono hl₂.le)
  | call callee paren arguments =>
    refine (hrec (.expr callee) h m hd).bind fun v h₁ m₁ hl₁ hv => ?_
    refine (conserves_evalAll hrec hl₁.describes arguments).bind fun vs h₂ m₂ hl₂ hvs => ?_
    exact conserves_callChecked hrec hl₂.describes paren (hv.mono hl₂.le) hvs
  | lambda params body =>
    have hformed : Made.Formed h.links h.made m.fresh
        (.function ⟨m.fresh, none, params, body, m.env, false, false, false⟩) := ⟨rfl, hd.env⟩
    refine (conserves_fresh hd hformed).bind fun n h₁ m₁ hl₁ hn => .get_bind ?_
    obtain ⟨rfl, hmade⟩ := hn
    refine .pure hl₁.describes ?_
    -- the number is taken before the environment is read, which does not change in between
    rw [hl₁.env]
    exact hmade
  | get object name =>
    exact (hrec (.expr object) h m hd).bind fun v _ _ hl hv =>
      conserves_getProperty hrec hl.describes hv name
  | set object name value =>
    refine (hrec (.expr object) h m hd).bind fun v h₁ m₁ hl₁ hv => ?_
    cases v with
    | object o =>
      refine (hrec (.expr value) h₁ m₁ hl₁.describes).bind fun w h₂ m₂ hl₂ hw => ?_
      refine (conserves_setField hl₂.describes o name.lexeme hw).bind fun _ h₃ m₃ hl₃ _ => ?_
      exact .pure hl₃.describes (hw.mono hl₃.le)
    | nil | bool | num | int | text | function | type | chain | native =>
      exact conserves_fail hl₁.describes name _
  | this keyword address => exact conserves_read hd keyword address
  | super keyword method address => exact conserves_superMethod hd method address
  | inner keyword method address =>
    exact (conserves_trace hd _).bind fun _ _ _ hl _ => conserves_fail hl.describes keyword _

theorem conserves_initializer (hd : h.Describes m) (name : Token) (init : Expr) :
    Conserves h Value.Known (initializer rec name init) m := by
  have hinit := hrec (.expr init) h m hd
  unfold Conserves initializer
  cases hrun : rec (.expr init) m with
  | ok v m' => exact hinit.ok hrun
  | error e m' =>
    obtain ⟨h', hl, he⟩ := hinit.error hrun
    cases e with
    | fault token cause =>
      -- a fault that names the variable is passed over for what another frame holds
      dsimp only
      by_cases hname : token.lexeme = name.lexeme
      · rw [if_pos hname]
        rcases m'.env with _ | ⟨id, _ | ⟨id', outer⟩⟩
        · exact ⟨h', hl, trivial⟩
        · exact ⟨h', hl, trivial⟩
        · dsimp only
          cases hv : m'.frames.get (id' :: outer) name.lexeme with
          | ok value => exact ⟨h', hl, hl.describes.get hv⟩
          | error d => exact ⟨h', hl, trivial⟩
      · rw [if_neg hname]
        exact ⟨h', hl, trivial⟩
    | returned | delivered | broke | defect | exhausted => exact ⟨h', hl, he⟩

theorem conserves_loop (hd : h.Describes m) (condition : Expr) (body : Stmt) (rounds : Nat) :
    Conserves h Value.Known (loop rec condition body rounds) m := by
  induction rounds generalizing h m with
  | zero => exact .throw hd trivial
  | succ rounds ih =>
    unfold Conserves loop
    cases hc : rec (.expr condition) m with
    | error e m₁ => exact (hrec (.expr condition) h m hd).error hc
    | ok v m₁ =>
      obtain ⟨h₁, hl₁, -⟩ := (hrec (.expr condition) h m hd).ok hc
      dsimp only
      by_cases hv : v.isTruthy = true
      · rw [if_pos hv]
        have hbody := hrec (.stmt body) h₁ m₁ hl₁.describes
        cases hb : rec (.stmt body) m₁ with
        | ok w m₂ =>
          obtain ⟨h₂, hl₂, -⟩ := hbody.ok hb
          exact Conserves.after (hl₁.trans hl₂) (ih hl₂.describes)
        | error e m₂ =>
          obtain ⟨h₂, hl₂, he⟩ := hbody.error hb
          cases e with
          | broke => exact ⟨h₂, hl₁.trans hl₂, trivial⟩
          | returned | delivered | fault | defect | exhausted => exact ⟨h₂, hl₁.trans hl₂, he⟩
      · rw [if_neg hv]
        exact ⟨h₁, hl₁, trivial⟩

omit hrec in
theorem conserves_closureOf (hd : h.Describes m) (f : Function) (hp : Path h.links env) (isInit : Bool) :
    Conserves h Closure.Known (closureOf f env isInit) m := by
  have hformed : Made.Formed h.links h.made m.fresh (.function
      ⟨m.fresh, some f.name.lexeme, f.params, f.body, env, isInit, f.isGetter, f.isStatic⟩) :=
    ⟨rfl, hp⟩
  refine (conserves_fresh hd hformed).bind fun n h₁ m₁ hl₁ hn => ?_
  obtain ⟨rfl, hmade⟩ := hn
  exact .pure hl₁.describes hmade

omit hrec in
theorem conserves_methodTable (hd : h.Describes m) (hp : Path h.links env) (methods : List Function)
    {table : Table Closure} (ht : table.Every (Closure.Known h)) :
    Conserves h (fun h' table => table.Every (Closure.Known h')) (methodTable env methods table)
      m := by
  induction methods generalizing h m table with
  | nil => exact .pure hd ht
  | cons f fs ih =>
    refine (conserves_closureOf hd f hp _).bind fun closure h₁ m₁ hl₁ hc => ?_
    exact ih hl₁.describes (hp.mono hl₁.le.1)
      ((ht.mono fun _ hf => hf.mono hl₁.le).insert f.name.lexeme hc)

omit hrec in
theorem conserves_parentClass (hd : h.Describes m) (superclass? : Option (Token × Address)) :
    Conserves h (fun h' parent? => ∀ c ∈ parent?, c.Known h') (parentClass superclass?) m := by
  rcases superclass? with _ | ⟨name, address⟩
  · exact .pure hd (by simp)
  · refine (conserves_read hd name address).bind fun v h₁ m₁ hl₁ hv => ?_
    cases v with
    | type c =>
      refine .pure hl₁.describes ?_
      rintro _ ⟨⟩
      exact hv
    | nil | bool | num | int | text | function | object | chain | native =>
      exact conserves_fail hl₁.describes name _

omit hrec in
theorem conserves_methodEnv (hd : h.Describes m) (hp : Path h.links env) {parent? : Option Class}
    (hc : ∀ c ∈ parent?, c.Known h) :
    Conserves h (fun h' env' => Path h'.links env') (methodEnv env parent?) m := by
  cases parent? with
  | none => exact .pure hd hp
  | some c =>
    have hvars : (Table.empty.insert "super" (.type c)).Every (Value.Known h) :=
      Table.Every.empty.insert "super" (show (Value.type c).Known h from hc c rfl)
    refine (conserves_openFrame hd hp hvars).bind fun i h₁ m₁ hl₁ hpath => ?_
    exact .pure hl₁.describes hpath

omit hrec in
theorem conserves_declareClass (hd : h.Describes m) (name : Token)
    (superclass? : Option (Token × Address)) (methods : List Function) :
    Conserves h Any (declareClass name superclass? methods) m := by
  refine (conserves_parentClass hd superclass?).bind fun parent? h₁ m₁ hl₁ hparent => ?_
  refine (conserves_define hl₁.describes name name.lexeme (v := .nil) trivial).bind ?_
  intro _ h₂ m₂ hl₂ _
  refine .get_bind ?_
  have hparent₂ : ∀ c ∈ parent?, c.Known h₂ := fun c hc => (hparent c hc).mono hl₂.le
  refine (conserves_methodEnv hl₂.describes hl₂.describes.env hparent₂).bind ?_
  intro env h₃ m₃ hl₃ hpath
  refine (conserves_methodTable hl₃.describes hpath methods .empty).bind fun table h₄ m₄ hl₄ ht => ?_
  -- the superclass and the methods are recorded by now, so they come before the new class
  have hparent₄ : ∀ c ∈ parent?, c.Known h₄ := fun c hc => (hparent₂ c hc).mono (hl₃.trans hl₄).le
  refine (conserves_fresh hl₄.describes
    (hl₄.describes.formed_type hparent₄ ht name.lexeme (!·.isStatic) (·.isStatic))).bind ?_
  intro n h₅ m₅ hl₅ hn
  obtain ⟨rfl, hmade⟩ := hn
  refine .get_bind ?_
  refine (conserves_ofAccess_any hl₅.describes name _).bind ?_
  intro id h₆ m₆ hl₆ _
  exact conserves_writeAt hl₆.describes id name.lexeme
    (Value.Known.mono hl₆.le (show (Value.type _).Known h₅ from hmade))

theorem conserves_execStmt (hd : h.Describes m) (rounds : Nat) (s : Stmt) :
    Conserves h Value.Known (execStmt rec rounds s) m := by
  cases s with
  | gap => exact conserves_breakDown hd _
  | bare value => exact hrec (.expr value) h m hd
  | expression value =>
    exact (hrec (.expr value) h m hd).bind fun _ _ _ hl _ => .pure hl.describes trivial
  | print value =>
    refine (hrec (.expr value) h m hd).bind fun v h₁ m₁ hl₁ _ => ?_
    refine (conserves_trace hl₁.describes _).bind fun _ h₂ m₂ hl₂ _ => ?_
    refine (conserves_ofExcept_any hl₂.describes _).bind ?_
    intro text h₃ m₃ hl₃ _
    exact (conserves_write hl₃.describes _).bind fun _ _ _ hl₄ _ => .pure hl₄.describes trivial
  | varDecl name init? =>
    cases init? with
    | none =>
      exact (conserves_define hd name name.lexeme (v := .nil) trivial).bind fun _ _ _ hl _ =>
        .pure hl.describes trivial
    | some init =>
      refine (conserves_initializer hrec hd name init).bind fun v h₁ m₁ hl₁ hv => ?_
      exact (conserves_define hl₁.describes name name.lexeme hv).bind fun _ _ _ hl₂ _ =>
        .pure hl₂.describes trivial
  | block body =>
    refine .get_bind ((conserves_execIn hrec hd hd.env .empty body).bind fun _ _ _ hl _ => ?_)
    exact .pure hl.describes trivial
  | ifStmt condition onTrue onFalse? =>
    refine (hrec (.expr condition) h m hd).bind fun v h₁ m₁ hl₁ _ => .ite ?_ ?_
    · exact (hrec (.stmt onTrue) h₁ m₁ hl₁.describes).bind fun _ _ _ hl₂ _ =>
        .pure hl₂.describes trivial
    · cases onFalse? with
      | none => exact .pure hl₁.describes trivial
      | some onFalse =>
        exact (hrec (.stmt onFalse) h₁ m₁ hl₁.describes).bind fun _ _ _ hl₂ _ =>
          .pure hl₂.describes trivial
  | whileStmt condition body => exact conserves_loop hrec hd condition body rounds
  | breakStmt keyword => exact .throw hd trivial
  | funDecl f =>
    refine .get_bind ?_
    refine (conserves_closureOf hd f hd.env false).bind fun closure h₁ m₁ hl₁ hc => ?_
    refine (conserves_define hl₁.describes f.name f.name.lexeme
      (show (Value.function closure).Known h₁ from hc)).bind fun _ _ _ hl₂ _ => ?_
    exact .pure hl₂.describes trivial
  | classDecl name superclass? methods =>
    exact (conserves_declareClass hd name superclass? methods).bind fun _ _ _ hl _ =>
      .pure hl.describes trivial
  | returnStmt keyword value? =>
    cases value? with
    | none => exact .throw hd trivial
    | some value =>
      exact (hrec (.expr value) h m hd).bind fun v _ _ hl hv => .throw hl.describes hv

end Recursive

/-- However running a node ends, it ends in the environment in which it started, with a heap in which
all that was made before is unchanged. -/
theorem conserves_run (depth : Nat) (node : Node) (h : Heap) (m : Machine) (hd : h.Describes m) :
    Conserves h Value.Known (run depth node) m := by
  induction depth generalizing node h m with
  | zero => exact .throw hd trivial
  | succ depth ih =>
    cases node with
    | expr e => exact conserves_evalExpr ih hd e
    | stmt s => exact conserves_execStmt ih hd depth s

end Eval

end Lox
