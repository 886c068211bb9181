import Lox.Proofs.Machine.Covenant

/-!
# Running nodes under a covenant

Running a node that a lawful covenant allows keeps the machine honouring it, comes to nothing but nodes
that the covenant allows, and does the same on the machine with its frames changed.
-/

namespace Lox

open Eval Outcome

theorem Eval.initializer_of_fault {rec : Recur} (name : Token) {init : Expr} {token : Token}
    {fault : Fault} {m m' : Machine} (h : rec (.expr init) m = .error (.fault token fault) m') :
    initializer rec name init m =
      if token.lexeme = name.lexeme then
        if m'.env.length ≤ 1 then .ok .nil m'
        else
          match m'.frames.get (m'.env.drop 1) name.lexeme with
          | .ok value => .ok value m'
          | .error _ => .error (.fault token fault) m'
      else .error (.fault token fault) m' := by
  unfold initializer
  rw [h]
  dsimp only
  split
  · rcases m'.env with _ | ⟨id, _ | ⟨next, rest⟩⟩
    · rfl
    · rfl
    · rw [if_neg (by simp)]
      rfl
  · rfl

namespace Covenant

variable {C : Covenant} {depth : Nat} {node : Node} {m : Machine} {rec : Recur}

/-- A node is being run. What it reaches is run, on the changed machine, by a computation that agrees
there with the machine's own. -/
structure Stage (C : Covenant) (depth : Nat) (node : Node) (m : Machine) (rec : Recur) : Prop where
  fair : C.Fair
  runs : C.runs ⟨depth + 1, node, m⟩
  keeps : ∀ {n : Node} {s : Machine}, C.runs ⟨depth, n, s⟩ → s.Honours C →
    C.Keeps (run depth n) (run depth n) s C.holds
  agrees : ∀ {n : Node} {s : Machine}, Reaches depth node m n s → C.runs ⟨depth, n, s⟩ →
    s.Honours C → Mirrors C.image id id (run depth n) (rec n) s

namespace Stage

variable {m₁ : Machine}

/-- What the node reaches is run in the same way. -/
theorem child (st : C.Stage depth node m rec) {n : Node} {s : Machine}
    (hr : Reaches depth node m n s) (hn : C.runs ⟨depth, n, s⟩) (hs : s.Honours C) :
    C.Keeps (rec n) (run depth n) s C.holds :=
  ⟨st.agrees hr hn hs, (st.keeps hn hs).2⟩

/-- A part of the node is run in the environment of the node. -/
theorem part (st : C.Stage depth node m rec) {n : Node} {s : Machine}
    (hr : Reaches depth node m n s) (hp : n ∈ node.parts) (ha : C.After m s) :
    C.Keeps (rec n) (run depth n) s C.holds :=
  st.child hr (st.fair.part st.runs hr hp ha) ha.honours

/-! ### Bodies -/

theorem keeps_execAll (st : C.Stage depth node m rec) {body : List Stmt} {start : Machine}
    (hr : ∀ before s after u m', body = before ++ s :: after →
      execAll (run depth) before start = .ok u m' → C.After start m' →
        Reaches depth node m (.stmt s) m' ∧ C.runs ⟨depth, .stmt s, m'⟩)
    (ss before after : List Stmt) {u : Unit} (hb : body = before ++ (ss ++ after))
    (h : execAll (run depth) before start = .ok u m₁) (ha : C.After start m₁) :
    C.Keeps (execAll rec ss) (execAll (run depth) ss) m₁ fun _ _ => True := by
  -- The statements before lead to the machine, so that each statement is reached from the node.
  induction ss generalizing before m₁ u with
  | nil => exact st.fair.keeps_pure ha.honours trivial
  | cons s ss ih =>
    obtain ⟨hreach, hruns⟩ := hr before s (ss ++ after) u m₁ hb h ha
    refine (st.child hreach hruns ha.honours).bind st.fair fun v m₂ hrun ha₂ _ => ?_
    exact ih (before ++ [s]) (by simp [hb]) (execAll_snoc h hrun) (st.fair.after_trans ha ha₂)

theorem keeps_execIn (st : C.Stage depth node m rec) {body : List Stmt} {env : Env}
    {vars : Table Value}
    (hr : ∀ before s after u m', body = before ++ s :: after →
      execAll (run depth) before (m₁.enter env vars) = .ok u m' → C.After (m₁.enter env vars) m' →
          Reaches depth node m (.stmt s) m' ∧ C.runs ⟨depth, .stmt s, m'⟩)
    (ho : C.Opens m₁ vars) (hv : vars.All (Value.Obeys (C.policy m₁.frames))) (hm : m₁.Honours C) :
    C.Keeps (execIn rec env vars body) (execIn (run depth) env vars body) m₁ fun _ _ => True := by
  refine st.fair.keeps_openFrame_bind hm ho hv fun ha => ?_
  have henter : (m₁.enter env vars).Honours C := honours_congr ha.honours rfl rfl
  exact (st.keeps_execAll hr body [] [] (by simp) rfl (st.fair.after_refl henter)).within

theorem keeps_apply (st : C.Stage depth node m rec) {f : Closure} {args : List Value}
    (ha : Applies depth node m f args m₁) (hf : C.callable m₁.frames f)
    (hargs : ∀ a ∈ args, C.holds a m₁) (hm : m₁.Honours C) :
    C.Keeps (apply rec f args) (apply (run depth) f args) m₁ C.holds := by
  have hl := st.fair
  refine (hl.keeps_receiver hm f).bind hl ?_
  rintro this m₂ hthis - ⟨rfl, hholds⟩
  have hsize : (C.image m₂).frames.size = m₂.frames.size := (hl.alike hm).size
  refine .get_bind ?_
  rw [hsize]
  refine hl.keeps_ofExcept_bind hm fun vars hvars => ?_
  have hstarts : Starts f args m₂ vars := ⟨this, hthis, hvars⟩
  have hbody := st.keeps_execIn
    (fun before s after u m' hb h hm' =>
      ⟨.call ha hstarts hb h, hl.call st.runs ha hstarts hm hf hb h hm'⟩)
    (.call hf hstarts) (Policy.obeys_callVars hvars hholds hargs) hm
  refine hbody.deliver.bind hl fun result m₃ _ ha₃ hresult => ?_
  split
  · refine (hl.keeps_receiver ha₃.honours f).mono ?_
    rintro v m' - - ⟨rfl, hv⟩
    exact hv
  · exact hl.keeps_pure ha₃.honours hresult

/-! ### Methods -/

theorem keeps_applyMethod (st : C.Stage depth node m rec) {f : Closure} {o : Object}
    {args : List Value} (hb : Binds depth node m f o (some args) m₁)
    (hf : C.waiting m₁.frames f) (hc : C.holds (.object o) m₁) (hargs : ∀ a ∈ args, C.holds a m₁)
    (hm : m₁.Honours C) :
    C.Keeps (bindReceiver f (.object o) >>= fun bound => apply rec bound args)
      (bindReceiver f (.object o) >>= fun bound => apply (run depth) bound args) m₁ C.holds := by
  refine st.fair.keeps_bindReceiver_bind hm f (.receiver o) hc fun ha => ?_
  exact st.keeps_apply (.method hb) (st.fair.bind st.runs hb hf)
    (fun a h => st.fair.holds_mono ha.grows (hargs a h)) ha.honours

section Call

variable {callee : Expr} {paren : Token} {arguments : List Expr}

variable {v : Value} {m₁ m₂ : Machine} {args : List Value}

theorem keeps_evalAll (st : C.Stage depth (.expr (.call callee paren arguments)) m rec)
    (hc : run depth (.expr callee) m = .ok v m₁) (es before after : List Expr)
    {vs : List Value} (hb : arguments = before ++ (es ++ after))
    (h : evalAll (run depth) before m₁ = .ok vs m₂) (ha : C.After m m₂) :
    C.Keeps (evalAll rec es) (evalAll (run depth) es) m₂ fun us m' => ∀ u ∈ us, C.holds u m' := by
  have hl := st.fair
  induction es generalizing before m₂ vs with
  | nil => exact hl.keeps_pure ha.honours (by simp)
  | cons e es ih =>
    have hreach : Reaches depth (.expr (.call callee paren arguments)) m (.expr e) m₂ :=
      .argument hb hc h
    refine (st.part hreach (by simp [Node.parts, hb]) ha).bind hl fun u m₃ hrun ha₃ hu => ?_
    refine (ih (before ++ [e]) (by simp [hb]) (evalAll_snoc h hrun) (hl.after_trans ha ha₃)).bind hl ?_
    intro us m₄ _ ha₄ hus
    exact hl.keeps_pure ha₄.honours (List.forall_mem_cons.2 ⟨hl.holds_mono ha₄.grows hu, hus⟩)

theorem keeps_applyChain (st : C.Stage depth (.expr (.call callee paren arguments)) m rec) {id : Nat}
    {all : List Closure} {o : Object} {m₃ : Machine}
    (hc : run depth (.expr callee) m = .ok (.chain id all o) m₁)
    (ha : evalAll (run depth) arguments m₁ = .ok args m₂)
    (hn : arity? (.chain id all o) = some args.length) (methods before after : List Closure)
    {r : Value} (hb : all = before ++ (methods ++ after))
    (h : applyChain (run depth) o args before .nil m₂ = .ok r m₃)
    (hall : ∀ f ∈ methods, C.waiting m₃.frames f) (hclass : C.holds (.object o) m₃)
    (hargs : ∀ a ∈ args, C.holds a m₃) (hr : C.holds r m₃) (hm : m₃.Honours C) :
    C.Keeps (applyChain rec o args methods r) (applyChain (run depth) o args methods r) m₃
      C.holds := by
  have hl := st.fair
  induction methods generalizing before m₃ r with
  | nil => exact hl.keeps_pure hm hr
  | cons f methods ih =>
    have hbinds : Binds depth (.expr (.call callee paren arguments)) m f o (some args) m₃ := by
      subst hb
      exact .chained hc ha hn h
    have hf := st.keeps_applyMethod hbinds (hall f (by simp)) hclass hargs hm
    refine hf.catchReturn.bind hl fun v m₄ hrun ha₄ hv => ?_
    exact ih (before ++ [f]) (by simp [hb]) (applyChain_snoc h hrun)
      (fun g hg => hl.waiting_mono ha₄.grows (hall g (by simp [hg])))
      (hl.holds_mono ha₄.grows hclass) (fun a h => hl.holds_mono ha₄.grows (hargs a h)) hv ha₄.honours

/-- Making an instance runs its initializer. -/
theorem keeps_construct (st : C.Stage depth (.expr (.call callee paren arguments)) m rec) {c : Class}
    (hc : run depth (.expr callee) m = .ok (.type c) m₁)
    (ha : evalAll (run depth) arguments m₁ = .ok args m₂) (hn : args.length = c.arity)
    (hclass : c.Obeys (C.policy m₂.frames)) (hargs : ∀ a ∈ args, C.holds a m₂) (hm : m₂.Honours C) :
    C.Keeps (construct rec c args) (construct (run depth) c args) m₂ C.holds := by
  have hl := st.fair
  have hnew := hl.after_newObject hm
  refine hl.keeps_step rfl rfl hnew ?_
  cases hi : c.findMethod? "init" with
  | none => exact hl.keeps_pure hnew.honours hclass
  | some init =>
    have hb : Binds depth (.expr (.call callee paren arguments)) m init ⟨m₂.fields.size, c⟩
        (some args) { m₂ with fields := m₂.fields.push .empty } := .initializer hc ha hn hi
    have hbound := hl.bind st.runs hb (hclass.findMethod? hi)
    refine hl.keeps_bindReceiver_bind hnew.honours init (.receiver ⟨m₂.fields.size, c⟩) hclass
      fun ha₃ => ?_
    have happly := st.keeps_apply (.method hb) hbound
      (fun a h => hl.holds_mono ha₃.grows (hargs a h)) ha₃.honours
    refine happly.bind hl fun _ m₄ _ ha₄ _ => hl.keeps_pure ha₄.honours ?_
    exact hl.class_mono ha₄.grows (hl.class_mono ha₃.grows hclass)

/-- Calling a value with so many arguments as it takes. -/
theorem keeps_call (st : C.Stage depth (.expr (.call callee paren arguments)) m rec)
    (hc : run depth (.expr callee) m = .ok v m₁)
    (ha : evalAll (run depth) arguments m₁ = .ok args m₂) (hn : arity? v = some args.length)
    (hv : C.holds v m₂) (hargs : ∀ a ∈ args, C.holds a m₂) (hm : m₂.Honours C) :
    C.Keeps (call rec v args) (call (run depth) v args) m₂ C.holds := by
  cases v with
  | function f => exact st.keeps_apply (.function hc ha (Option.some.inj hn).symm) hv hargs hm
  | type c => exact st.keeps_construct hc ha (Option.some.inj hn).symm hv hargs hm
  | chain id methods o =>
    exact st.keeps_applyChain hc ha hn methods [] [] (by simp) rfl hv.1 hv.2 hargs trivial hm
  | native n => exact st.fair.keeps_applyNative hm n hargs
  | _ => cases hn

theorem keeps_callChecked (st : C.Stage depth (.expr (.call callee paren arguments)) m rec)

    (hc : run depth (.expr callee) m = .ok v m₁)
    (ha : evalAll (run depth) arguments m₁ = .ok args m₂) (hv : C.holds v m₂)
    (hargs : ∀ a ∈ args, C.holds a m₂) (hm : m₂.Honours C) :
    C.Keeps (callChecked rec paren v args) (callChecked (run depth) paren v args) m₂ C.holds := by
  unfold callChecked
  cases hn : arity? v with
  | none => exact st.fair.keeps_fail hm paren _
  | some arity =>
    dsimp only
    split
    · exact st.fair.keeps_fail_bind hm _ _ _ _
    · next hne =>
      have hlen : args.length = arity := Decidable.not_not.1 hne
      rw [← hlen] at hn
      exact (st.keeps_call hc ha hn hv hargs hm).catchReturn

end Call

/-! ### Properties -/

theorem keeps_property {object : Expr} {name : Token}
    (st : C.Stage depth (.expr (.get object name)) m rec) {o : Object}
    (hrun : run depth (.expr object) m = .ok (.object o) m₁) (hc : C.holds (.object o) m₁)
    (hm : m₁.Honours C) :
    C.Keeps (property rec o name) (property (run depth) o name) m₁ C.holds := by
  have hl := st.fair
  refine hl.keeps_step (a := (m₁.fields[o.id]?).bind (·.get? name.lexeme)) rfl rfl
    (hl.after_refl hm) ?_
  cases hv : (m₁.fields[o.id]?).bind (·.get? name.lexeme) with
  | some v => exact hl.keeps_pure hm (Policy.obeys_field hm hv)
  | none =>
    dsimp only
    cases hfound : o.type.findMethod? name.lexeme with
    | none => exact hl.keeps_fail hm name _
    | some found =>
      have hwaiting : ∀ f ∈ o.type.methodChain name.lexeme, C.waiting m₁.frames f :=
        fun f hf => Class.Obeys.methodChain hc hf
      dsimp only
      cases hf : o.type.methodChain name.lexeme with
      | nil =>
        exact hl.keeps_fresh_bind hm fun hfresh => hl.keeps_pure hfresh ⟨by simp, hc⟩
      | cons f rest =>
        rw [hf] at hwaiting
        cases rest with
        | cons g rest =>
          exact hl.keeps_fresh_bind hm fun hfresh => hl.keeps_pure hfresh ⟨hwaiting, hc⟩
        | nil =>
          have hb : Binds depth (.expr (.get object name)) m f o
              (if f.isGetter then some [] else none) m₁ :=
            .property hrun hv (by rw [hfound]; rfl) hf
          have hbound := hl.bind st.runs hb (hwaiting f (by simp))
          refine hl.keeps_bindReceiver_bind hm f (.receiver o) hc fun ha => ?_
          split
          · next hget =>
            change f.isGetter = true at hget
            rw [if_pos hget] at hb
            exact (st.keeps_apply (.method hb) hbound (by simp) ha.honours).catchReturn
          · exact hl.keeps_pure ha.honours hbound

theorem keeps_getProperty {object : Expr} {name : Token}
    (st : C.Stage depth (.expr (.get object name)) m rec) {v : Value}
    (hrun : run depth (.expr object) m = .ok v m₁) (hv : C.holds v m₁) (hm : m₁.Honours C) :
    C.Keeps (getProperty rec v name) (getProperty (run depth) v name) m₁ C.holds := by
  cases v with
  | object o => exact st.keeps_property hrun hv hm
  | type c =>
    unfold getProperty
    dsimp only
    cases hf : c.findStatic? name.lexeme with
    | some f => exact st.fair.keeps_pure hm (Class.Obeys.findStatic? hv hf)
    | none => exact st.fair.keeps_fail hm name _
  | _ => exact st.fair.keeps_fail hm name _

theorem keeps_superMethod {keyword method : Token} {address : Address}
    (st : C.Stage depth (.expr (.super keyword method address)) m rec) (hm : m.Honours C) :
    C.Keeps (superMethod method address) (superMethod method address) m C.holds := by
  have hl := st.fair
  refine (hl.keeps_trace hm _).bind hl fun _ m₁ _ ha₁ hf₁ => ?_
  cases address with
  | hops distance =>
    refine (hl.keeps_trace ha₁.honours _).bind hl fun _ m₂ _ ha₂ hf₂ => .get_bind ?_
    have hlike := hl.alike ha₂.honours
    have hframes₂ : m₂.frames = m.frames := hf₂.trans hf₁
    have henv₂ : m₂.env = m.env := ha₂.env.trans ha₁.env
    refine hl.keeps_ofAccess_bind (hlike.getAt ha₂.honours.values m₂.env distance "super")
      ha₂.honours method fun parent hparent => ?_
    refine (hl.keeps_trace ha₂.honours _).bind hl fun _ m₃ _ ha₃ hf₃ => ?_
    refine hl.keeps_ofAccess_bind (hlike.getAt ha₂.honours.values m₂.env (distance - 1) "this")
      ha₃.honours method fun this hthis => ?_
    refine (hl.keeps_trace ha₃.honours _).bind hl fun _ m₄ _ ha₄ hf₄ => ?_
    have hholds : C.holds parent m₂ := Policy.obeys_getAt ha₂.honours hparent
    rw [hframes₂, henv₂] at hparent hthis
    cases parent with
    | type c =>
      refine (hl.keeps_trace ha₄.honours _).bind hl fun _ m₅ _ ha₅ hf₅ => ?_
      have hframes₅ : m₅.frames = m.frames := hf₅.trans (hf₄.trans (hf₃.trans hframes₂))
      cases hfound : c.findMethod? method.lexeme with
      | none => exact hl.keeps_fail ha₅.honours method _
      | some f =>
        have hwaiting : C.waiting m.frames f := by
          have := Class.Obeys.findMethod? hholds hfound
          rwa [hframes₂] at this
        have hbound : C.callable (m₅.receive this).frames (f.received m₅) :=
          hl.inherit st.runs hparent hthis hfound hframes₅ hwaiting
        have hopens : C.Opens m₅ (Table.empty.insert "this" this) := by
          rw [← hframes₅] at hthis
          exact .inherited hthis
        have hvalue : C.holds this m₅ := by
          unfold holds
          rw [hframes₅]
          exact Policy.obeys_getAt hm hthis
        exact hl.keeps_bindReceiver_bind ha₅.honours f hopens hvalue fun ha₆ =>
          hl.keeps_pure ha₆.honours hbound
    | _ => exact hl.keeps_breakDown ha₄.honours _
  | slot | free =>
    exact (hl.keeps_trace ha₁.honours _).bind hl fun _ _ _ ha₂ _ => hl.keeps_breakDown ha₂.honours _

/-! ### Expressions -/

theorem keeps_evalExpr {e : Expr} (st : C.Stage depth (.expr e) m rec) (hm : m.Honours C) :
    C.Keeps (evalExpr rec e) (evalExpr (run depth) e) m C.holds := by
  have hl := st.fair
  have hself := hl.after_refl hm
  cases e with
  | gap => exact hl.keeps_breakDown hm _
  | literal value => cases value <;> exact hl.keeps_pure hm trivial
  | grouping body => exact st.part .grouping (by simp [Node.parts]) hself
  | unary op right =>
    refine (st.part .unary (by simp [Node.parts]) hself).bind hl ?_
    exact fun v m₁ _ ha₁ _ => hl.keeps_unary ha₁.honours op v
  | binary left op right =>
    refine (st.part .binaryLeft (by simp [Node.parts]) hself).bind hl fun u m₁ hu ha₁ _ => ?_
    refine (st.part (.binaryRight hu) (by simp [Node.parts]) ha₁).bind hl ?_
    exact fun v m₂ _ ha₂ _ => hl.keeps_binary ha₂.honours op u v
  | logical left op right =>
    refine (st.part .logicalLeft (by simp [Node.parts]) hself).bind hl fun u m₁ hu ha₁ hv => ?_
    split
    · exact hl.keeps_pure ha₁.honours hv
    · next hne =>
      exact st.part (.logicalRight hu (by simpa using hne)) (by simp [Node.parts]) ha₁
  | «variable» name address | this name address =>
    refine (hl.keeps_read hm name address).mono ?_
    rintro v m' - - ⟨rfl, hv⟩
    exact hv
  | assign name address value =>
    refine (st.part .assigned (by simp [Node.parts]) hself).bind hl fun v m₁ _ ha₁ hv => ?_
    refine (hl.keeps_assign st.runs ha₁.env ha₁.honours hv).bind hl fun _ m₂ _ ha₂ _ => ?_
    exact hl.keeps_pure ha₂.honours (hl.holds_mono ha₂.grows hv)
  | call callee paren arguments =>
    refine (st.part .callee (by simp [Node.parts]) hself).bind hl fun v m₁ hc ha₁ hv => ?_
    refine (st.keeps_evalAll hc arguments [] [] (by simp) rfl ha₁).bind hl ?_
    exact fun args m₂ ha ha₂ hargs =>
      st.keeps_callChecked hc ha (hl.holds_mono ha₂.grows hv) hargs ha₂.honours
  | lambda params body =>
    exact hl.keeps_fresh_bind hm fun hfresh =>
      .get_bind (hl.keeps_pure hfresh (hl.lambda st.runs))
  | get object name =>
    refine (st.part .getObject (by simp [Node.parts]) hself).bind hl fun v m₁ hrun ha₁ hv => ?_
    exact st.keeps_getProperty hrun hv ha₁.honours
  | set object name value =>
    refine (st.part .setObject (by simp [Node.parts]) hself).bind hl fun v m₁ hrun ha₁ _ => ?_
    cases v with
    | object o =>
      refine (st.part (.setValue hrun) (by simp [Node.parts]) ha₁).bind hl fun u m₂ _ ha₂ hu => ?_
      refine (hl.keeps_setField ha₂.honours hu).bind hl fun _ m₃ _ ha₃ _ => ?_
      exact hl.keeps_pure ha₃.honours (hl.holds_mono ha₃.grows hu)
    | _ => exact hl.keeps_fail ha₁.honours name _
  | super keyword method address => exact st.keeps_superMethod hm
  | inner keyword method address =>
    exact (hl.keeps_trace hm _).bind hl fun _ m₁ _ ha₁ _ => hl.keeps_fail ha₁.honours keyword _

/-! ### Statements -/

theorem keeps_loop {condition : Expr} {body : Stmt}
    (st : C.Stage depth (.stmt (.whileStmt condition body)) m rec) (rounds : Nat)
    (hr : Rounds depth condition body m m₁) (ha : C.After m m₁) :
    C.Keeps (loop rec condition body rounds) (loop (run depth) condition body rounds) m₁
      C.holds := by
  have hl := st.fair
  -- What a round reaches is reached from the loop by way of all rounds before it.
  induction rounds generalizing m₁ with
  | zero => exact hl.keeps_throw ha.honours trivial
  | succ rounds ih =>
    have hc := st.part (.loopCondition hr) (by simp [Node.parts]) ha
    cases hcond : run depth (.expr condition) m₁ with
    | error e m₂ =>
      refine .of_error ?_ ?_ (hc.error hcond).1 (hc.error hcond).2
      · unfold loop
        rw [hc.1.error hcond]
        rfl
      · unfold loop
        rw [hcond]
    | ok v m₂ =>
      have ha₂ := (hc.ok hcond).1
      have hrec := hc.1.ok hcond
      by_cases hv : v.isTruthy = true
      · have hb := st.part (.loopBody hr hcond hv) (by simp [Node.parts]) (hl.after_trans ha ha₂)
        cases hbody : run depth (.stmt body) m₂ with
        | ok u m₃ =>
          have ha₃ := hl.after_trans ha₂ (hb.ok hbody).1
          have hbrec := hb.1.ok hbody
          refine .of_after hl ha₃ ?_ ?_ (ih (hr.next hcond hv hbody) (hl.after_trans ha ha₃))
          · conv => lhs; unfold loop
            rw [hrec]
            dsimp only [id]
            rw [if_pos hv, hbrec]
          · conv => lhs; unfold loop
            rw [hcond]
            dsimp only
            rw [if_pos hv, hbody]
        | error e m₃ =>
          have ha₃ := hl.after_trans ha₂ (hb.error hbody).1
          have hbrec := hb.1.error hbody
          have hexit := (hb.error hbody).2
          cases e with
          | broke =>
            refine .of_ok (a := .nil) ?_ ?_ ha₃ trivial
            · unfold loop
              rw [hrec]
              dsimp only [id]
              rw [if_pos hv, hbrec]
              rfl
            · unfold loop
              rw [hcond]
              dsimp only
              rw [if_pos hv, hbody]
          | _ =>
            refine .of_error ?_ ?_ ha₃ hexit
            · unfold loop
              rw [hrec]
              dsimp only [id]
              rw [if_pos hv, hbrec]
              rfl
            · unfold loop
              rw [hcond]
              dsimp only
              rw [if_pos hv, hbody]
      · refine .of_ok (a := .nil) ?_ ?_ ha₂ trivial
        · unfold loop
          rw [hrec]
          dsimp only [id]
          rw [if_neg hv]
        · unfold loop
          rw [hcond]
          dsimp only
          rw [if_neg hv]

end Stage

/-! ### Declarations -/

namespace Fair

variable (hl : C.Fair)

include hl

theorem keeps_initializer {name : Token} {init : Expr} (hp : C.plain name.lexeme)
    (hinit : C.Keeps (rec (.expr init)) (run depth (.expr init)) m C.holds) :
    C.Keeps (initializer rec name init) (initializer (run depth) name init) m C.holds := by
  cases hrun : run depth (.expr init) m with
  | ok v m' =>
    refine .of_ok ?_ ?_ (hinit.ok hrun).1 (hinit.ok hrun).2
    · unfold initializer
      rw [hinit.1.ok hrun]
      rfl
    · unfold initializer
      rw [hrun]
  | error e m' =>
    obtain ⟨ha, hexit⟩ := hinit.error hrun
    have hrec := hinit.1.error hrun
    cases e with
    | fault token fault =>
      have hx := initializer_of_fault name hrec
      have hy := initializer_of_fault name hrun
      have hget : (C.image m').frames.get (m'.env.drop 1) name.lexeme =
          m'.frames.get (m'.env.drop 1) name.lexeme :=
        (hl.alike ha.honours).get ha.honours.values hp _
      rw [show (C.image m').env = m'.env from rfl, hget] at hx
      by_cases hname : token.lexeme = name.lexeme
      · rw [if_pos hname] at hx hy
        by_cases hlen : m'.env.length ≤ 1
        · rw [if_pos hlen] at hx hy
          exact .of_ok hx hy ha trivial
        · rw [if_neg hlen] at hx hy
          cases hvalue : m'.frames.get (m'.env.drop 1) name.lexeme with
          | error d =>
            rw [hvalue] at hx hy
            exact .of_error hx hy ha trivial
          | ok v =>
            rw [hvalue] at hx hy
            exact .of_ok hx hy ha (Policy.obeys_get ha.honours hvalue)
      · rw [if_neg hname] at hx hy
        exact .of_error hx hy ha trivial
    | _ =>
      refine .of_error ?_ ?_ ha hexit
      · unfold initializer
        rw [hrec]
        rfl
      · unfold initializer
        rw [hrun]

/-- The methods of a class are as the covenant asks. -/
theorem keeps_methodTable {frames : Frames} (hm : m.Honours C) (hframes : m.frames = frames)
    {env : Env} {fs : List Function} {table : Table Closure}
    (hf : ∀ f ∈ fs, ∀ id, (C.policy frames).allows (f.made id env (f.name.lexeme = "init")))
    (ht : table.Every (C.policy frames).allows) :
    C.Keeps (methodTable env fs table) (methodTable env fs table) m fun table' m' =>
      m'.frames = frames ∧ table'.Every (C.policy frames).allows := by
  induction fs generalizing m table with
  | nil => exact hl.keeps_pure hm ⟨hframes, ht⟩
  | cons f fs ih =>
    refine hl.keeps_closureOf_bind hm f env _ fun hfresh =>
      ih hfresh hframes (fun g hg => hf g (by simp [hg])) ?_
    intro entry hentry
    rcases Table.mem_entries_insert hentry with hentry | rfl
    · exact ht entry hentry
    · exact hf f (by simp) m.fresh

theorem keeps_parentClass (hm : m.Honours C) (superclass? : Option (Token × Address)) :
    C.Keeps (parentClass superclass?) (parentClass superclass?) m fun parent? m' =>
      m' = m ∧ ∀ c ∈ parent?, c.Obeys (C.policy m.frames) := by
  cases superclass? with
  | none => exact hl.keeps_pure hm ⟨rfl, by simp⟩
  | some superclass =>
    obtain ⟨parent, address⟩ := superclass
    refine (hl.keeps_read hm parent address).bind hl ?_
    rintro v m' - - ⟨rfl, hv⟩
    cases v with
    | type c =>
      refine hl.keeps_pure hm ⟨rfl, ?_⟩
      rintro _ ⟨⟩
      exact hv
    | _ => exact hl.keeps_fail hm parent _

theorem keeps_methodEnv (hm : m.Honours C) {parent? : Option Class}
    (hp : ∀ c ∈ parent?, c.Obeys (C.policy m.frames)) :
    C.Keeps (methodEnv m.env parent?) (methodEnv m.env parent?) m fun env m' =>
      env = m.methodEnv parent? ∧ m'.frames = m.methodFrames parent? := by
  cases parent? with
  | none => exact hl.keeps_pure hm ⟨rfl, rfl⟩
  | some c =>
    have hvars : (Table.empty.insert "super" (Value.type c)).All
        (Value.Obeys (C.policy m.frames)) := (Table.All.empty _).insert "super" (hp c rfl)
    exact hl.keeps_openFrame_bind hm (.parent c) hvars fun ha => hl.keeps_pure ha.honours ⟨rfl, rfl⟩

end Fair

namespace Stage

theorem keeps_declareClass {name : Token} {superclass? : Option (Token × Address)}
    {methods : List Function}
    (st : C.Stage depth (.stmt (.classDecl name superclass? methods)) m rec) (hm : m.Honours C) :
    C.Keeps (declareClass name superclass? methods) (declareClass name superclass? methods) m
      fun _ m' => ∃ parent? m₁ m₂ u, parentClass superclass? m = .ok parent? m₁ ∧
        Run.define name name.lexeme .nil m₁ = .ok u m₂ ∧ C.grows m₂.frames m'.frames := by
  have hl := st.fair
  refine (hl.keeps_parentClass hm superclass?).bind hl ?_
  rintro parent? m₁ hparent ha₁ ⟨hm₁, hclass⟩
  refine (hl.keeps_define st.runs rfl ha₁.env (v := .nil) ha₁.honours fun _ _ _ => trivial).bind hl
    fun _ m₂ hdef ha₂ _ => .get_bind ?_
  have hafter := hl.after_trans ha₁ ha₂
  have hclass₂ : ∀ c ∈ parent?, c.Obeys (C.policy m₂.frames) :=
    fun c hc => hl.class_mono hafter.grows (hclass c hc)
  -- The methods are made while the class is still bound to `nil`.
  refine (hl.keeps_methodEnv ha₂.honours hclass₂).bind hl ?_
  rintro env m₃ - ha₃ ⟨rfl, hframes₃⟩
  have hmethods : ∀ f ∈ methods, ∀ id, (C.policy (m₂.methodFrames parent?)).allows
      (f.made id (m₂.methodEnv parent?) (f.name.lexeme = "init")) :=
    fun f hf id => hl.method st.runs hf hparent hdef hafter
  refine (hl.keeps_methodTable ha₃.honours hframes₃ hmethods
    (by simp [Table.Every, Table.empty])).bind hl ?_
  rintro table m₄ - ha₄ ⟨hframes₄, htable⟩
  refine hl.keeps_fresh_bind ha₄.honours fun hfresh => .get_bind ?_
  have hparents : ∀ c ∈ parent?, c.Obeys (C.policy m₄.frames) :=
    fun c hc => hl.class_mono (hl.trans ha₃.grows ha₄.grows) (hclass₂ c hc)
  have hvalue : C.holds (.type (.mk m₄.fresh name.lexeme parent? (table.filter (!·.isStatic))
      (table.filter (·.isStatic)))) { m₄ with fresh := m₄.fresh + 1 } := by
    rw [← hframes₄] at htable
    exact Class.obeys_mk hparents htable
  have hwrite := hl.keeps_writeAt st.runs rfl hfresh
    ((hl.alike hfresh).holder hfresh.values (hl.search st.runs rfl) "assign" m₄.env)
    (fun _ _ hg => hl.holds_mono hg hvalue)
    fun id hfound hnone => absurd hnone (Frames.held?_ne_none_of_holder hfound)
  refine hwrite.mono fun _ m₅ _ ha₅ _ => ⟨parent?, m₁, m₂, _, hparent, hdef, ?_⟩
  exact hl.trans (hl.trans ha₃.grows ha₄.grows) ha₅.grows

theorem keeps_execStmt {s : Stmt} (st : C.Stage depth (.stmt s) m rec) (hm : m.Honours C)
    (hd : ∀ name init, s = .varDecl name (some init) →
      C.Keeps (execStmt rec depth s) (execStmt (run depth) depth s) m C.holds) :
    C.Keeps (execStmt rec depth s) (execStmt (run depth) depth s) m C.holds := by
  have hl := st.fair
  have hself := hl.after_refl hm
  cases s with
  | gap => exact hl.keeps_breakDown hm _
  | bare value => exact st.part .bare (by simp [Node.parts]) hself
  | expression value =>
    refine (st.part .expression (by simp [Node.parts]) hself).bind hl fun v m₁ _ ha₁ _ => ?_
    exact hl.keeps_pure ha₁.honours trivial
  | print value =>
    refine (st.part .print (by simp [Node.parts]) hself).bind hl fun v m₁ _ ha₁ _ => ?_
    refine (hl.keeps_trace ha₁.honours _).bind hl fun _ m₂ _ ha₂ _ => ?_
    refine hl.keeps_ofExcept_bind ha₂.honours fun text _ => ?_
    refine (hl.keeps_writeLine ha₂.honours _).bind hl fun _ m₃ _ ha₃ _ => ?_
    exact hl.keeps_pure ha₃.honours trivial
  | varDecl name init? =>
    cases init? with
    | none =>
      refine (hl.keeps_define st.runs rfl rfl (v := .nil) hm fun _ _ _ => trivial).bind hl fun _ m₁ _ ha₁ _ => ?_
      exact hl.keeps_pure ha₁.honours trivial
    | some init => exact hd name init rfl
  | block body =>
    have hbody := st.keeps_execIn
      (fun before s after u m' hb h ha => ⟨.block hb h, hl.block st.runs hm hb h ha⟩)
      .block (Table.All.empty _) hm
    exact .get_bind (hbody.bind hl fun _ m₁ _ ha₁ _ => hl.keeps_pure ha₁.honours trivial)
  | ifStmt condition onTrue onFalse? =>
    refine (st.part .condition (by simp [Node.parts]) hself).bind hl fun c m₁ hc ha₁ _ => ?_
    dsimp only
    by_cases hv : c.isTruthy = true
    · rw [if_pos hv, if_pos hv]
      refine (st.part (.onTrue hc hv) (by simp [Node.parts]) ha₁).bind hl fun _ m₂ _ ha₂ _ => ?_
      exact hl.keeps_pure ha₂.honours trivial
    · rw [if_neg hv, if_neg hv]
      cases onFalse? with
      | none => exact hl.keeps_pure ha₁.honours trivial
      | some onFalse =>
        have hreach : Reaches depth (.stmt (.ifStmt condition onTrue (some onFalse))) m
            (.stmt onFalse) m₁ := .onFalse hc (by simpa using hv)
        refine (st.part hreach (by simp [Node.parts]) ha₁).bind hl fun _ m₂ _ ha₂ _ => ?_
        exact hl.keeps_pure ha₂.honours trivial
  | whileStmt condition body => exact st.keeps_loop depth .none hself
  | breakStmt keyword => exact hl.keeps_throw hm trivial
  | funDecl f =>
    refine .get_bind (hl.keeps_closureOf_bind hm f m.env false fun hfresh => ?_)
    have henv : ({ m with fresh := m.fresh + 1 } : Machine).env = m.env := rfl
    refine (hl.keeps_define st.runs rfl henv hfresh fun id hid hg => ?_).bind hl fun _ m₂ _ ha₂ _ => ?_
    · exact hl.function st.runs hm hid hg
    · exact hl.keeps_pure ha₂.honours trivial
  | classDecl name superclass? methods =>
    refine (st.keeps_declareClass hm).bind hl fun _ m₁ _ ha₁ _ => ?_
    exact hl.keeps_pure ha₁.honours trivial
  | returnStmt keyword value? =>
    cases value? with
    | none => exact hl.keeps_throw hm trivial
    | some value =>
      refine (st.part .returned (by simp [Node.parts]) hself).bind hl fun v m₁ _ ha₁ hv => ?_
      exact hl.keeps_throw ha₁.honours hv

theorem keeps_step (st : C.Stage depth node m rec) (hm : m.Honours C)
    (hd : ∀ name init, node = .stmt (.varDecl name (some init)) →
      C.Keeps (step rec depth node) (step (run depth) depth node) m C.holds) :
    C.Keeps (step rec depth node) (step (run depth) depth node) m C.holds := by
  cases node with
  | expr e => exact st.keeps_evalExpr hm
  | stmt s => exact st.keeps_execStmt hm fun name init hs => hd name init (by rw [hs])

end Stage

/-! ### Whole runs -/

namespace Lawful

theorem keeps_varDecl (hl : C.Lawful) (st : C.Stage depth node m rec) (hm : m.Honours C) (name : Token)
    (init : Expr) (hnode : node = .stmt (.varDecl name (some init))) :
    C.Keeps (step rec depth node) (step (run depth) depth node) m C.holds := by
  subst hnode
  have hf := hl.toFair
  have hinit := hf.keeps_initializer (hf.search st.runs rfl)
    (st.child .initializer (hl.initializer st.runs) hm)
  refine hinit.bind hf fun v m₁ _ ha₁ hv => ?_
  refine (hf.keeps_define st.runs rfl ha₁.env ha₁.honours fun _ _ hg => hf.holds_mono hg hv).bind hf ?_
  exact fun _ m₂ _ ha₂ _ => hf.keeps_pure ha₂.honours trivial

theorem run_keeps (hl : C.Lawful) (depth : Nat) (hr : C.runs ⟨depth, node, m⟩) (hm : m.Honours C) :
    C.Keeps (run depth node) (run depth node) m C.holds := by
  induction depth generalizing node m with
  | zero => exact hl.toFair.keeps_throw hm trivial
  | succ depth ih =>
    have st : C.Stage depth node m (run depth) :=
      ⟨hl.toFair, hr, ih, fun _ hn hs => (ih hn hs).1⟩
    exact st.keeps_step hm (hl.keeps_varDecl st hm)

theorem stage (hl : C.Lawful) (hr : C.runs ⟨depth + 1, node, m⟩) :
    C.Stage depth node m (run depth) :=
  ⟨hl.toFair, hr, hl.run_keeps depth, fun _ hn hs => (hl.run_keeps depth hn hs).1⟩

end Lawful

/-! ### What a node reaches -/

namespace Stage

variable {m₁ : Machine}

theorem after_rounds {condition : Expr} {body : Stmt}
    (st : C.Stage depth (.stmt (.whileStmt condition body)) m rec) (hm : m.Honours C) {m' : Machine}
    (hr : Rounds depth condition body m m') : C.After m m' := by
  have hl := st.fair
  induction hr with
  | none => exact hl.after_refl hm
  | next hr hc hv hb ih =>
    have ha₁ := hl.after_trans ih ((st.part (.loopCondition hr) (by simp [Node.parts]) ih).ok hc).1
    have hbody := (st.part (.loopBody hr hc hv) (by simp [Node.parts]) ha₁).ok hb
    exact hl.after_trans ha₁ hbody.1

theorem after_arguments {callee : Expr} {paren : Token} {arguments : List Expr}
    (st : C.Stage depth (.expr (.call callee paren arguments)) m rec) (hm : m.Honours C)
    {before after : List Expr} {v : Value} {args : List Value} {m₂ : Machine}
    (hb : arguments = before ++ after) (hc : run depth (.expr callee) m = .ok v m₁)
    (ha : evalAll (run depth) before m₁ = .ok args m₂) :
    C.After m m₂ ∧ C.holds v m₂ ∧ ∀ a ∈ args, C.holds a m₂ := by
  have hl := st.fair
  obtain ⟨ha₁, hv⟩ := (st.part .callee (by simp [Node.parts]) (hl.after_refl hm)).ok hc
  obtain ⟨ha₂, hargs⟩ := (st.keeps_evalAll hc before [] after (by simp [hb]) rfl ha₁).ok ha
  exact ⟨hl.after_trans ha₁ ha₂, hl.holds_mono ha₂.grows hv, hargs⟩

/-- A method that is given its receiver was waiting for it. -/
theorem after_binds (st : C.Stage depth node m rec) (hm : m.Honours C) {f : Closure} {o : Object}
    {args? : Option (List Value)} (hb : Binds depth node m f o args? m₁) :
    m₁.Honours C ∧ C.waiting m₁.frames f ∧ C.holds (.object o) m₁ ∧
      ∀ args ∈ args?, ∀ a ∈ args, C.holds a m₁ := by
  have hl := st.fair
  cases hb with
  | @initializer callee paren arguments _ m₁ m₂ c _ args hc ha hn hf =>
    obtain ⟨ha₂, hv, hargs⟩ := st.after_arguments hm (List.append_nil _).symm hc ha
    refine ⟨(hl.after_newObject ha₂.honours).honours, Class.Obeys.findMethod? hv hf, hv, ?_⟩
    rintro _ ⟨⟩
    exact hargs
  | @chained callee paren arguments _ m₁ m₂ _ id before after _ _ args v hc ha hn hchain =>
    obtain ⟨ha₂, hv, hargs⟩ := st.after_arguments hm (List.append_nil _).symm hc ha
    have hk := st.keeps_applyChain hc ha hn before [] (f :: after) (by simp) rfl
      (fun g hg => hv.1 g (by simp [hg])) hv.2 hargs trivial ha₂.honours
    have ha₃ := (hk.ok hchain).1
    refine ⟨ha₃.honours, hl.waiting_mono ha₃.grows (hv.1 f (by simp)),
      hl.class_mono ha₃.grows hv.2, ?_⟩
    rintro _ ⟨⟩
    exact fun a h => hl.holds_mono ha₃.grows (hargs a h)
  | @property object name _ _ _ _ hobject hv hfound hf =>
    obtain ⟨ha₁, hclass⟩ := (st.part .getObject (by simp [Node.parts]) (hl.after_refl hm)).ok hobject
    have hmem : f ∈ o.type.methodChain name.lexeme := by simp [hf]
    refine ⟨ha₁.honours, Class.Obeys.methodChain hclass hmem, hclass, ?_⟩
    intro args hargs a ha
    split at hargs <;> cases hargs
    cases ha

/-- A function that is applied may be called. -/
theorem after_applies (st : C.Stage depth node m rec) (hm : m.Honours C) {f : Closure}
    {args : List Value} (ha : Applies depth node m f args m₁) :
    m₁.Honours C ∧ C.callable m₁.frames f ∧ ∀ a ∈ args, C.holds a m₁ := by
  have hl := st.fair
  cases ha with
  | function hc ha hn =>
    obtain ⟨ha₂, hv, hargs⟩ := st.after_arguments hm (List.append_nil _).symm hc ha
    exact ⟨ha₂.honours, hv, hargs⟩
  | @method _ _ m₁ f o args hb =>
    obtain ⟨hm₁, hf, hclass, hargs⟩ := st.after_binds hm hb
    have hvars : (Table.empty.insert "this" (Value.object o)).All
        (Value.Obeys (C.policy m₁.frames)) := (Table.All.empty _).insert "this" hclass
    have hpush := hl.after_push hm₁ (.receiver o) hvars
    refine ⟨honours_congr hpush.honours rfl rfl, hl.bind st.runs hb hf, ?_⟩
    exact fun a h => hl.holds_mono hpush.grows (hargs _ rfl a h)

theorem after_body (st : C.Stage depth node m rec) {body before after : List Stmt} {s : Stmt}
    {env : Env} {vars : Table Value} {u : Unit} {m₂ : Machine}
    (hr : ∀ before s after u m', body = before ++ s :: after →
      execAll (run depth) before (m₁.enter env vars) = .ok u m' → C.After (m₁.enter env vars) m' →
          Reaches depth node m (.stmt s) m' ∧ C.runs ⟨depth, .stmt s, m'⟩)
    (ho : C.Opens m₁ vars) (hv : vars.All (Value.Obeys (C.policy m₁.frames))) (hm : m₁.Honours C)
    (hb : body = before ++ s :: after)
    (hrun : execAll (run depth) before (m₁.enter env vars) = .ok u m₂) :
    C.runs ⟨depth, .stmt s, m₂⟩ ∧ m₂.Honours C := by
  have hl := st.fair
  have henter : (m₁.enter env vars).Honours C :=
    honours_congr (hl.after_push hm ho hv).honours rfl rfl
  have hk := st.keeps_execAll hr before [] (s :: after) (by simp [hb]) rfl (hl.after_refl henter)
  have ha₂ := (hk.ok hrun).1
  exact ⟨(hr before s after u m₂ hb hrun ha₂).2, ha₂.honours⟩

theorem reaches (st : C.Stage depth node m rec) (hm : m.Honours C)
    (hi : ∀ name init, node = .stmt (.varDecl name (some init)) → C.runs ⟨depth, .expr init, m⟩)
    {n : Node} {s : Machine} (h : Reaches depth node m n s) : C.runs ⟨depth, n, s⟩ ∧ s.Honours C := by
  have hl := st.fair
  have hr := st.runs
  have hself := hl.after_refl hm
  -- a part that is run after others have ended with a result
  have later : ∀ {n : Node} {s : Machine}, Reaches depth node m n s → n ∈ node.parts →
      C.After m s → C.runs ⟨depth, n, s⟩ ∧ s.Honours C :=
    fun h hp hs => ⟨hl.part hr h hp hs, hs.honours⟩
  have first : ∀ {n : Node}, Reaches depth node m n m → n ∈ node.parts →
      C.runs ⟨depth, n, m⟩ ∧ m.Honours C := fun h hp => later h hp hself
  cases h with
  | grouping => exact first .grouping (by simp [Node.parts])
  | unary => exact first .unary (by simp [Node.parts])
  | binaryLeft => exact first .binaryLeft (by simp [Node.parts])
  | binaryRight h =>
    exact later (.binaryRight h) (by simp [Node.parts])
      ((st.part .binaryLeft (by simp [Node.parts]) hself).ok h).1
  | logicalLeft => exact first .logicalLeft (by simp [Node.parts])
  | logicalRight h hv =>
    exact later (.logicalRight h hv) (by simp [Node.parts])
      ((st.part .logicalLeft (by simp [Node.parts]) hself).ok h).1
  | assigned => exact first .assigned (by simp [Node.parts])
  | callee => exact first .callee (by simp [Node.parts])
  | argument hb hc ha =>
    exact later (.argument hb hc ha) (by simp [Node.parts, hb]) (st.after_arguments hm hb hc ha).1
  | getObject => exact first .getObject (by simp [Node.parts])
  | setObject => exact first .setObject (by simp [Node.parts])
  | setValue h =>
    exact later (.setValue h) (by simp [Node.parts])
      ((st.part .setObject (by simp [Node.parts]) hself).ok h).1
  | bare => exact first .bare (by simp [Node.parts])
  | expression => exact first .expression (by simp [Node.parts])
  | print => exact first .print (by simp [Node.parts])
  | initializer => exact ⟨hi _ _ rfl, hm⟩
  | condition => exact first .condition (by simp [Node.parts])
  | onTrue h hv =>
    exact later (.onTrue h hv) (by simp [Node.parts])
      ((st.part .condition (by simp [Node.parts]) hself).ok h).1
  | onFalse h hv =>
    exact later (.onFalse h hv) (by simp [Node.parts])
      ((st.part .condition (by simp [Node.parts]) hself).ok h).1
  | loopCondition h =>
    exact later (.loopCondition h) (by simp [Node.parts]) (st.after_rounds hm h)
  | loopBody h hc hv =>
    have ha₁ := st.after_rounds hm h
    have ha₂ := ((st.part (.loopCondition h) (by simp [Node.parts]) ha₁).ok hc).1
    exact later (.loopBody h hc hv) (by simp [Node.parts]) (hl.after_trans ha₁ ha₂)
  | returned => exact first .returned (by simp [Node.parts])
  | block hb hrun =>
    exact st.after_body (fun _ _ _ _ _ hb h ha => ⟨.block hb h, hl.block hr hm hb h ha⟩)
      .block (Table.All.empty _) hm hb hrun
  | @call _ f args vars _ _ _ _ m₁ _ _ ha hs hb hrun =>
    obtain ⟨hm₁, hf, hargs⟩ := st.after_applies hm ha
    obtain ⟨this, hthis, hvars⟩ := hs
    have hholds := ((hl.keeps_receiver hm₁ f).ok hthis).2.2
    have hstarts : Starts f args m₁ vars := ⟨this, hthis, hvars⟩
    exact st.after_body
      (fun _ _ _ _ _ hb h hm' => ⟨.call ha hstarts hb h, hl.call hr ha hstarts hm₁ hf hb h hm'⟩)
      (.call hf hstarts) (Policy.obeys_callVars hvars hholds hargs) hm₁ hb hrun

end Stage

theorem Lawful.reaches (hl : C.Lawful) (hr : C.runs ⟨depth + 1, node, m⟩) (hm : m.Honours C)
    {n : Node} {s : Machine} (h : Reaches depth node m n s) : C.runs ⟨depth, n, s⟩ ∧ s.Honours C :=
  (hl.stage hr).reaches hm (by rintro name init rfl; exact hl.initializer hr) h

theorem Lawful.visited (hl : C.Lawful) {roots : Moment → Prop} {v : Moment} {outer : List Moment}
    (hroots : ∀ v, roots v → C.runs v ∧ v.machine.Honours C) (h : Visited roots (v :: outer)) :
    C.runs v ∧ v.machine.Honours C := by
  generalize hm : v :: outer = moments at h
  induction h generalizing v outer with
  | root hv =>
    cases hm
    exact hroots _ hv
  | nested h hr ih =>
    cases hm
    obtain ⟨hruns, ho⟩ := ih rfl
    exact hl.reaches hruns ho hr

/-- The statements of a body are run one after another. -/
theorem Lawful.after_execAll (hl : C.Lawful) {start : Machine} {body : List Stmt}
    (hr : ∀ before s after m', body = before ++ s :: after →
      C.After start m' → C.runs ⟨depth, .stmt s, m'⟩)
    (ss before : List Stmt) {m' : Machine} {u : Unit} (hb : body = before ++ ss)
    (ha : C.After start m) (h : execAll (run depth) ss m = .ok u m') : C.After start m' := by
  induction ss generalizing before m with
  | nil =>
    cases h
    exact ha
  | cons s ss ih =>
    obtain ⟨v, m₁, hs, hss⟩ := bind_eq_ok.1 h
    have hruns := hr before s ss m hb ha
    have ha₁ := ((hl.run_keeps depth hruns ha.honours).ok hs).1
    exact ih (before ++ [s]) (by simp [hb]) (hl.after_trans ha ha₁) hss

end Covenant

end Lox
