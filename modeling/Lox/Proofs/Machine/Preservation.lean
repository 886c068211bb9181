import Lox.Proofs.Machine.Fulfilment
import Lox.Proofs.Machine.Layout

/-!
# Running a program keeps its environments in step with its scopes

Whenever a node is run, the frames of its environment are those that its scopes stand for.

## Design notes

A name is excused while its initializer is evaluated. So there is a covenant for every set of excused
names, and a declaration with an initializer passes from one of them to another.
-/

namespace Lox

open Eval Outcome Scope

/-! ### Names that stay bound -/

/-- Nothing is asked but that frames go on holding the names they hold. -/
def Covenant.holding : Covenant where
  callable _ _ := True
  waiting _ _ := True
  runs _ := True
  frames _ := True
  grows frames frames' := ∀ id x, (frames.held? id x).isSome = true →
    (frames'.held? id x).isSome = true
  alter frames := frames
  plain _ := True

theorem Value.obeys_holding (v : Value) (frames : Frames) :
    v.Obeys (Covenant.holding.policy frames) := by
  have hclass : ∀ c : Class, c.Obeys (Covenant.holding.policy frames) :=
    fun _ _ _ => ⟨fun _ _ => trivial, fun _ _ => trivial⟩
  cases v with
  | type c => exact hclass c
  | object o => exact hclass o.type
  | chain id methods o => exact ⟨fun _ _ => trivial, hclass o.type⟩
  | _ => trivial

theorem Frames.AllNamed.holding {p : Value → Prop} {m : Machine} (h : m.frames.AllNamed p) :
    m.Honours .holding :=
  ⟨h.mono fun v _ => v.obeys_holding _, fun _ _ _ _ v _ => v.obeys_holding _, trivial⟩

namespace Covenant

theorem holding_lawful : holding.Lawful where
  refl _ _ _ h := h
  trans h h' id x hx := h' id x (h id x hx)
  callable_mono _ _ := trivial
  waiting_mono _ _ := trivial
  alike _ := .refl _ _
  part _ _ _ _ := trivial
  initializer _ := trivial
  block _ _ _ _ _ := trivial
  call _ _ _ _ _ _ _ _ := trivial
  bind _ _ _ := trivial
  inherit _ _ _ _ _ _ := trivial
  lambda _ := trivial
  function _ _ _ _ := trivial
  method _ _ _ _ _ := by
    unfold Policy.allows
    split <;> trivial
  push _ _ := ⟨trivial, fun _ _ h => Frames.isSome_held?_push h _, rfl⟩
  write _ _ _ id _ v := ⟨trivial, fun _ _ h => Frames.isSome_held?_write h id _ v, rfl⟩
  search _ _ := trivial

variable {depth : Nat} {m m' : Machine}

/-- A declaration leaves its name in the innermost frame. -/
theorem holding_given {s : Stmt} {name : Token} {id : FrameId} {v : Value} (hm : m.Honours holding)
    (henv : m.env[0]? = some id) (hs : (Node.stmt s).given? = some name)
    (h : run depth (.stmt s) m = .ok v m') : (m'.frames.held? id name.lexeme).isSome = true := by
  have hl := holding_lawful
  have hdefine : ∀ {x : String} {u : Value} {m₁ m₂ : Machine} {w : Unit}, m₁.env = m.env →
      Run.define name x u m₁ = .ok w m₂ → (m₂.frames.held? id x).isSome = true := by
    intro x u m₁ m₂ w he hd
    obtain ⟨frame, outer, hframe, -, hheld⟩ := define_eq_ok hd
    rw [← he, hframe] at henv
    cases henv
    rw [hheld]
    rfl
  cases depth with
  | zero => cases h
  | succ depth =>
    have st : holding.Stage depth (.stmt s) m (run depth) := hl.stage trivial
    cases s with
    | varDecl name init? =>
      cases hs
      cases init? with
      | none =>
        obtain ⟨u, m₁, hd, h⟩ := bind_eq_ok.1 h
        cases h
        exact hdefine rfl hd
      | some init =>
        obtain ⟨u, m₁, hi, h⟩ := bind_eq_ok.1 h
        obtain ⟨_, m₂, hd, h⟩ := bind_eq_ok.1 h
        cases h
        have hinit : holding.Keeps (initializer _ name init) _ m _ :=
          hl.toFair.keeps_initializer trivial (st.child .initializer trivial hm)
        exact hdefine (hinit.ok hi).1.env hd
    | funDecl f =>
      cases hs
      change (Run.define f.name f.name.lexeme _ >>= fun _ => pure Value.nil)
        { m with fresh := m.fresh + 1 } = _ at h
      obtain ⟨_, m₁, hd, h⟩ := bind_eq_ok.1 h
      cases h
      have henv' : ({ m with fresh := m.fresh + 1 } : Machine).env = m.env := rfl
      exact hdefine henv' hd
    | classDecl name superclass? methods =>
      cases hs
      obtain ⟨_, m₃, hclass, h⟩ := bind_eq_ok.1 h
      cases h
      obtain ⟨-, parent?, m₁, m₂, u, hp, hd, hgrows⟩ := (st.keeps_declareClass hm).ok hclass
      have ha := ((hl.toFair.keeps_parentClass hm superclass?).ok hp).1
      exact hgrows _ _ (hdefine ha.env hd)
    | _ => cases hs

theorem holding_declared {ss : List Stmt} {id : FrameId} {u : Unit} {x : String}
    (hm : m.Honours holding) (henv : m.env[0]? = some id)
    (hs : ∀ s ∈ ss, x ∈ s.declared → ∃ name, (Node.stmt s).given? = some name ∧ name.lexeme = x)
    (h : execAll (run depth) ss m = .ok u m') (hx : x ∈ ss.flatMap Stmt.declared) :
    (m'.frames.held? id x).isSome = true := by
  have hl := holding_lawful
  induction ss generalizing m with
  | nil => cases hx
  | cons s ss ih =>
    obtain ⟨v, m₁, hrun, hrest⟩ := bind_eq_ok.1 h
    obtain ⟨ha, -⟩ := (hl.run_keeps depth trivial hm).ok hrun
    by_cases hmem : x ∈ ss.flatMap Stmt.declared
    · exact ih ha.honours (by rwa [ha.env]) (fun s hs' => hs s (by simp [hs'])) hrest hmem
    · have hx : x ∈ s.declared := by simpa [hmem] using hx
      obtain ⟨name, hgiven, rfl⟩ := hs s (by simp) hx
      have hafter := hl.after_execAll (fun _ _ _ _ _ _ => trivial) ss [] rfl
        (hl.toFair.after_refl ha.honours) hrest
      exact hafter.grows _ _ (holding_given hm henv hgiven hrun)

end Covenant

theorem Stmt.ResolvedIn.given_of_declared {statics : Bool} {scopes : List (Set String)} {s : Stmt}
    {x : String} (h : s.ResolvedIn statics scopes) (hx : x ∈ s.declared) :
    ∃ name, (Node.stmt s).given? = some name ∧ name.lexeme = x := by
  have hs := h.scoped
  cases s with
  | varDecl name init? => exact ⟨name, rfl, (List.mem_singleton.1 hx).symm⟩
  | funDecl f => exact ⟨f.name, rfl, (List.mem_singleton.1 hx).symm⟩
  | classDecl name superclass? methods => exact ⟨name, rfl, (List.mem_singleton.1 hx).symm⟩
  | ifStmt condition onTrue onFalse? =>
    cases onFalse? with
    | none => simp [Stmt.declared, hs.2.1.2] at hx
    | some onFalse => simp [Stmt.declared, hs.2.1.2, (hs.2.2 onFalse rfl).2] at hx
  | whileStmt condition body => simp [Stmt.declared, hs.2.2] at hx
  | _ => cases hx

/-! ### Excuses -/

variable {w : World} {depth : Nat} {node : Node} {m : Machine} {outer : List Moment} {nest : Nest}
  {excused : FrameId → String → Prop}

theorem excused_cons (v : Moment) (frame : FrameId) (name : String)
    (h : Excused w (v :: outer) frame name) :
    Excused w outer frame name ∨ v.Declares frame name := by
  rcases h with ⟨u, hu, hd⟩ | h
  · rcases List.mem_cons.1 hu with rfl | hu
    · exact Or.inr hd
    · exact Or.inl (Or.inl ⟨u, hu, hd⟩)
  · exact Or.inl (Or.inr h)

theorem excused_of_outer (v : Moment) (frame : FrameId) (name : String)
    (h : Excused w outer frame name) : Excused w (v :: outer) frame name :=
  h.imp_left fun ⟨u, hu, hd⟩ => ⟨u, List.mem_cons_of_mem _ hu, hd⟩

theorem excused_cons_eq {v : Moment}
    (h : ∀ frame name, v.Declares frame name → Excused w outer frame name) :
    Excused w (v :: outer) = Excused w outer := by
  funext frame name
  refine propext ⟨fun he => ?_, excused_of_outer v frame name⟩
  rcases excused_cons v frame name he with he | hd
  · exact he
  · exact h frame name hd

theorem excused_inside (hd : ∀ name init, node ≠ .stmt (.varDecl name (some init))) :
    Excused w (⟨depth, node, m⟩ :: outer) = Excused w outer :=
  excused_cons_eq fun _ _ ⟨name, init, hnode, _⟩ => absurd hnode (hd name init)

/-! ### The covenants -/

/-- What is run and called has an environment that matches the scopes around it, where some names count
as bound. -/
def Covenant.fitting (w : World) (excused : FrameId → String → Prop) : Covenant where
  callable frames f := f.Placed w (frames.view excused) []
  waiting frames f := f.Placed w (frames.view excused) receiverNest
  runs v := ∃ outer nest, Visited w.roots (v :: outer) ∧ Excused w outer = excused ∧
    Located w.programs nest v.node ∧ Fits w (v.machine.frames.view excused) v.machine.env nest
  frames _ := True
  grows frames frames' := frames.view excused ≤ frames'.view excused
  alter frames := frames
  plain _ := True

theorem Machine.Honours.excuse {excused' : FrameId → String → Prop}
    (h : m.Honours (.fitting w excused))
    (he : ∀ frame name, excused frame name → excused' frame name) :
    m.Honours (.fitting w excused') :=
  Machine.Obeys.mono h (fun _ hf => hf.mono (Frames.view_le_of_excused he))
    (fun _ hf => hf.mono (Frames.view_le_of_excused he)) trivial

theorem Covenant.After.fits {m' : Machine} (h : (fitting w excused).After m m')
    (hf : Fits w (m.frames.view excused) m.env nest) : Fits w (m'.frames.view excused) m'.env nest := by
  rw [h.env]
  exact hf.mono h.grows

section Fair

variable (hres : ∀ program, w.programs program → Stmt.AllResolvedIn false [] program)

include hres

theorem Fits.body {layer : Layer} {body before after : List Stmt} {s : Stmt} {env : Env}
    {vars : Table Value} {m' : Machine} {u : Unit} (hf : Fits w (m.frames.view excused) env nest)
    (hb : Stands w (layer :: nest) body) (ho : Opened w.roots m.frames.size layer.opening env)
    (hl : layer.names ⊆ vars.domain) (hm : m.Honours (.fitting w excused))
    (he : body = before ++ s :: after)
    (h : execAll (run depth) before (m.enter env vars) = .ok u m')
    (ha : (Covenant.fitting w excused).After (m.enter env vars) m') :
    Fits w (m'.frames.view excused) m'.env
      (Nest.declare (before.flatMap Stmt.declared) (layer :: nest)) := by
  have hfits : Fits w _ _ (layer :: nest) := ha.fits (hf.enter ho hl)
  rw [ha.env] at hfits ⊢
  have hnamed : Frames.AllNamed (fun _ => True) (m.enter env vars).frames :=
    (hm.values.mono fun _ _ => trivial).push fun _ _ _ => trivial
  refine hfits.declare fun x hx => .inl ?_
  refine Covenant.holding_declared hnamed.holding rfl (fun t ht hdeclared => ?_) h hx
  obtain ⟨before', after', rfl⟩ := List.append_of_mem ht
  have hlocated := hb before' t (after' ++ s :: after) (by simp [he])
  exact Stmt.ResolvedIn.given_of_declared (hlocated.resolvedIn hres) hdeclared

omit hres in
theorem Function.params_eq_nil {f : Function} (h : f.isReadable = true) (hg : f.isGetter = true) :
    f.params = [] := by
  simpa [isReadable, hg] using h

theorem Covenant.fitting_fair : (fitting w excused).Fair where
  refl _ := View.le_refl _
  trans h h' := View.le_trans h h'
  callable_mono h hf := hf.mono h
  waiting_mono h hf := hf.mono h
  alike _ := .refl _ _
  part := by
    rintro depth node n m s ⟨outer, nest, hv, rfl, hl, hf⟩ hr hp ha
    refine ⟨_, nest, hv.nested hr, excused_inside ?_, hl.part hp, ha.fits hf⟩
    rintro name init rfl
    cases hp
  block := by
    rintro depth body before after s m m' u ⟨outer, nest, hv, rfl, hl, hf⟩ hm hb hr ha
    have hstands := (Encloses.block body).stands hl
    exact ⟨_, _, hv.nested (.block hb hr), excused_inside nofun, hstands before s after hb,
      hf.body hres hstands (.block hv) (Set.empty_subset _) hm hb hr ha⟩
  call := by
    rintro depth node f args vars before after s m m₁ m' u ⟨outer, nest, hv, rfl, hl, hf⟩ happ hs hm
      hplaced hb hr ha
    obtain ⟨inner, hstands, hfits⟩ := hplaced.body
    obtain ⟨this, hthis, hvars⟩ := hs
    have hopened : Opened w.roots m₁.frames.size (.call f.params f.body) f.env :=
      .call hv happ ⟨this, hthis, hvars⟩
    have hparams : paramScope f.params ⊆ vars.domain :=
      (callVars_eq_ok (p := fun _ => True) hvars trivial (fun _ => trivial) fun _ _ => trivial).2
        hplaced.getter
    refine ⟨_, _, hv.nested (.call happ ⟨this, hthis, hvars⟩ hb hr), excused_inside ?_,
      hstands before s after hb, hfits.body hres hstands hopened hparams hm hb hr ha⟩
    rintro name init rfl
    cases happ with
    | method h => cases h
  bind := by
    rintro depth node f o args? m m' ⟨outer, nest, hv, rfl, hl, hf⟩ hb hplaced
    obtain ⟨inner, hstands, hfits⟩ := hplaced.body
    refine ⟨hplaced.getter, receiverNest ++ inner, hstands, hfits.enter (.receiver hv hb) ?_⟩
    rw [Table.domain_insert]
    rintro x rfl
    exact Or.inl rfl
  inherit := by
    rintro depth distance keyword method f c v m m' ⟨outer, nest, -, -, hl, -⟩ - - - - -
    -- no text has such an expression, so none was resolved
    exact (Expr.ResolvedIn.scoped (hl.resolvedIn hres)).elim
  lambda := by
    rintro depth params body m ⟨outer, nest, -, -, hl, hf⟩
    exact ⟨by simp, nest, (Encloses.lambda params body).stands hl, hf⟩
  function := by
    rintro depth f id m v ⟨outer, nest, -, -, hl, hf⟩ hm hid hg
    have hreadable := (Stmt.ResolvedIn.scoped (hl.resolvedIn hres)).1
    refine ⟨Function.params_eq_nil hreadable, _, (Encloses.function f).stands hl, ?_⟩
    -- the function may refer to itself: its name is bound where it is stored
    obtain ⟨frame, rest, henv, hlt⟩ := hf.head
    obtain ⟨vars, hvars, -⟩ := hm.values.exists_named hlt
    have hfits := hf.mono hg
    rw [henv] at hid hfits
    cases hid
    change Fits w _ m.env _
    rw [henv]
    refine hfits.declare fun x hx => .inl ?_
    obtain rfl := List.mem_singleton.1 hx
    simp [Frames.held?_write hvars]
  method := by
    rintro depth id name superclass? methods f parent? m m₁ m₂ u ⟨outer, nest, hv, rfl, hl, hf⟩ hmem
      hp hd ha
    obtain ⟨hstatic, hreadable, -⟩ := (Stmt.ResolvedIn.scoped (hl.resolvedIn hres)).2 f hmem
    have hstands := (Encloses.method hmem).stands hl
    unfold Policy.allows
    rw [if_neg (by simp [Function.made, hstatic rfl])]
    -- the name of the class is bound, so its methods may refer to it
    have hfits : Fits w (m₂.frames.view (Excused w outer)) m₂.env (Nest.declare [name.lexeme] nest) := by
      obtain ⟨frame, rest, henv, rfl, hheld⟩ := define_eq_ok hd
      have hfits := ha.fits hf
      change Fits w _ m₁.env _ at hfits
      change Fits w _ m₁.env _
      rw [henv] at hfits ⊢
      refine hfits.declare fun x hx => .inl ?_
      obtain rfl := List.mem_singleton.1 hx
      rw [hheld]
      rfl
    have hsome := parentClass_isSome hp
    refine ⟨Function.params_eq_nil hreadable, ?_⟩
    unfold Machine.methodEnv Machine.methodFrames
    cases superclass? with
    | none =>
      obtain rfl : parent? = none := by simpa using hsome
      exact ⟨_, hstands, hfits⟩
    | some superclass =>
      obtain ⟨c, rfl⟩ := Option.isSome_iff_exists.1 hsome
      refine ⟨_, hstands, hfits.enter (.parent hv hp hd) ?_⟩
      rw [Table.domain_insert]
      rintro x rfl
      exact Or.inl rfl
  push _ _ := ⟨trivial, Frames.view_push _ _, rfl⟩
  write _ _ _ _ _ _ := ⟨trivial, Frames.view_write fun _ _ h => .inl h, rfl⟩
  search _ _ := trivial

end Fair

/-! ### Nodes that are about to be run -/

/-- A node is about to be run in an environment that matches the scopes around it. -/
structure Ready (w : World) (outer : List Moment) (nest : Nest) (node : Node) (m : Machine) :
    Prop where
  located : Located w.programs nest node
  fits : Fits w (m.frames.view (Excused w outer)) m.env nest
  honours : m.Honours (.fitting w (Excused w outer))

theorem Ready.inside (h : Ready w outer nest node m) (v : Moment) :
    Ready w (v :: outer) nest node m :=
  ⟨h.located, h.fits.mono (Frames.view_le_of_excused (excused_of_outer v)),
    h.honours.excuse (excused_of_outer v)⟩

theorem Ready.runs (h : Ready w outer nest node m) (hv : Visited w.roots (⟨depth, node, m⟩ :: outer)) :
    (Covenant.fitting w (Excused w outer)).runs ⟨depth, node, m⟩ :=
  ⟨outer, nest, hv, rfl, h.located, h.fits⟩

theorem Ready.initializer {name : Token} {init : Expr}
    (h : Ready w outer nest (.stmt (.varDecl name (some init))) m) (depth : Nat) :
    Ready w (⟨depth, .stmt (.varDecl name (some init)), m⟩ :: outer)
      (Nest.declare [name.lexeme] nest) (.expr init) m := by
  have h' := h.inside ⟨depth, .stmt (.varDecl name (some init)), m⟩
  refine ⟨.initializer h.located, ?_, h'.honours⟩
  obtain ⟨id, rest, henv, -⟩ := h.fits.head
  have hfits := h'.fits
  rw [henv] at hfits ⊢
  refine hfits.declare fun x hx => .inr (.inl ⟨_, List.mem_cons_self .., name, init, rfl, ?_, ?_⟩)
  · exact (List.mem_singleton.1 hx).symm
  · rw [henv]
    rfl

section Runs

variable (hres : ∀ program, w.programs program → Stmt.AllResolvedIn false [] program)

include hres

/-- Declaring a variable with an initializer. If the initializer is left without a value, the
declaration is abandoned and the variable stays excused. -/
theorem Covenant.fitting_varDecl {name : Token} {init : Expr} {here : Moment}
    (hhere : here = ⟨depth + 1, .stmt (.varDecl name (some init)), m⟩)
    (h : Ready w outer nest here.node m) (hv : Visited w.roots (here :: outer))
    (hk : (fitting w (Excused w (here :: outer))).Keeps (run depth (.expr init))
      (run depth (.expr init)) m (fitting w (Excused w (here :: outer))).holds) :
    (fitting w (Excused w outer)).Keeps (run (depth + 1) here.node) (run (depth + 1) here.node) m
      (fitting w (Excused w outer)).holds := by
  have hinit : (fitting w _).Keeps (initializer _ name init) _ m _ :=
    (fitting_fair hres).keeps_initializer trivial hk
  cases hrun : initializer (run depth) name init m with
  | error e m' =>
    -- the variable never gets a value from here: what excused it is now an abandoned declaration
    have hexec : run (depth + 1) here.node m = .error e m' :=
      hhere ▸ bind_of_error hrun
    obtain ⟨ha, he⟩ := hinit.error hrun
    have habandoned : ∀ frame x, here.Declares frame x → Excused w outer frame x :=
      fun frame x hd => .inr ⟨here, outer, e, m', hv, hd, by rw [← hexec, hhere]⟩
    rw [excused_cons_eq habandoned] at ha he
    exact .of_error hexec hexec ha he
  | ok v m₁ =>
    obtain ⟨ha, hholds⟩ := hinit.ok hrun
    obtain ⟨id, rest, henv, hlt⟩ := (ha.fits (h.inside here).fits).head
    obtain ⟨vars, hid, -⟩ := ha.honours.values.exists_named hlt
    have hexec : run (depth + 1) here.node m =
        .ok .nil { m₁ with frames := m₁.frames.write id name.lexeme v } :=
      hhere ▸ (bind_of_ok hrun).trans (bind_of_ok (define_eq henv hid _ _))
    -- the variable has a value now, so its excuse is no longer needed
    have hle : m₁.frames.view (Excused w (here :: outer)) ≤
        (m₁.frames.write id name.lexeme v).view (Excused w outer) := by
      refine Frames.view_write fun frame x hx => (excused_cons _ frame x hx).imp_right ?_
      subst hhere
      rintro ⟨token, _, ⟨⟩, rfl, hhead⟩
      change m.env.head? = some frame at hhead
      rw [← ha.env, henv] at hhead
      cases hhead
      simp [Frames.held?_write hid]
    have hmono : ∀ u : Value, u.Obeys ((fitting w (Excused w (here :: outer))).policy m₁.frames) →
        u.Obeys ((fitting w (Excused w outer)).policy (m₁.frames.write id name.lexeme v)) :=
      fun _ hu => hu.mono (fun _ hf => Closure.Placed.mono hf hle) fun _ hf => Closure.Placed.mono hf hle
    have hafter : (fitting w (Excused w outer)).After m
        { m₁ with frames := m₁.frames.write id name.lexeme v } := by
      refine ⟨ha.env, ?_, ?_, ?_, trivial⟩
      · exact View.le_trans (Frames.view_le_of_excused (excused_of_outer here))
          (View.le_trans ha.grows hle)
      · exact (ha.honours.values.mono hmono).write id name.lexeme (hmono v hholds)
      · exact fun i table ht => (ha.honours.fields i table ht).mono hmono
    refine .of_ok ?_ hexec hafter trivial
    exact hexec

theorem Covenant.fitting_keeps (depth : Nat) {node : Node} {m : Machine}
    (hr : (fitting w excused).runs ⟨depth, node, m⟩) (hm : m.Honours (.fitting w excused)) :
    (fitting w excused).Keeps (run depth node) (run depth node) m (fitting w excused).holds := by
  induction depth generalizing excused node m with
  | zero => exact (fitting_fair hres).keeps_throw hm trivial
  | succ depth ih =>
    have st : (fitting w excused).Stage depth node m (run depth) :=
      ⟨fitting_fair hres, hr, ih, fun _ hn hs => (ih hn hs).1⟩
    refine st.keeps_step hm ?_
    rintro name init rfl
    obtain ⟨outer, nest, hv, rfl, hl, hf⟩ := hr
    have hready : Ready w outer nest (.stmt (.varDecl name (some init))) m := ⟨hl, hf, hm⟩
    have hinit := hready.initializer (depth + 1)
    exact fitting_varDecl hres rfl hready hv (ih (hinit.runs (hv.nested .initializer)) hinit.honours)

theorem Ready.stage (h : Ready w outer nest node m)
    (hv : Visited w.roots (⟨depth + 1, node, m⟩ :: outer)) :
    (Covenant.fitting w (Excused w outer)).Stage depth node m (run depth) :=
  ⟨Covenant.fitting_fair hres, h.runs hv, Covenant.fitting_keeps hres depth,
    fun _ hn hs => (Covenant.fitting_keeps hres depth hn hs).1⟩

theorem Visited.ready (hroots : ∀ v, w.roots v → ∃ nest, Ready w [] nest v.node v.machine)
    {v : Moment} (h : Visited w.roots (v :: outer)) :
    ∃ nest, Ready w outer nest v.node v.machine := by
  generalize hm : v :: outer = moments at h
  induction h generalizing v outer with
  | root hv =>
    cases hm
    exact hroots _ hv
  | @nested depth node n m s outer h hr ih =>
    cases hm
    obtain ⟨nest, hready⟩ := ih rfl
    by_cases hd : ∃ name init, node = .stmt (.varDecl name (some init))
    · obtain ⟨name, init, rfl⟩ := hd
      cases hr with
      | initializer => exact ⟨_, hready.initializer (depth + 1)⟩
      | call ha =>
        cases ha with
        | method hb => cases hb
    · have hd : ∀ name init, node ≠ .stmt (.varDecl name (some init)) :=
        fun name init hnode => hd ⟨name, init, hnode⟩
      obtain ⟨⟨_, inner, -, -, hl, hf⟩, hs⟩ := (hready.stage hres h).reaches hready.honours
        (fun name init hnode => absurd hnode (hd name init)) hr
      have hinside : Excused w (⟨depth + 1, node, m⟩ :: outer) = Excused w outer := excused_inside hd
      rw [← hinside] at hf hs
      exact ⟨inner, hl, hf, hs⟩

end Runs

end Lox
