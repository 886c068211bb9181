import Lox.Proofs.Machine.Written

/-!
# Scopes and their frames

The scopes around a node, each with the information whether a frame is opened for it. All have one but
the receivers of methods that belong to the class itself: such a method is inside the scope of `this` in
the text, and no receiver is ever given to it. So the frames of an environment are fewer than the scopes
around what is run in it, and a depth that counts scopes leads too far.
-/

namespace Lox

open Eval Outcome Scope

variable {site : Site} {tier : Tier} {node : Node}

/-- A scope around a node, and whether a frame is opened for it. -/
structure Tier where
  layer : Layer
  framed : Bool

/-- The scopes around a node, innermost first. -/
abbrev Site := List Tier

namespace Tier

def call (params : List Token) (body : List Stmt) : Tier :=
  ⟨⟨.call params body, paramScope params⟩, true⟩

def receiver (framed : Bool) : Tier := ⟨⟨.receiver, {"this"}⟩, framed⟩

end Tier

namespace Site

def nest (site : Site) : Nest := site.map Tier.layer

def openings (site : Site) : List Opening := (site.filter Tier.framed).map (·.layer.opening)

/-- The number of scopes without a frame among the innermost ones. -/
def lacking (site : Site) (d : Nat) : Nat := (site.take d).countP (!·.framed)

def declare (names : List String) : Site → Site
  | [] => []
  | tier :: outer =>
    ⟨⟨tier.layer.opening, {x | x ∈ names} ∪ tier.layer.names⟩, tier.framed⟩ :: outer

/-- The scopes around a method of a class that stands inside the given ones. -/
def around (hasSuper isStatic : Bool) (site : Site) : Site :=
  .receiver (!isStatic) :: if hasSuper then ⟨⟨.parent, {"super"}⟩, true⟩ :: site else site

@[simp] theorem nest_declare (names : List String) (site : Site) :
    nest (declare names site) = Nest.declare names (nest site) := by
  cases site <;> rfl

theorem nest_around (hasSuper isStatic : Bool) (site : Site) :
    nest (around hasSuper isStatic site) = Nest.around hasSuper (nest site) := by
  cases hasSuper <;> rfl

@[simp] theorem openings_declare (names : List String) (site : Site) :
    openings (declare names site) = openings site := by
  cases site with
  | nil => rfl
  | cons tier outer => cases hf : tier.framed <;> simp [openings, declare, hf]

@[simp] theorem openings_framed (layer : Layer) (site : Site) :
    openings (⟨layer, true⟩ :: site) = layer.opening :: openings site := by
  simp [openings]

@[simp] theorem openings_unframed (layer : Layer) (site : Site) :
    openings (⟨layer, false⟩ :: site) = openings site := by
  simp [openings]

theorem lacking_le (site : Site) (d : Nat) : site.lacking d ≤ d :=
  List.countP_le_length.trans (List.length_take_le d site)

theorem lacking_succ (tier : Tier) (site : Site) (d : Nat) :
    lacking (tier :: site) (d + 1) = site.lacking d + if tier.framed then 0 else 1 := by
  cases hf : tier.framed <;> simp [lacking, hf]

end Site

/-! ### Where a node stands -/

/-- A node that stands in some scopes holds a list of statements, which stands in a scope of its own
inside the given ones. -/
inductive Site.Encloses (site : Site) : Node → Tier → Site → List Stmt → Prop where
  | block (body : List Stmt) :
      Encloses site (.stmt (.block body)) ⟨⟨.block body, ∅⟩, true⟩ site body
  | lambda (params : List Token) (body : List Stmt) :
      Encloses site (.expr (.lambda params body)) (.call params body) site body
  | function (f : Function) :
      Encloses site (.stmt (.funDecl f)) (.call f.params f.body)
        (Site.declare [f.name.lexeme] site) f.body
  | method {name : Token} {superclass? : Option (Token × Address)} {methods : List Function}
      {f : Function} (h : f ∈ methods) :
      Encloses site (.stmt (.classDecl name superclass? methods)) (.call f.params f.body)
        (Site.around superclass?.isSome f.isStatic (Site.declare [name.lexeme] site)) f.body

/-- A node stands in one of some programs, inside the given scopes. -/
inductive Sited (programs : List Stmt → Prop) : Site → Node → Prop where
  | top {before after : List Stmt} {s : Stmt} (h : programs (before ++ s :: after)) :
      Sited programs [] (.stmt s)
  | part {site : Site} {node part : Node} (h : Sited programs site node)
      (hp : part ∈ node.parts) : Sited programs site part
  | initializer {site : Site} {name : Token} {init : Expr}
      (h : Sited programs site (.stmt (.varDecl name (some init)))) :
      Sited programs (Site.declare [name.lexeme] site) (.expr init)
  | body {site outer : Site} {tier : Tier} {node : Node} {body before after : List Stmt} {s : Stmt}
      (h : Sited programs site node) (he : site.Encloses node tier outer body)
      (hb : body = before ++ s :: after) :
      Sited programs (Site.declare (before.flatMap Stmt.declared) (tier :: outer)) (.stmt s)

variable {programs : List Stmt → Prop} {roots : Moment → Prop}

theorem Site.Encloses.encloses {outer : Site} {body : List Stmt}
    (h : site.Encloses node tier outer body) :
    Lox.Encloses site.nest node (tier.layer :: outer.nest) body := by
  cases h with
  | block => exact .block body
  | lambda params => exact .lambda params body
  | function f =>
    rw [nest_declare]
    exact .function f
  | method hf =>
    rw [nest_around, nest_declare]
    exact .method hf

theorem Sited.located (h : Sited programs site node) : Located programs site.nest node := by
  induction h with
  | top hp => exact .top hp
  | part _ hp ih => exact ih.part hp
  | initializer _ ih =>
    rw [Site.nest_declare]
    exact ih.initializer
  | body _ he hb ih =>
    subst hb
    rw [Site.nest_declare]
    exact ih.body he.encloses

theorem Sited.framed_or_receiver (h : Sited programs site node) :
    ∀ tier ∈ site, tier.framed = true ∨ tier.layer.opening = .receiver := by
  have hdeclare : ∀ {names : List String} {site : Site},
      (∀ tier ∈ site, tier.framed = true ∨ tier.layer.opening = .receiver) →
        ∀ tier ∈ Site.declare names site, tier.framed = true ∨ tier.layer.opening = .receiver := by
    intro names site hsite
    cases site with
    | nil => exact hsite
    | cons first outer => exact List.forall_mem_cons.2 (List.forall_mem_cons.1 hsite)
  induction h with
  | top => simp
  | part _ _ ih => exact ih
  | initializer _ ih => exact hdeclare ih
  | @body site outer tier _ _ _ _ _ _ he _ ih =>
    refine hdeclare (List.forall_mem_cons.2 ?_)
    cases he with
    | block => exact ⟨.inl rfl, ih⟩
    | lambda => exact ⟨.inl rfl, ih⟩
    | function => exact ⟨.inl rfl, hdeclare ih⟩
    | @method _ superclass? _ _ hf =>
      refine ⟨.inl rfl, List.forall_mem_cons.2 ⟨.inr rfl, ?_⟩⟩
      cases superclass? with
      | none => exact hdeclare ih
      | some _ => exact List.forall_mem_cons.2 ⟨.inl rfl, hdeclare ih⟩

/-- A scope without a frame has no name but `this`. -/
theorem Sited.eq_this (h : Sited programs site node) (ht : tier ∈ site) (hf : tier.framed = false)
    {x : String} (hx : x ∈ tier.layer.names) :
    x = "this" := by
  have hreceiver : tier.layer.opening = .receiver :=
    (h.framed_or_receiver tier ht).resolve_left (by simp [hf])
  have hproper : tier.layer.names ⊆ tier.layer.opening.names :=
    h.located.names_subset.1 _ (List.mem_map_of_mem ht)
  rw [hreceiver] at hproper
  exact hproper hx

/-! ### Where a frame is found -/

/-- The frame of a scope: as many frames further in than the scope as there are scopes without frames
before it. -/
theorem Layered.drop_tier {env : Env} (h : Layered roots env site.openings) {d : Nat}
    (hd : site[d]? = some tier) (hf : tier.framed = true) :
    ∃ id outer, env.drop (d - site.lacking d) = id :: outer ∧
      Opened roots id tier.layer.opening outer := by
  induction site generalizing env d with
  | nil => simp at hd
  | cons first site ih =>
    obtain ⟨layer, framed⟩ := first
    cases d with
    | zero =>
      obtain rfl : Tier.mk layer framed = tier := by simpa using hd
      obtain rfl : framed = true := hf
      rw [Site.openings_framed] at h
      cases h with
      | cons ho h => exact ⟨_, _, rfl, ho⟩
    | succ d =>
      have hd' : site[d]? = some tier := by simpa using hd
      have hle : Site.lacking site d ≤ d := Site.lacking_le site d
      rw [Site.lacking_succ]
      cases framed with
      | false =>
        -- no frame is passed, and one more scope is counted
        rw [Site.openings_unframed] at h
        have hsub : d + 1 - (Site.lacking site d + 1) = d - Site.lacking site d := by omega
        simpa [hsub] using ih h hd'
      | true =>
        -- the scope and its frame are both one place further in
        rw [Site.openings_framed] at h
        cases h with
        | cons ho h =>
          have hsub : d + 1 - Site.lacking site d = d - Site.lacking site d + 1 := by omega
          simpa [hsub] using ih h hd'

/-! ### Running -/

/-- The body of a function stands in the scope of its parameters, inside the given scopes. -/
def Closure.StandsIn (programs : List Stmt → Prop) (f : Closure) (outer : Site) : Prop :=
  ∃ site node, Sited programs site node ∧
    site.Encloses node (.call f.params f.body) outer f.body

/-- Functions are made and nodes are run in environments whose frames were opened for the scopes
around them. A method that waits for its receiver lacks the innermost of these frames. -/
def Policy.sited (programs : List Stmt → Prop) (roots : Moment → Prop) : Policy where
  callable f := ∃ outer, f.StandsIn programs outer ∧ Layered roots f.env outer.openings
  waiting f := ∃ outer : Site, f.StandsIn programs (.receiver true :: outer) ∧
    Layered roots f.env outer.openings
  runs v := v.machine.Reachable ∧ (∃ outer, Visited roots (v :: outer)) ∧
    ∃ site, Sited programs site v.node ∧ Layered roots v.machine.env site.openings
  frames _ := True

theorem Policy.sited_lawful
    (hres : ∀ program, programs program → Stmt.AllResolvedIn true [] program) :
    (Policy.sited programs roots).Lawful where
  part := by
    rintro depth node n m s ⟨hm, ⟨outer, hv⟩, site, hs, hl⟩ hr hp henv
    refine ⟨hm.inside hr, ⟨_, hv.nested hr⟩, site, hs.part hp, ?_⟩
    change Layered roots s.env _
    rwa [henv]
  initializer := by
    rintro depth name init m ⟨hm, ⟨outer, hv⟩, site, hs, hl⟩
    refine ⟨hm, ⟨_, hv.nested .initializer⟩, _, hs.initializer, ?_⟩
    rwa [Site.openings_declare]
  block := by
    rintro depth body before after s m m' u ⟨hm, ⟨outer, hv⟩, site, hs, hl⟩ hb hr henv
    refine ⟨hm.inside (.block hb hr), ⟨_, hv.nested (.block hb hr)⟩, _, hs.body (.block body) hb, ?_⟩
    change Layered roots m'.env _
    rw [henv, Site.openings_declare, Site.openings_framed]
    exact .cons (.block hv) hl
  call := by
    rintro depth node f args vars before after s m m₁ m' u ⟨hm, ⟨outer, hv⟩, -⟩ ha hstarts
      ⟨around, ⟨site, holder, hs, he⟩, hl⟩ hb hr henv
    have hreaches := Reaches.call ha hstarts hb hr
    refine ⟨hm.inside hreaches, ⟨_, hv.nested hreaches⟩, _, hs.body he hb, ?_⟩
    change Layered roots m'.env _
    rw [henv, Site.openings_declare, Tier.call, Site.openings_framed]
    exact .cons (.call hv ha hstarts) hl
  bind := by
    rintro depth node f o args? m m' ⟨-, ⟨outer, hv⟩, -⟩ hb ⟨around, hstands, hl⟩
    refine ⟨_, hstands, ?_⟩
    rw [Tier.receiver, Site.openings_framed]
    exact .cons (.receiver hv hb) hl
  inherit := by
    rintro depth keyword method address f m m' ⟨-, -, site, hs, -⟩ -
    -- no text has such an expression, so none was resolved
    have hresolved := hs.located.resolvedIn hres
    exact (Expr.ResolvedIn.scoped hresolved).elim
  lambda := by
    rintro depth params body m ⟨-, -, site, hs, hl⟩
    exact ⟨site, ⟨site, _, hs, .lambda params body⟩, hl⟩
  function := by
    rintro depth f m ⟨-, -, site, hs, hl⟩
    refine ⟨_, ⟨site, _, hs, .function f⟩, ?_⟩
    rwa [Site.openings_declare]
  method := by
    rintro depth id name superclass? methods f parent? m m₁ m₂ u ⟨-, ⟨outer, hv⟩, site, hs, hl⟩ hf hp
      hd henv
    -- the frame of the superclass was opened for the methods, if there is one
    have hparent : Layered roots (m₂.methodEnv parent?)
        (Site.openings (Site.around superclass?.isSome true (Site.declare [name.lexeme] site))) := by
      unfold Machine.methodEnv Site.around
      rw [parentClass_isSome hp]
      cases superclass? with
      | none =>
        rw [henv]
        simpa [Tier.receiver] using hl
      | some superclass =>
        obtain ⟨c, rfl⟩ := Option.isSome_iff_exists.1 (parentClass_isSome hp)
        have ho := Opened.parent hv hp hd
        rw [henv] at ho ⊢
        simpa [Tier.receiver] using Layered.cons ho hl
    have hstands : (f.made id (m₂.methodEnv parent?) (f.name.lexeme = "init")).StandsIn programs
        (Site.around superclass?.isSome f.isStatic (Site.declare [name.lexeme] site)) :=
      ⟨site, _, hs, .method hf⟩
    unfold Policy.allows
    cases hstatic : f.isStatic with
    | false =>
      rw [hstatic] at hstands
      rw [if_neg (by simp [Function.made, hstatic])]
      exact ⟨_, hstands, hparent⟩
    | true =>
      rw [hstatic] at hstands
      rw [if_pos (by simp [Function.made, hstatic])]
      exact ⟨_, hstands, hparent⟩
  push _ _ := trivial
  write _ _ _ _ _ := trivial

end Lox
