import Lox.Proofs.Machine.Observe
import Lox.Proofs.Machine.Receivers
import Lox.Proofs.Machine.Sites
import Lox.Proofs.Scope.Supers
import Lox.Proofs.Tree.Same

/-!
# Super is lexical

A reference to the superclass in a method looks for a method from the class that the superclass clause
of the method's own class denoted when that class was declared, whatever the class of the receiver is,
and yields it with the receiver of the method around the reference. Blocks and functions may stand
between the method and the reference. Nothing may be called `super` or `this`.
-/

namespace Lox

open Eval Outcome

variable {programs : List Stmt → Prop} {roots : Moment → Prop}

/-! ### Classes and receivers of a run -/

section

variable (roots : Moment → Prop)

/-- The class of a seat was declared: its superclass clause denoted a class, and a frame was opened inside
an environment to hold that class for the methods. -/
inductive Seat.Declared (seat : Seat) : Class → FrameId → Env → Prop where
  | intro {depth : Nat} {c : Class} {u : Unit} {m m₁ m₂ : Machine} {outer : List Moment}
      (h : Visited roots
        (⟨depth + 1, .stmt (.classDecl seat.name (some seat.superclass) seat.methods), m⟩ :: outer))
      (hp : parentClass (some seat.superclass) m = .ok (some c) m₁)
      (hd : Run.define seat.name seat.name.lexeme .nil m₁ = .ok u m₂) :
      Declared seat c m₂.frames.size m₂.env

/-- A method was given its receiver, and a frame was opened to hold it: the method was read from an
instance or called on it, or a reference to a superclass passed its own receiver on. -/
inductive Closure.Given (f : Closure) : Value → FrameId → Prop where
  | bound {depth : Nat} {node : Node} {o : Object} {args? : Option (List Value)} {m m' : Machine}
      {outer : List Moment} (h : Visited roots (⟨depth + 1, node, m⟩ :: outer))
      (hb : Binds depth node m f o args? m') : Given f (.object o) m'.frames.size
  | inherited {depth distance : Nat} {keyword method : Token} {c : Class} {this : Value} {m : Machine}
      {outer : List Moment}
      (h : Visited roots (⟨depth + 1, .expr (.super keyword method (.hops distance)), m⟩ :: outer))
      (hc : m.frames.getAt m.env distance "super" = .ok (.type c))
      (hv : m.frames.getAt m.env (distance - 1) "this" = .ok this)
      (hf : c.findMethod? method.lexeme = some f) : Given f this m.frames.size

/-- An environment starts with the frame of a receiver that the method of a seat was given, and with that
of the superclass which the class of the seat was declared with. -/
inductive Seat.Holds (seat : Seat) : Env → Class → Value → Prop where
  | intro {id : Nat} {isInit : Bool} {receiver parent : FrameId} {outer : Env} {c : Class} {this : Value}
      (hd : seat.Declared roots c parent outer)
      (hg : (seat.method.made id (parent :: outer) isInit).Given roots this receiver) :
      Holds seat (receiver :: parent :: outer) c this

/-- The environment of what stands at a place: as many frames as the place is high, and then those of the
receiver and of the superclass. -/
inductive Place.Fits (frames : Frames) : Env → Place → Prop where
  | elsewhere {env : Env} : Fits frames env none
  | receiver {seat : Seat} {receiver parent : FrameId} {outer : Env} {c : Class} {this : Value}
      (h : seat.Holds roots (receiver :: parent :: outer) c this)
      (hthis : frames.held? receiver "this" = some this)
      (hsuper : frames.held? parent "super" = some (.type c)) :
      Fits frames (receiver :: parent :: outer) (some (seat, 0))
  | inside {seat : Seat} {height : Nat} {env : Env} (h : Fits frames env (some (seat, height)))
      (id : FrameId) : Fits frames (id :: env) (some (seat, height + 1))

end

def Frames.HoldsOn (frames frames' : Frames) : Prop :=
  ∀ (id : FrameId) (x : String) (v : Value), x = "super" ∨ x = "this" →
    frames.held? id x = some v → frames'.held? id x = some v

theorem Frames.holdsOn_push (frames : Frames) (vars : Table Value) :
    frames.HoldsOn (frames.push (.named vars)) :=
  fun _ _ _ _ hid => held?_push_of_held? hid vars

theorem Frames.holdsOn_write {frames : Frames} {name : String} (hs : name ≠ "super")
    (ht : name ≠ "this") (id : FrameId) (v : Value) : frames.HoldsOn (frames.write id name v) := by
  rintro i x u hx hi
  rw [Frames.held?_write_of_ne (by rintro rfl; exact hx.elim hs ht)]
  exact hi

namespace Place.Fits

variable {frames frames' : Frames} {env : Env} {place : Place}

theorem mono (h : place.Fits roots frames env) (hf : frames.HoldsOn frames') :
    place.Fits roots frames' env := by
  induction h with
  | elsewhere => exact .elsewhere
  | receiver hh hthis hsuper =>
    exact .receiver hh (hf _ _ _ (.inr rfl) hthis) (hf _ _ _ (.inl rfl) hsuper)
  | inside _ id ih => exact ih.inside id

theorem enter (h : place.Fits roots frames env) (id : FrameId) :
    place.inside.Fits roots frames (id :: env) := by
  cases h with
  | elsewhere => exact .elsewhere
  | receiver hh hthis hsuper => exact (receiver hh hthis hsuper).inside id
  | inside h id' => exact (h.inside id').inside id

theorem found {seat : Seat} {height : Nat} (h : Place.Fits roots frames env (some (seat, height))) :
    ∃ c this, seat.Holds roots (env.drop height) c this ∧
      frames.getAt env height "this" = .ok this ∧
      frames.getAt env (height + 1) "super" = .ok (.type c) := by
  generalize hplace : some (seat, height) = place at h
  induction h generalizing height with
  | elsewhere => cases hplace
  | @receiver _ receiver parent outer c this hh hthis hsuper =>
    cases hplace
    exact ⟨c, this, hh, Frames.getAt_of_held? rfl hthis, Frames.getAt_of_held? rfl hsuper⟩
  | inside h id ih =>
    -- an address that is one longer passes over the frame
    cases hplace
    rw [Frames.getAt_cons, Frames.getAt_cons]
    exact ih rfl

end Place.Fits

/-! ### What is asked -/

/-- What is run at the first of some moments, each nested in the next, stands at a place: the statements of
the programs stand elsewhere, the parts of a node where it does, and what is in a block one scope further
inside. The body of a function stands inside the place where the function was made, at a moment whose
environment is the outer part of its own. -/
inductive Standing (programs : List Stmt → Prop) (roots : Moment → Prop) : Place → List Moment → Prop where
  | root {v : Moment} (h : roots v) (hs : Seated programs none v.node) : Standing programs roots none [v]
  | part {place : Place} {depth : Nat} {node n : Node} {m m' : Machine} {outer : List Moment}
      (h : Standing programs roots place (⟨depth + 1, node, m⟩ :: outer)) (hr : Reaches depth node m n m')
      (hp : n ∈ node.parts) :
      Standing programs roots place (⟨depth, n, m'⟩ :: ⟨depth + 1, node, m⟩ :: outer)
  | initializer {place : Place} {depth : Nat} {name : Token} {init : Expr} {m : Machine}
      {outer : List Moment}
      (h : Standing programs roots place (⟨depth + 1, .stmt (.varDecl name (some init)), m⟩ :: outer)) :
      Standing programs roots place
        (⟨depth, .expr init, m⟩ :: ⟨depth + 1, .stmt (.varDecl name (some init)), m⟩ :: outer)
  | block {place : Place} {depth : Nat} {body before after : List Stmt} {s : Stmt} {m m' : Machine}
      {u : Unit} {outer : List Moment}
      (h : Standing programs roots place (⟨depth + 1, .stmt (.block body), m⟩ :: outer))
      (hb : body = before ++ s :: after)
      (hr : execAll (run depth) before (m.enter m.env .empty) = .ok u m') :
      Standing programs roots place.inside
        (⟨depth, .stmt s, m'⟩ :: ⟨depth + 1, .stmt (.block body), m⟩ :: outer)
  | call {place holder around : Place} {depth : Nat} {node : Node} {f : Closure} {args : List Value}
      {vars : Table Value} {before after : List Stmt} {s : Stmt} {m m₁ m' : Machine} {u : Unit}
      {v : Moment} {outer earlier : List Moment}
      (h : Standing programs roots place (⟨depth + 1, node, m⟩ :: outer))
      (ha : Applies depth node m f args m₁) (hs : Starts f args m₁ vars)
      (hb : f.body = before ++ s :: after)
      (hr : execAll (run depth) before (m₁.enter f.env vars) = .ok u m')
      (hmade : Standing programs roots holder (v :: earlier))
      (he : holder.Encloses v.node around f.body) (henv : v.machine.env <:+ f.env) :
      Standing programs roots around.inside (⟨depth, .stmt s, m'⟩ :: ⟨depth + 1, node, m⟩ :: outer)

namespace Standing

theorem visited {place : Place} {moments : List Moment} (h : Standing programs roots place moments) :
    Visited roots moments := by
  induction h with
  | root h => exact .root h
  | part _ hr _ ih => exact ih.nested hr
  | initializer _ ih => exact ih.nested .initializer
  | block _ hb hr ih => exact ih.nested (.block hb hr)
  | call _ ha hs hb hr _ _ _ ih => exact ih.nested (.call ha hs hb hr)

theorem seated {place : Place} {v : Moment} {outer : List Moment}
    (h : Standing programs roots place (v :: outer)) : Seated programs place v.node := by
  suffices hhead : ∀ {place moments}, Standing programs roots place moments →
      ∀ v ∈ moments.head?, Seated programs place v.node from hhead h v rfl
  intro place moments h
  induction h with
  | root _ hs =>
    rintro _ ⟨⟩
    exact hs
  | part _ _ hp ih =>
    rintro _ ⟨⟩
    exact (ih _ rfl).part hp
  | initializer _ ih =>
    rintro _ ⟨⟩
    exact (ih _ rfl).initializer
  | block _ hb _ ih =>
    rintro _ ⟨⟩
    exact (ih _ rfl).body (.block _) (by simp [hb])
  | call _ _ _ hb _ _ he _ _ ih =>
    rintro _ ⟨⟩
    exact (ih _ rfl).body he (by simp [hb])

end Standing

/-- The body of a function stands inside a place since the function was made, and nothing in it is called
`super` or `this`. -/
structure Closure.StandsAt (programs : List Stmt → Prop) (roots : Moment → Prop) (f : Closure)
    (outer : Place) : Prop where
  params : ∀ param ∈ f.params, param.lexeme ≠ "super" ∧ param.lexeme ≠ "this"
  body : ∃ place v earlier, Standing programs roots place (v :: earlier) ∧
    place.Encloses v.node outer f.body ∧ v.machine.env <:+ f.env

/-- A method that waits for its receiver. If its class has a superclass, the environment starts with the
frame that holds it. -/
inductive Closure.Waits (programs : List Stmt → Prop) (roots : Moment → Prop) (frames : Frames) :
    Closure → Prop where
  | root {name : Token} {methods : List Function} {f : Function} {id : Nat} {env : Env} {isInit : Bool}
      {place : Place} {depth : Nat} {m : Machine} {earlier : List Moment}
      (h : Standing programs roots place (⟨depth, .stmt (.classDecl name none methods), m⟩ :: earlier))
      (hf : f ∈ methods) (henv : m.env <:+ env) : Waits programs roots frames (f.made id env isInit)
  | inherits {name : Token} {superclass : Token × Address} {methods : List Function} {f : Function}
      {id : Nat} {isInit : Bool} {place : Place} {parent : FrameId} {outer : Env} {c : Class} {depth : Nat}
      {m : Machine} {earlier : List Moment}
      (h : Standing programs roots place
        (⟨depth, .stmt (.classDecl name (some superclass) methods), m⟩ :: earlier))
      (hf : f ∈ methods) (henv : m.env <:+ outer) (hs : f.isStatic = false)
      (hd : Seat.Declared roots ⟨name, superclass, methods, f⟩ c parent outer)
      (hsuper : frames.held? parent "super" = some (.type c)) :
      Waits programs roots frames (f.made id (parent :: outer) isInit)

/-- What is run and called has the environment that its place asks for, and methods wait in the one that
their class was declared in. -/
def Covenant.seated (programs : List Stmt → Prop) (roots : Moment → Prop) : Covenant where
  callable frames f := ∃ outer : Place, f.StandsAt programs roots outer ∧ outer.Fits roots frames f.env
  waiting frames f := f.Waits programs roots frames
  runs v := ∃ place outer, Standing programs roots place (v :: outer) ∧
    place.Fits roots v.machine.frames v.machine.env
  frames frames := frames.Receives
  grows := Frames.HoldsOn
  alter := id
  plain _ := True

namespace Place

variable {name : Token} {methods : List Function} {f : Function}

theorem receiver_root : receiver name none methods f = none := by
  unfold receiver
  cases f.isStatic <;> rfl

theorem receiver_static {superclass? : Option (Token × Address)} (h : f.isStatic = true) :
    receiver name superclass? methods f = none := by
  unfold receiver
  rw [if_pos h]

theorem receiver_inherits {superclass : Token × Address} (h : f.isStatic = false) :
    receiver name (some superclass) methods f = some (⟨name, superclass, methods, f⟩, 0) := by
  unfold receiver
  rw [if_neg (by simp [h])]
  rfl

end Place

def Spared (programs : List Stmt → Prop) : Prop :=
  ∀ program, programs program → Stmt.allOf (Node.spares ["super", "this"]) program = true

namespace Seated

variable {place : Place} {node : Node}

theorem all_spares (hs : Spared programs) (h : Seated programs place node) :
    node.all (Node.spares ["super", "this"]) = true := by
  induction h with
  | top hp hmem => exact Stmt.allOf_iff.1 (hs _ hp) _ hmem
  | part _ hp ih => exact Node.all_part ih hp
  | initializer _ ih => exact Node.all_initializer ih
  | body _ he hmem ih =>
    refine Stmt.allOf_iff.1 ?_ _ hmem
    cases he with
    | block => exact Node.all_block ih
    | lambda => exact Node.all_lambda ih
    | function => exact Node.all_function ih
    | method hf => exact Node.all_method ih hf

theorem ne_of_bound (hs : Spared programs) (h : Seated programs place node) {name : Token}
    (hn : name ∈ node.bound) : name.lexeme ≠ "super" ∧ name.lexeme ≠ "this" := by
  have hself := Node.self_of_all (h.all_spares hs)
  exact ⟨Node.ne_of_spares hself (by simp) hn, Node.ne_of_spares hself (by simp) hn⟩

end Seated

namespace Covenant

variable (hs : Spared programs)

include hs

/-- A method stands in the scope of its receiver. -/
theorem standsAt_method {name : Token} {superclass? : Option (Token × Address)}
    {methods : List Function} {f : Function} {place : Place} {depth : Nat} {m : Machine}
    {earlier : List Moment}
    (h : Standing programs roots place (⟨depth, .stmt (.classDecl name superclass? methods), m⟩ :: earlier))
    (hf : f ∈ methods) (id : Nat) {env : Env} (henv : m.env <:+ env) (isInit : Bool) :
    (f.made id env isInit).StandsAt programs roots (.receiver name superclass? methods f) where
  params _ hp := h.seated.ne_of_bound hs (List.mem_cons_of_mem _ (List.mem_flatMap.2 ⟨f, hf, hp⟩))
  body := ⟨place, _, _, h, .method hf, henv⟩

theorem callable_of_waits {f : Closure} {frames : Frames} (h : f.Waits programs roots frames)
    {this : Value} (id : Nat) (hg : f.Given roots this frames.size) :
    (seated programs roots).callable
      (frames.push (.named (Table.empty.insert "this" this)))
      { f with id := id, env := frames.size :: f.env } := by
  cases h with
  | root h hf henv =>
    refine ⟨_, standsAt_method hs h hf id (henv.trans (List.suffix_cons ..)) _, ?_⟩
    rw [Place.receiver_root]
    exact .elsewhere
  | @inherits _ _ _ _ _ _ _ parent outer _ _ m _ h hf henv hstatic hd hsuper =>
    have henv : m.env <:+ frames.size :: parent :: outer :=
      henv.trans ((List.suffix_cons parent outer).trans (List.suffix_cons ..))
    refine ⟨_, standsAt_method hs h hf id henv _, ?_⟩
    -- the new frame is the innermost one, before that of the superclass
    rw [Place.receiver_inherits hstatic]
    refine .receiver (.intro hd hg) ?_ (Frames.holdsOn_push _ _ _ _ _ (.inl rfl) hsuper)
    rw [Frames.held?_push, if_pos rfl]
    rfl

theorem seated_lawful : (seated programs roots).Lawful where
  refl _ _ _ _ _ hv := hv
  trans h h' id x v hx hv := h' id x v hx (h id x v hx hv)
  callable_mono := by
    rintro frames frames' f hgrows ⟨outer, hstands, hfits⟩
    exact ⟨outer, hstands, hfits.mono hgrows⟩
  waiting_mono := by
    rintro frames frames' f hgrows hwaits
    cases hwaits with
    | root h hf henv => exact .root h hf henv
    | inherits h hf henv hstatic hd hsuper =>
      exact .inherits h hf henv hstatic hd (hgrows _ _ _ (.inl rfl) hsuper)
  alike _ := .refl _ _
  part := by
    rintro depth node n m s ⟨place, outer, hstanding, hfits⟩ hr hp ha
    refine ⟨place, _, hstanding.part hr hp, ?_⟩
    change place.Fits roots s.frames s.env
    rw [ha.env]
    exact hfits.mono ha.grows
  initializer := by
    rintro depth name init m ⟨place, outer, hstanding, hfits⟩
    exact ⟨place, _, hstanding.initializer, hfits⟩
  block := by
    rintro depth body before after s m m' u ⟨place, outer, hstanding, hfits⟩ - hb hr ha
    refine ⟨_, _, hstanding.block hb hr, ?_⟩
    change place.inside.Fits roots m'.frames m'.env
    rw [ha.env]
    exact ((hfits.mono (Frames.holdsOn_push _ _)).enter _).mono ha.grows
  call := by
    -- where the call stands does not matter: the body stands where the function was made
    rintro depth node f args vars before after s m m₁ m' u ⟨place, outer, hstanding, -⟩ happ hstarts -
      ⟨around, ⟨-, holder, v, earlier, hmade, he, henv⟩, hfits⟩ hb hr ha
    refine ⟨_, _, hstanding.call happ hstarts hb hr hmade he henv, ?_⟩
    change around.inside.Fits roots m'.frames m'.env
    rw [ha.env]
    exact ((hfits.mono (Frames.holdsOn_push _ _)).enter _).mono ha.grows
  bind := by
    rintro depth node f o args? m m' ⟨place, outer, hstanding, -⟩ hb hwaits
    exact callable_of_waits hs hwaits _ (.bound hstanding.visited hb)
  inherit := by
    rintro depth distance keyword method f c v m m' ⟨place, outer, hstanding, -⟩ hc hv hm hframes hwaits
    have hgiven := Closure.Given.inherited hstanding.visited hc hv hm
    rw [← hframes] at hgiven hwaits
    exact callable_of_waits hs hwaits _ hgiven
  lambda := by
    rintro depth params body m ⟨place, outer, hstanding, hfits⟩
    exact ⟨place, ⟨fun _ hp => hstanding.seated.ne_of_bound hs hp,
      place, _, _, hstanding, .lambda params body, List.suffix_rfl⟩, hfits⟩
  function := by
    rintro depth f id m v ⟨place, outer, hstanding, hfits⟩ - - hg
    exact ⟨place, ⟨fun _ hp => hstanding.seated.ne_of_bound hs (List.mem_cons_of_mem _ hp),
      place, _, _, hstanding, .function f, List.suffix_rfl⟩, hfits.mono hg⟩
  method := by
    rintro depth id name superclass? methods f parent? m m₁ m₂ u
      ⟨place, outer, hstanding, hfits⟩ hf hp hd ha
    have henv : m.env <:+ m₂.env := ha.env ▸ List.suffix_rfl
    have hmade : m.env <:+ m₂.methodEnv parent? := by
      unfold Machine.methodEnv
      split
      · exact henv.trans (List.suffix_cons ..)
      · exact henv
    have hstands := standsAt_method hs hstanding hf id hmade (f.name.lexeme = "init")
    unfold Policy.allows
    cases hstatic : f.isStatic with
    | true =>
      rw [if_pos (by simp [Function.made, hstatic])]
      refine ⟨_, hstands, ?_⟩
      rw [Place.receiver_static hstatic]
      exact .elsewhere
    | false =>
      rw [if_neg (by simp [Function.made, hstatic])]
      cases superclass? with
      | none => exact .root hstanding hf hmade
      | some superclass =>
        -- the frame of the superclass is opened for the methods
        obtain ⟨c, rfl⟩ := Option.isSome_iff_exists.1 (parentClass_isSome hp)
        refine .inherits hstanding hf henv hstatic (.intro hstanding.visited hp hd) ?_
        unfold Machine.methodFrames
        rw [Frames.held?_push, if_pos rfl]
        rfl
  push hm ho := by
    refine ⟨ho.receives (fun f hf param hp => ?_) hm.frames, Frames.holdsOn_push _ _, rfl⟩
    obtain ⟨outer, hstands, -⟩ := hf
    exact (hstands.params param hp).2
  write := by
    rintro depth node name m₀ m ⟨place, outer, hstanding, -⟩ hn hm id - v
    obtain ⟨hsuper, hthis⟩ := hstanding.seated.ne_of_bound hs (Node.mem_bound_of_given hn)
    exact ⟨hm.frames.write hthis id v, Frames.holdsOn_write hsuper hthis id v, rfl⟩
  search _ _ := trivial

end Covenant

/-! ### Evaluating a reference -/

/-- A machine with the given output in place of its own. -/
def Machine.withOut (m : Machine) (out : Array Line) : Machine := { m with out := out }

namespace Eval

variable {m : Machine}

theorem trace_withOut (text : String) (m : Machine) :
    ∃ out, (m.traced = false → out = m.out) ∧ Run.trace (.ok text) m = .ok () (m.withOut out) := by
  rw [Run.trace_eq]
  by_cases ht : m.traced = true
  · exact ⟨_, fun hf => absurd ht (by simp [hf]), by rw [if_pos ht]; rfl⟩
  · exact ⟨m.out, fun _ => rfl, by rw [if_neg ht]; rfl⟩

theorem trace_bind (out : Array Line) {text : Except Defect String} (h : ∃ line, text = .ok line)
    {f : Unit → Run Value} {first : Array Line} {r : Machine → EStateM.Result Exit Machine Value}
    (hout : m.traced = false → out = first)
    (hf : ∀ out', (m.traced = false → out' = first) →
      ∃ out'', (m.traced = false → out'' = first) ∧ f () (m.withOut out') = r (m.withOut out'')) :
    ∃ out'', (m.traced = false → out'' = first) ∧
      (Run.trace text >>= f) (m.withOut out) = r (m.withOut out'') := by
  obtain ⟨line, rfl⟩ := h
  obtain ⟨out', hout', htrace⟩ := trace_withOut line (m.withOut out)
  rw [bind_of_ok htrace]
  exact hf out' fun ht => (hout' ht).trans (hout ht)

/-- What comes of a reference to the superclass: the method that is found there, with the receiver. -/
def inheritedOutcome (c : Class) (this : Value) (method : Token) (m : Machine) :
    EStateM.Result Exit Machine Value :=
  match c.findMethod? method.lexeme with
  | some f => .ok (.function (f.received m)) (m.receive this)
  | none => .error (.fault method (.undefinedInherited method.lexeme)) m

theorem superMethod_eq {distance : Nat} {c : Class} {this : Value} (method : Token)
    (hsuper : m.frames.getAt m.env (distance + 1) "super" = .ok (.type c))
    (hthis : m.frames.getAt m.env distance "this" = .ok this) (hr : this.IsReceiver)
    (hf : ∀ f, c.findMethod? method.lexeme = some f → f.name?.isSome) :
    ∃ out, (m.traced = false → out = m.out) ∧
      superMethod method (.hops (distance + 1)) m =
        inheritedOutcome c this method (m.withOut out) := by
  have hshown : ∃ text, this.display = .ok text := by
    rcases hr with rfl | ⟨o, rfl⟩
    · exact ⟨_, rfl⟩
    · exact ⟨_, rfl⟩
  have hfound : ∃ text, foundText (c.findMethod? method.lexeme) = .ok text := by
    cases hfind : c.findMethod? method.lexeme with
    | none => exact ⟨_, rfl⟩
    | some f =>
      obtain ⟨name, hname⟩ := Option.isSome_iff_exists.1 (hf f hfind)
      change ∃ text, f.display = .ok text
      unfold Closure.display
      rw [hname]
      exact ⟨_, rfl⟩
  unfold superMethod
  refine trace_bind m.out ⟨_, rfl⟩ (fun _ => rfl) fun out₁ h₁ => ?_
  refine trace_bind _ ⟨_, rfl⟩ h₁ fun out₂ h₂ => ?_
  change ∃ out, _ ∧ (Run.ofAccess method (m.frames.getAt m.env (distance + 1) "super") >>= _) _ = _
  rw [hsuper]
  change ∃ out, _ ∧ (Run.trace _ >>= fun _ =>
    Run.ofAccess method (m.frames.getAt m.env distance "this") >>= _) _ = _
  rw [hthis]
  refine trace_bind _ ⟨_, rfl⟩ h₂ fun out₃ h₃ => ?_
  obtain ⟨shown, hshown⟩ := hshown
  refine trace_bind _ (f := fun _ => _) ⟨_, congrArg (Except.map _) hshown⟩ h₃ fun out₄ h₄ => ?_
  obtain ⟨text, hfound⟩ := hfound
  refine trace_bind _ (f := fun _ => _) ⟨_, congrArg (Except.map _) hfound⟩ h₄ fun out₅ h₅ => ?_
  refine ⟨out₅, h₅, ?_⟩
  unfold inheritedOutcome
  cases c.findMethod? method.lexeme with
  | none => rfl
  | some f => rfl

end Eval

/-! ### From the start on -/

/-- What was run from the start on: statements of some programs, or the parts of such statements, each
with the machine on which it was run. -/
inductive Timeline (programs : List Stmt → Prop) : List Moment → Machine → Prop where
  | start (traced : Bool) (clock : Clock) : Timeline programs [] (.start traced clock)
  | next {moments : List Moment} {m m' : Machine} {program : List Stmt} {s : Stmt} {node : Node}
      {depth : Nat} (h : Timeline programs moments m) (hp : programs program) (hs : s ∈ program)
      (hn : node ∈ Node.stmt s :: (Node.stmt s).parts) (he : EndsIn depth node m m') :
      Timeline programs (⟨depth, node, m⟩ :: moments) m'
  | aside {moments : List Moment} {m m' : Machine} (h : Timeline programs moments m)
      (hframes : m'.frames = m.frames) (hfields : m'.fields = m.fields) (henv : m'.env = m.env)
      (hfresh : m'.fresh = m.fresh) : Timeline programs moments m'

def Scope.IsSparing (program : List Stmt) : Prop :=
  ∃ warns statements, Stmt.allOf (Node.spares ["super", "this"]) statements = true ∧
    (Scope.resolve warns statements).statements = .ok program

namespace Timeline

variable {moments : List Moment} {m : Machine}

theorem honours (hs : Spared programs) (h : Timeline programs moments m)
    (hroots : ∀ v ∈ moments, roots v) :
    m.Honours (.seated programs roots) ∧ ∀ v ∈ moments,
      (Covenant.seated programs roots).runs v ∧ v.machine.Honours (.seated programs roots) := by
  have hl : (Covenant.seated programs roots).Lawful := Covenant.seated_lawful hs
  induction h with
  | start traced clock => exact ⟨Machine.obeys_start (Machine.receives_start traced clock), nofun⟩
  | @next moments m m' program s node depth _ hp hmem hn he ih =>
    obtain ⟨hm, hmoments⟩ := ih fun v hv => hroots v (by simp [hv])
    have htop : Seated programs none (.stmt s) := .top hp hmem
    have hnode : Seated programs none node := by
      rcases List.mem_cons.1 hn with rfl | hpart
      · exact htop
      · exact htop.part hpart
    have hruns : (Covenant.seated programs roots).runs ⟨depth, node, m⟩ :=
      ⟨none, [], .root (hroots _ (by simp)) hnode, .elsewhere⟩
    have hk := hl.run_keeps depth hruns hm
    refine ⟨?_, List.forall_mem_cons.2 ⟨⟨hruns, hm⟩, hmoments⟩⟩
    rcases he with ⟨v, hv⟩ | ⟨e, he⟩
    · exact (hk.ok hv).1.honours
    · exact (hk.error he).1.honours
  | aside _ hframes hfields _ _ ih =>
    obtain ⟨hm, hmoments⟩ := ih hroots
    exact ⟨Covenant.honours_congr hm hframes hfields, hmoments⟩

theorem exists_place (hprograms : ∀ program, programs program → Scope.IsSparing program)
    (h : Timeline programs moments m) {v : Moment} {outer : List Moment}
    (hv : Visited (· ∈ moments) (v :: outer)) {keyword method : Token} {address : Address}
    (hnode : v.node = .expr (.super keyword method address)) (hk : keyword.lexeme = "super") :
    ∃ place around, Standing programs (· ∈ moments) place (v :: around) ∧
      ∀ seat height, place = some (seat, height) → ∃ c this,
        seat.Holds (· ∈ moments) (v.machine.env.drop height) c this ∧
        ∃ out, (v.machine.traced = false → out = v.machine.out) ∧
          ∀ depth, run (depth + 1) v.node v.machine =
            inheritedOutcome c this method (v.machine.withOut out) := by
  have hspares : Spared programs := by
    intro program hp
    obtain ⟨warns, statements, hs, hr⟩ := hprograms program hp
    exact Scope.resolve_spares hs hr
  have hsupers : ∀ program, programs program →
      Stmt.supersOf Expr.isInherited none program = true := by
    intro program hp
    obtain ⟨warns, statements, hs, hr⟩ := hprograms program hp
    exact Scope.resolve_supers (Stmt.allOf_mono (fun _ => Node.spares_mono (by simp)) _ hs) hr
  have hl : (Covenant.seated programs (· ∈ moments)).Lawful := Covenant.seated_lawful hspares
  obtain ⟨⟨place, around, hstanding, hfits⟩, hm⟩ :=
    hl.visited (h.honours hspares fun _ hv => hv).2 hv
  refine ⟨place, around, hstanding, ?_⟩
  rintro seat height rfl
  obtain ⟨c, this, hholds, hthis, hsuper⟩ := hfits.found
  -- the address that resolving has found leads to the frame of the superclass
  obtain rfl : address = .hops (height + 1) := by
    have hinherited := hstanding.seated.supers hsupers
    rw [hnode] at hinherited
    simpa [Node.supers, Expr.supers, Expr.isInherited, hk] using hinherited
  have hclass : Value.Obeys ((Covenant.seated programs (· ∈ moments)).policy v.machine.frames)
      (.type c) := Policy.obeys_getAt hm hsuper
  -- the trace shows the method, and only a function with a name can be shown
  have hnamed : ∀ f, c.findMethod? method.lexeme = some f → f.name?.isSome := by
    intro f hf
    cases Class.Obeys.findMethod? hclass hf with
    | root => rfl
    | inherits => rfl
  obtain ⟨out, hout, hrun⟩ := superMethod_eq method hsuper hthis (hm.frames.getAt hthis) hnamed
  refine ⟨c, this, hholds, out, hout, fun depth => ?_⟩
  rw [hnode]
  exact hrun

/-- A reference to the superclass is evaluated that stands in a method of a class with a superclass, under
whatever blocks and functions. It looks for its method from the class that the superclass clause denoted
when the class of the method was declared. It yields that method with the receiver that the method around
the reference was given, or fails if and only if no class from there on upward has the method. -/
theorem super_lexical (hprograms : ∀ program, programs program → Scope.IsSparing program)
    (h : Timeline programs moments m) {v : Moment} {outer : List Moment}
    (hv : Visited (· ∈ moments) (v :: outer)) {keyword method : Token} {address : Address}
    (hnode : v.node = .expr (.super keyword method address)) (hk : keyword.lexeme = "super")
    (hplace : ∀ place around, Standing programs (· ∈ moments) place (v :: around) → place.isSome = true) :
    ∃ seat height c this around, Standing programs (· ∈ moments) (some (seat, height)) (v :: around) ∧
      seat.Holds (· ∈ moments) (v.machine.env.drop height) c this ∧
      ∃ out, (v.machine.traced = false → out = v.machine.out) ∧ ∀ depth,
        (∀ f, c.findMethod? method.lexeme = some f →
          run (depth + 1) v.node v.machine =
            .ok (.function (f.received (v.machine.withOut out)))
              ((v.machine.withOut out).receive this)) ∧
        (run (depth + 1) v.node v.machine =
            .error (.fault method (.undefinedInherited method.lexeme)) (v.machine.withOut out) ↔
          ∀ k ∈ c.lineage, k.methods.get? method.lexeme = none) := by
  obtain ⟨place, around, hstanding, hsuper⟩ := exists_place hprograms h hv hnode hk
  obtain ⟨⟨seat, height⟩, rfl⟩ := Option.isSome_iff_exists.1 (hplace place around hstanding)
  obtain ⟨c, this, hholds, out, hout, hrun⟩ := hsuper seat height rfl
  refine ⟨seat, height, c, this, around, hstanding, hholds, out, hout, fun depth => ?_⟩
  rw [hrun, ← Class.findMethod?_eq_none]
  unfold inheritedOutcome
  cases c.findMethod? method.lexeme with
  | none => exact ⟨nofun, fun _ => rfl, fun _ => rfl⟩
  | some f => exact ⟨by rintro _ ⟨⟩; rfl, nofun, nofun⟩

/-- The reference in the program below. -/
def nestedSuper : Expr := .super (.ident "super" 1) (.ident "who" 1) (.hops 3)

def nestedBody : List Stmt := [.expression (.call nestedSuper ⟨.rightParen, ")", .nil, 1⟩ [])]

/-- The call of the function around that statement. -/
def nestedCall : Expr := .call (.variable (.ident "f" 1) (.hops 0)) ⟨.rightParen, ")", .nil, 1⟩ []

def nestedMethod : List Stmt :=
  [.funDecl ⟨.ident "f" 1, [], nestedBody, false, false⟩, .expression nestedCall]

/-- The classes: the superclass and a subclass of the class of the method have a method of the name that
is looked for. -/
def nestedClasses : List Stmt :=
  [.classDecl (.ident "A" 1) none [⟨.ident "who" 1, [], [], false, false⟩],
    .classDecl (.ident "B" 1) (some (.ident "A" 1, .hops 0))
      [⟨.ident "go" 1, [], nestedMethod, false, false⟩],
    .classDecl (.ident "C" 1) (some (.ident "B" 1, .hops 0))
      [⟨.ident "who" 1, [], [], false, false⟩]]

/-- The method of an instance of the subclass. -/
def nestedGet : Expr :=
  .get (.call (.variable (.ident "C" 1) (.hops 0)) ⟨.rightParen, ")", .nil, 1⟩ []) (.ident "go" 1)

def nestedStart : Expr := .call nestedGet ⟨.rightParen, ")", .nil, 1⟩ []

/-- The program `{ class A { who() {} } class B < A { go() { fun f() { super.who(); } f(); } }
class C < B { who() {} } C().go(); }`. -/
def nestedProgram : List Stmt := [.block (nestedClasses ++ [.expression nestedStart])]

/-- The class whose method is found. -/
def nestedParent : Class :=
  .mk 1 "A" none (Table.empty.insert "who" ⟨0, some "who", [], [], [1, 0], false, false, false⟩) .empty

def nestedClass : Class :=
  .mk 3 "B" (some nestedParent)
    (Table.empty.insert "go" ⟨2, some "go", [], nestedMethod, [2, 1, 0], false, false, false⟩) .empty

/-- The receiver, an instance of the subclass. -/
def nestedObject : Object :=
  ⟨0, .mk 5 "C" (some nestedClass)
    (Table.empty.insert "who" ⟨4, some "who", [], [], [3, 1, 0], false, false, false⟩) .empty⟩

/-- The machine in the block, with its variables and the superclasses of the classes that are declared. -/
def nestedDeclared (vars : Table Value) (supers : List Class) (fresh : Nat) : Machine :=
  { Machine.start false 0 with
    frames := (.named (Table.empty.insert "clock" (.native .clock)) :: .named vars ::
      supers.map fun c => .named (Table.empty.insert "super" (.type c))).toArray
    env := [1, 0]
    fresh := fresh }

def nestedMachine : Machine :=
  nestedDeclared (((Table.empty.insert "A" (.type nestedParent)).insert "B" (.type nestedClass)).insert "C"
    (.type nestedObject.type)) [nestedParent, nestedClass] 6

/-- The machine with the instance, whose method was given its receiver. -/
def nestedReceived : Machine :=
  { nestedMachine with
    frames := nestedMachine.frames.push (.named (Table.empty.insert "this" (.object nestedObject)))
    fields := #[.empty]
    fresh := 7 }

def nestedBound : Closure := ⟨6, some "go", [], nestedMethod, [4, 2, 1, 0], false, false, false⟩

def nestedFunction : Closure := ⟨7, some "f", [], nestedBody, [5, 4, 2, 1, 0], false, false, false⟩

/-- The variables with which both bodies start. -/
def nestedVars (frame : FrameId) : Table Value :=
  (Table.empty.insert "this" (.object nestedObject)).insert "inner" (.native (.inner frame))

def nestedCalling : Machine :=
  { nestedReceived with
    frames := nestedReceived.frames.push (.named ((nestedVars 5).insert "f" (.function nestedFunction)))
    env := nestedFunction.env
    fresh := 8 }

def nestedInside : Machine := nestedCalling.enter nestedFunction.env (nestedVars 6)

def nestedRoot : Moment :=
  ⟨12, .stmt (.block (nestedClasses ++ [.expression nestedStart])), .start false 0⟩

theorem visited_nestedSuper :
    ∃ outer, Visited (· ∈ [nestedRoot]) (⟨5, .expr nestedSuper, nestedInside⟩ :: outer) := by
  -- the classes are declared one by one, each on the machine that is written out
  have hparent : run 11 (.stmt (.classDecl (.ident "A" 1) none [⟨.ident "who" 1, [], [], false, false⟩]))
      ((Machine.start false 0).enter (Machine.start false 0).env .empty) =
        .ok .nil (nestedDeclared (Table.empty.insert "A" (.type nestedParent)) [] 2) := rfl
  have hclass : run 11 (.stmt (.classDecl (.ident "B" 1) (some (.ident "A" 1, .hops 0))
      [⟨.ident "go" 1, [], nestedMethod, false, false⟩]))
        (nestedDeclared (Table.empty.insert "A" (.type nestedParent)) [] 2) =
      .ok .nil (nestedDeclared ((Table.empty.insert "A" (.type nestedParent)).insert "B" (.type nestedClass))
        [nestedParent] 4) := rfl
  have hsubclass : run 11 (.stmt (.classDecl (.ident "C" 1) (some (.ident "B" 1, .hops 0))
      [⟨.ident "who" 1, [], [], false, false⟩]))
        (nestedDeclared ((Table.empty.insert "A" (.type nestedParent)).insert "B" (.type nestedClass))
          [nestedParent] 4) = .ok .nil nestedMachine := rfl
  have hclasses : execAll (run 11) nestedClasses
      ((Machine.start false 0).enter (Machine.start false 0).env .empty) = .ok () nestedMachine := by
    rw [nestedClasses, execAll, bind_of_ok hparent, execAll, bind_of_ok hclass, execAll, bind_of_ok hsubclass]
    rfl
  have hget : run 9 (.expr nestedGet) nestedMachine = .ok (.function nestedBound) nestedReceived := rfl
  have hmethod : Starts nestedBound [] nestedReceived (nestedVars 5) := ⟨.object nestedObject, rfl, rfl⟩
  have hbefore : execAll (run 9) [.funDecl ⟨.ident "f" 1, [], nestedBody, false, false⟩]
      (nestedReceived.enter nestedBound.env (nestedVars 5)) = .ok () nestedCalling := rfl
  have hcallee : run 7 (.expr (.variable (.ident "f" 1) (.hops 0))) nestedCalling =
      .ok (.function nestedFunction) nestedCalling := rfl
  have hfunction : Starts nestedFunction [] nestedCalling (nestedVars 6) := ⟨.object nestedObject, rfl, rfl⟩
  have hroot : Visited (· ∈ [nestedRoot]) [nestedRoot] := .root (List.mem_singleton.2 rfl)
  have hstart := (hroot.nested (.block rfl hclasses)).nested .expression
  have hinner := (hstart.nested
    (.call (.function hget rfl rfl) hmethod (List.singleton_append ..).symm hbefore)).nested .expression
  exact ⟨_, ((hinner.nested (.call (.function hcallee rfl rfl) hfunction (List.nil_append _).symm
    rfl)).nested .expression).nested .callee⟩

/-- The method of the superclass is found, not that of the class of the receiver, and it gets the receiver
of the method. -/
theorem super_lexical_nested :
    (∃ seat height c this, Seated (· = nestedProgram) (some (seat, height)) (.expr nestedSuper) ∧
      seat.Holds (· ∈ [nestedRoot]) (nestedInside.env.drop height) c this ∧
      ∃ out, (nestedInside.traced = false → out = nestedInside.out) ∧
        ∀ f, c.findMethod? "who" = some f →
          run 5 (.expr nestedSuper) nestedInside =
            .ok (.function (f.received (nestedInside.withOut out)))
              ((nestedInside.withOut out).receive this)) ∧
    run 5 (.expr nestedSuper) nestedInside =
      .ok (.function ⟨8, some "who", [], [], [7, 1, 0], false, false, false⟩)
        (nestedInside.receive (.object nestedObject)) := by
  have hsparing : ∀ program, program = nestedProgram → Scope.IsSparing program := by
    rintro _ rfl
    exact ⟨true, nestedProgram, by decide, Stmt.eq_of_areYielded (by decide +kernel)⟩
  have hplace : ∀ place around, Standing (· = nestedProgram) (· ∈ [nestedRoot]) place
      (⟨5, .expr nestedSuper, nestedInside⟩ :: around) → place.isSome = true := by
    intro place around hstanding
    have hheight := hstanding.seated.supers (p := fun height? _ => height?.isSome) (by rintro _ rfl; decide)
    simpa [Node.supers, nestedSuper, Expr.supers] using hheight
  have htimeline : Timeline (· = nestedProgram) [nestedRoot] _ :=
    (start false 0).next rfl (List.mem_singleton.2 rfl) (List.mem_cons_self ..) (endsIn_leftBy ..)
  obtain ⟨outer, hv⟩ := visited_nestedSuper
  obtain ⟨seat, height, c, this, around, hstanding, hholds, out, hout, hrun⟩ :=
    super_lexical hsparing htimeline hv rfl rfl hplace
  exact ⟨⟨seat, height, c, this, hstanding.seated, hholds, out, hout, (hrun 4).1⟩, rfl⟩

/-! ### When `this` is given a value -/

/-- The reference in the program below. -/
def plainSuper : Expr := .super (.ident "super" 1) (.ident "who" 1) (.hops 2)

/-- The program `{ class A { who() { print this; } } class B < A { go() { this = true; super.who(); } }
B().go(); }` with or without the assignment. Such a tree is read from no text. -/
def assigning (assigns : Bool) : List Stmt :=
  [.block
    [.classDecl (.ident "A" 1) none
      [⟨.ident "who" 1, [], [.print (.this ⟨.kwThis, "this", .nil, 1⟩ (.hops 1))], false, false⟩],
      .classDecl (.ident "B" 1) (some (.ident "A" 1, .hops 0))
        [⟨.ident "go" 1, [],
          (if assigns then
            [.expression (.assign (.ident "this" 1) (.hops 1) (.literal (.bool true)))] else []) ++
          [.expression (.call plainSuper ⟨.rightParen, ")", .nil, 1⟩ [])], false, false⟩],
      .expression (.call (.get (.call (.variable (.ident "B" 1) (.hops 0))
        ⟨.rightParen, ")", .nil, 1⟩ []) (.ident "go" 1)) ⟨.rightParen, ")", .nil, 1⟩ [])]]

/-- Whether a run completes with the given output. -/
private def completesWith (out : Array Line) : EStateM.Result Exit Machine Unit → Bool
  | .ok _ m => m.out = out
  | .error _ _ => false

private theorem recast_of_completesWith {r : EStateM.Result Exit Machine Unit} {out : Array Line}
    (h : completesWith out r = true) : Outcome.recast Machine.out id id r = .ok () out := by
  cases r with
  | ok u m => exact congrArg (EStateM.Result.ok ()) (of_decide_eq_true h)
  | error e m => cases h

/-- A method that gives `this` a value passes that value on, and not the receiver that it was given,
though nothing is called `super` and the reference stands in a method of a class with a superclass. -/
theorem super_passes_assigned :
    Stmt.allOf (fun node => node.bound.all (·.lexeme != "super")) (assigning true) = true ∧
    Stmt.supersOf (fun height? _ => height?.isSome) none (assigning true) = true ∧
    (Scope.resolve true (assigning true)).statements = .ok (assigning true) ∧
    Outcome.recast Machine.out id id (execAll (run 12) (assigning true) (.start false 0)) =
      .ok () #[.shown "true"] ∧
    Outcome.recast Machine.out id id (execAll (run 12) (assigning false) (.start false 0)) =
      .ok () #[.shown "<B instance>"] :=
  ⟨by decide, by decide, Stmt.eq_of_areYielded (by decide +kernel),
    recast_of_completesWith (by decide +kernel), recast_of_completesWith (by decide +kernel)⟩

end Timeline

end Lox
