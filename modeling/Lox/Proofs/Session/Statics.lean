import Lox.Proofs.Machine.Sites
import Lox.Proofs.Session.Access

/-!
# Access past methods of classes

The address of a local variable counts the scopes between the place where it is used and the scope that
holds its name. An access takes as many steps along the frames of the environment. A method that
belongs to its class stands in a scope for which no frame is opened, so inside it the count and the
frames do not agree.
-/

namespace Lox

open Eval Outcome

/-- What an access by depth does: it goes to the frame at that place of the environment, whatever names
the frame holds, and fails if there is none. -/
def Machine.AccessesAt (m : Machine) (name : Token) (d : Nat) : Prop :=
  match m.env[d]? with
  | some id => ∃ vars, m.frames[id]? = some (.named vars) ∧
      Run.read name (.hops d) m = .ok ((vars.get? name.lexeme).getD .nil) m ∧
      ∀ v, Run.assign name (.hops d) v m =
        .ok () { m with frames := m.frames.write id name.lexeme v }
  | none => ∃ operation,
      Run.read name (.hops d) m = .error (.defect (.frameLacks .absent operation)) m ∧
      ∀ v, Run.assign name (.hops d) v m = .error (.defect (.frameLacks .absent operation)) m

theorem Frames.namedAt_of_length_le (frames : Frames) {env : Env} {d : Nat} (h : env.length ≤ d) :
    ∃ missing, ∀ operation,
      frames.namedAt env d operation = .error (.defect (.frameLacks .absent missing)) := by
  unfold namedAt frameAt ancestor
  by_cases hd : d ≤ env.length
  · refine ⟨"values", fun operation => ?_⟩
    rw [if_pos hd, List.drop_eq_nil_of_le h]
    rfl
  · refine ⟨"enclosing", fun operation => ?_⟩
    rw [if_neg hd]
    rfl

theorem Machine.accessesAt {m : Machine} {p : Value → Prop} (hv : m.frames.AllNamed p)
    (henv : ∀ id ∈ m.env, id < m.frames.size) (name : Token) (d : Nat) : m.AccessesAt name d := by
  unfold AccessesAt
  cases hd : m.env[d]? with
  | some id =>
    obtain ⟨vars, hid, -⟩ := hv.exists_named (henv id (List.mem_of_getElem? hd))
    exact ⟨vars, hid, Run.read_hops hd hid name, Run.assign_hops hd hid name⟩
  | none =>
    obtain ⟨missing, hmissing⟩ :=
      Frames.namedAt_of_length_le m.frames (List.getElem?_eq_none_iff.1 hd)
    refine ⟨missing, ?_, ?_⟩
    · change Run.ofAccess name (m.frames.getAt m.env d name.lexeme) m = _
      unfold Frames.getAt
      rw [hmissing]
      rfl
    · intro v
      change EStateM.bind (Run.ofAccess name (m.frames.namedAt m.env d "assign_at")) _ m = _
      rw [hmissing]
      rfl

/-! ### What holds between texts -/

theorem Admits.allResolvedIn {t : Text} {program : List Stmt} (h : Admits t program) :
    Stmt.AllResolvedIn true [] program :=
  allResolvedIn_of_clean h.resolved h.clean nofun

theorem Located.sited {programs : List Stmt → Prop} {node : Node} (h : Located programs [] node) :
    Sited programs [] node := by
  generalize hnest : ([] : Nest) = nest at h
  induction h with
  | top hp => exact .top hp
  | part _ hp ih => exact (ih hnest).part hp
  | @initializer nest name init _ ih =>
    -- outside all scopes a declaration adds no name to any of them
    cases nest with
    | nil => exact (ih rfl).initializer
    | cons => cases hnest
  | @body nest inner node before after s _ he _ =>
    -- a body always has a scope of its own
    generalize before ++ s :: after = body at he
    cases he <;> cases hnest

/-- Between texts a machine obeys the layout of environments, and is in the environment of the global
variables. -/
structure Calm (programs : List Stmt → Prop) (roots : Moment → Prop) (m : Machine) : Prop where
  obeys : m.Obeys (.sited programs roots)
  reachable : m.Reachable
  env : m.env = Machine.globals

section Run

variable {programs : List Stmt → Prop} {roots : Moment → Prop}

theorem Calm.runs {v : Moment} (hm : Calm programs roots v.machine)
    (hl : Located programs [] v.node) (hr : roots v) : (Policy.sited programs roots).runs v := by
  refine ⟨hm.reachable, ⟨[], .root hr⟩, [], hl.sited, ?_⟩
  rw [hm.env]
  exact .globals

theorem calm_persists
    (hres : ∀ program, programs program → Stmt.AllResolvedIn true [] program) :
    Session.Persists programs roots (Calm programs roots) where
  ends {node m} hm hl hr := by
    have hk := (Policy.sited_lawful hres).run_keeps bound (hm.runs hl hr) hm.obeys
    cases hrun : Eval.run bound node m with
    | ok v m' =>
      obtain ⟨henv, ho, -⟩ := hk.ok hrun
      exact ⟨ho, hm.reachable.ended (.inl ⟨v, hrun⟩), henv.trans hm.env⟩
    | error e m' =>
      obtain ⟨henv, ho, -⟩ := hk.error hrun
      exact ⟨ho, hm.reachable.ended (.inr ⟨e, hrun⟩), henv.trans hm.env⟩
  write hm line := ⟨hm.obeys.congr rfl rfl, hm.reachable.aside rfl rfl rfl rfl, hm.env⟩

end Run

/-! ### Access by depth -/

theorem Eval.Accesses.obeys {P : Policy} {depth : Nat} {node : Node} {m m' : Machine} {name : Token}
    {address : Address} (h : Accesses depth node m name address m') (hl : P.Lawful)
    (hr : P.runs ⟨depth + 1, node, m⟩) (ho : m.Obeys P) (hm : m.Reachable) :
    m'.env = m.env ∧ m'.Obeys P ∧ m'.Reachable := by
  cases h with
  | «variable» => exact ⟨rfl, ho, hm⟩
  | this => exact ⟨rfl, ho, hm⟩
  | superclass => exact ⟨rfl, ho, hm⟩
  | assign hvalue =>
    have hruns := hl.part hr .assigned (List.mem_singleton.2 rfl) rfl
    obtain ⟨henv, ho', -⟩ := (hl.run_keeps depth hruns ho).ok hvalue
    exact ⟨henv, ho', hm.ended (.inl ⟨_, hvalue⟩)⟩

theorem Machine.Reachable.env_nodup {m : Machine} (h : m.Reachable) :
    m.env.Nodup ∧ ∀ id ∈ m.env, id < m.frames.size := by
  obtain ⟨heap, hd⟩ := h.exists_describes
  refine ⟨(Heap.pairwise_of_path hd.env).imp fun hlt => Nat.ne_of_gt hlt, ?_⟩
  rw [← hd.size]
  exact Heap.lt_length_of_path hd.env

theorem getElem?_iff_of_drop {env outer : Env} {d k : Nat} {id : FrameId} (hn : env.Nodup)
    (hk : k ≤ d) (h : env.drop (d - k) = id :: outer) : env[d]? = some id ↔ k = 0 := by
  have hid : env[d - k]? = some id := getElem?_of_drop h
  constructor
  · intro hd
    obtain ⟨hlt, -⟩ := List.getElem?_eq_some_iff.1 hd
    have := (List.getElem?_inj hlt hn).1 (hd.trans hid.symm)
    omega
  · rintro rfl
    exact hid

namespace Session

theorem sited_of_visited {s : Session} {texts : List Text} {traced : Bool} {clock : Clock}
    (hstart : s.machine = .start traced clock) (hflag : s.flags.error = false)
    (hadmits : ∀ t ∈ texts, ∃ program, Admits t program) {v : Moment} {outer : List Moment}
    (h : Visited (s.Enters texts) (v :: outer)) :
    (Policy.sited (admitted texts) (s.Enters texts)).runs v ∧
      v.machine.Obeys (.sited (admitted texts) (s.Enters texts)) := by
  have hres : ∀ program, admitted texts program → Stmt.AllResolvedIn true [] program :=
    fun program ⟨_, _, ht⟩ => ht.allResolvedIn
  have hcalm : Calm (admitted texts) (s.Enters texts) s.machine := by
    rw [hstart]
    exact ⟨Machine.obeys_start trivial, .start traced clock, rfl⟩
  refine (Policy.sited_lawful hres).visited ?_ h
  intro root hroot
  obtain ⟨hlocated, hm⟩ := (calm_persists hres).entered (fun t ht program hp => ⟨t, ht, hp⟩)
    (fun _ h => h) hadmits hcalm hflag hroot
  exact ⟨hm.runs hlocated hroot, hm.obeys⟩

/-- Some texts are admitted and run one after another in a session that has run nothing before, and a
node accesses a local variable by its address. The address leads to the nearest scope around the node
that holds the name. The scope of the receiver of a method that belongs to its class has no frame, and
no name but `this`. Any other scope has a frame in the environment, as many places before the one to
which the access goes as there are scopes without frames further in; so the access goes to the frame of
its scope if and only if there are none. -/
theorem access_in_scope_iff {s : Session} {texts : List Text} {traced : Bool} {clock : Clock}
    (hstart : s.machine = .start traced clock) (hflag : s.flags.error = false)
    (hadmits : ∀ t ∈ texts, ∃ program, Admits t program)
    {depth d : Nat} {node : Node} {m m' : Machine} {outer : List Moment} {name : Token}
    (hvisited : Visited (s.Enters texts) (⟨depth + 1, node, m⟩ :: outer))
    (haccess : Accesses depth node m name (.hops d) m') :
    ∃ (site : Site) (tier : Tier), Sited (admitted texts) site node ∧
      Scope.Locates site.nest.held name.lexeme (.hops d) ∧ site[d]? = some tier ∧
      Layered (s.Enters texts) m'.env site.openings ∧ m'.AccessesAt name d ∧
      (tier.framed = false → name.lexeme = "this") ∧
      (tier.framed = true → ∃ id rest, m'.env.drop (d - site.lacking d) = id :: rest ∧
        Opened (s.Enters texts) id tier.layer.opening rest ∧
        (m'.env[d]? = some id ↔ site.lacking d = 0)) := by
  have hres : ∀ program, admitted texts program → Stmt.AllResolvedIn true [] program :=
    fun program ⟨_, _, ht⟩ => ht.allResolvedIn
  obtain ⟨hruns, ho⟩ := sited_of_visited hstart hflag hadmits hvisited
  obtain ⟨henv, ho', hm'⟩ := haccess.obeys (Policy.sited_lawful hres) hruns ho hruns.1
  obtain ⟨-, -, site, hs, hlayered⟩ := hruns
  have hlayered' : Layered (s.Enters texts) m'.env site.openings := by rwa [henv]
  have hlocates := haccess.locates (hs.located.resolvedIn hres)
  obtain ⟨hnodup, hthere⟩ := hm'.env_nodup
  obtain ⟨scope, hscope, hname⟩ := hlocates.1
  obtain ⟨tier, htier, rfl⟩ : ∃ tier, site[d]? = some tier ∧ tier.layer.names = scope := by
    simpa [Nest.held, Site.nest] using hscope
  refine ⟨site, tier, hs, hlocates, htier, hlayered', Machine.accessesAt ho'.values hthere name d,
    fun hframed => hs.eq_this (List.mem_of_getElem? htier) hframed hname, ?_⟩
  intro hframed
  obtain ⟨id, rest, hdrop, hopened⟩ := hlayered'.drop_tier htier hframed
  exact ⟨id, rest, hdrop, hopened, getElem?_iff_of_drop hnodup (Site.lacking_le site d) hdrop⟩

/-- A method of a class returns a variable of the block around the class. -/
def farText : Text where
  source := "{var x=true;class C{class f(){return x;}}C.f();}"
  echoes := false

def farName : Expr := .variable (.ident "x" 1) (.hops 2)

def farBody : List Stmt := [.returnStmt ⟨.kwReturn, "return", .nil, 1⟩ (some farName)]

/-- The statements up to the call of the method. -/
def farBefore : List Stmt :=
  [.varDecl (.ident "x" 1) (some (.literal (.bool true))),
    .classDecl (.ident "C" 1) none [⟨.ident "f" 1, [], farBody, true, false⟩]]

/-- The method as a property of the class. -/
def farCallee : Expr := .get (.variable (.ident "C" 1) (.hops 0)) (.ident "f" 1)

def farCall : Expr := .call farCallee ⟨.rightParen, ")", .nil, 1⟩ []

def farBlock : Stmt := .block (farBefore ++ [.expression farCall])

theorem farText_admits : Admits farText [farBlock] := .of_yields (by decide +kernel)

def farDepth : Nat := bound - 5

def farMethod : Closure := ⟨0, some "f", [], farBody, [1, 0], false, false, true⟩

def farMachine : Machine :=
  { Machine.start false 0 with
    frames := #[.named (Table.empty.insert "clock" (.native .clock)),
      .named ((Table.empty.insert "x" (.bool true)).insert "C"
        (.type (.mk 1 "C" none .empty (Table.empty.insert "f" farMethod))))]
    env := [1, 0]
    fresh := 2 }

def farVars : Table Value := Table.empty.insert "this" .nil

def farInside : Machine := farMachine.enter farMethod.env farVars

def farRoots : Moment → Prop := (Session.new true 0).Enters [farText]

/-- The moments at which the variable is about to be read. -/
def farMoments : List Moment :=
  [⟨farDepth + 1, .expr farName, farInside⟩,
    ⟨farDepth + 2, .stmt (.returnStmt ⟨.kwReturn, "return", .nil, 1⟩ (some farName)), farInside⟩,
    ⟨farDepth + 3, .expr farCall, farMachine⟩,
    ⟨farDepth + 4, .stmt (.expression farCall), farMachine⟩,
    ⟨farDepth + 5, .stmt farBlock, .start false 0⟩]

theorem visited_farMoments : Visited farRoots farMoments := by
  have hroot : farRoots ⟨farDepth + 5, .stmt farBlock, .start false 0⟩ :=
    .inl ⟨_, farText_admits, .here⟩
  have hbefore : execAll (Eval.run (farDepth + 4)) farBefore
      ((Machine.start false 0).enter (Machine.start false 0).env .empty) = .ok () farMachine :=
    rfl
  have hblock : Reaches (farDepth + 4) (.stmt farBlock) (.start false 0)
      (.stmt (.expression farCall)) farMachine := .block rfl hbefore
  -- the class hands out the method as it was made, in the environment of the block
  have hcallee : Eval.run (farDepth + 2) (.expr farCallee) farMachine =
      .ok (.function farMethod) farMachine := rfl
  have hstarts : Starts farMethod [] farMachine farVars := ⟨.nil, rfl, rfl⟩
  have hcall : Reaches (farDepth + 2) (.expr farCall) farMachine
      (.stmt (.returnStmt ⟨.kwReturn, "return", .nil, 1⟩ (some farName))) farInside :=
    .call (.function hcallee rfl rfl) hstarts (List.nil_append _).symm rfl
  exact ((((Visited.root hroot).nested hblock).nested .expression).nested hcall).nested .returned

/-- The variable is found in the scope of the block, whose frame holds it; the access goes past that
frame if a scope further in has none, and gives `nil`. -/
theorem access_in_scope_iff_far : ∃ (site : Site) (tier : Tier) (id : FrameId) (rest : Env),
    Sited (admitted [farText]) site (.expr farName) ∧ site[2]? = some tier ∧
      farInside.env.drop (2 - site.lacking 2) = id :: rest ∧
      Opened farRoots id tier.layer.opening rest ∧
      (farInside.env[2]? = some id ↔ site.lacking 2 = 0) ∧
      farInside.frames.held? 1 "x" = some (.bool true) ∧
      Run.read (.ident "x" 1) (.hops 2) farInside = .ok .nil farInside := by
  have hadmits : ∀ t ∈ [farText], ∃ program, Admits t program := by
    intro t ht
    rw [List.mem_singleton.1 ht]
    exact ⟨_, farText_admits⟩
  obtain ⟨site, tier, hs, -, htier, -, -, hthis, hframe⟩ :=
    access_in_scope_iff rfl rfl hadmits visited_farMoments .variable
  have hframed : tier.framed = true := by
    by_contra hnot
    exact absurd (hthis (by simpa using hnot)) (by decide)
  obtain ⟨id, rest, hdrop, hopened, hiff⟩ := hframe hframed
  exact ⟨site, tier, id, rest, hs, htier, hdrop, hopened, hiff, rfl, rfl⟩

/-- A variable of the block is read in a method of the class and in a method of an instance. -/
def bothText : String :=
  "{var x=true;class C{class f(){return x;}m(){return x;}}print C().m();print C.f();}"

/-- A variable of the block is given a value in a method of the class. -/
def givingText : String := "{var x=nil;class C{class f(){x=true;}}C.f();}"

/-- Whether a variable was found and is `true`. -/
def foundTrue : Option Value → Bool
  | some (.bool true) => true
  | _ => false

theorem eq_of_foundTrue {v? : Option Value} (h : foundTrue v? = true) : v? = some (.bool true) := by
  unfold foundTrue at h
  split at h
  · rfl
  · cases h

/-- A method of a class finds `nil` where a method of an instance finds the variable, and what it gives
the variable becomes a global one. -/
theorem statics_miss_scope :
    ((new true 0).left (run bothText false)).machine.out = #[.shown "true", .shown "nil"] ∧
      ((new true 0).left (run givingText false)).machine.globalTable.get? "x" =
        some (.bool true) := by
  exact ⟨by decide +kernel, eq_of_foundTrue (by decide +kernel)⟩

end Session

end Lox
