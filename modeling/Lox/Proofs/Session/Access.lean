import Lox.Proofs.Session.Run

/-!
# Access to variables in a session

Texts that are scanned, read and resolved without complaint are run one after another in a session.
Whenever one of them accesses a variable by its address, the address leads to the frame that was
opened for the scope in which the name was found.
-/

namespace Lox

open Eval Outcome

variable {m m' : Machine} {name : Token} {address : Address}

theorem allResolvedIn_of_clean {source : String} {program : List Stmt} {statics : Bool}
    (hresolved : (Scope.resolve true
      (Tree.parse (Token.scan source).tokens).statements).statements = .ok program)
    (hclean : (Scope.resolve true
      (Tree.parse (Token.scan source).tokens).statements).reached.Clean)
    (hinstance : statics = false → Stmt.allOf Node.isInstanceOnly
      (Tree.parse (Token.scan source).tokens).statements = true) :
    Stmt.AllResolvedIn statics [] program := by
  have hreadable := Tree.parse_readable (Token.scan source).tokens
  unfold Scope.resolve at hresolved hclean
  cases hr : Stmt.resolveAll (Tree.parse (Token.scan source).tokens).statements (.start true) with
  | error d r =>
    rw [hr] at hresolved
    cases hresolved
  | ok ss r =>
    rw [hr] at hresolved hclean
    cases hresolved
    exact ⟨_, _, r, ⟨hreadable, hinstance⟩, hr, rfl, hclean⟩

/-! ### Machines between texts -/

/-- Between two texts all that a machine holds is in place, and its environment is that of the global
variables. -/
structure Settled (w : World) (m : Machine) : Prop where
  honours : m.Honours (.fitting w (Excused w []))
  fits : Fits w (m.frames.view (Excused w [])) m.env []

variable {w : World}

theorem Covenant.After.settled (h : (Covenant.fitting w (Excused w [])).After m m') (hs : Settled w m) :
    Settled w m' :=
  ⟨h.honours, h.fits hs.fits⟩

theorem settled_start (traced : Bool) (clock : Clock) : Settled w (.start traced clock) :=
  ⟨Machine.obeys_start trivial, .globals Nat.one_pos⟩

theorem settled_persists
    (hres : ∀ program, w.programs program → Stmt.AllResolvedIn false [] program) :
    Session.Persists w.programs w.roots (Settled w) where
  ends {node m} hs hl hr := by
    have hready : Ready w [] [] node m := ⟨hl, hs.fits, hs.honours⟩
    have hk := Covenant.fitting_keeps hres bound (hready.runs (.root hr)) hs.honours
    cases hrun : Eval.run bound node m with
    | ok v m' => exact (hk.ok hrun).1.settled hs
    | error e m' => exact (hk.error hrun).1.settled hs
  write hs _ := ⟨Covenant.honours_congr hs.honours rfl rfl, hs.fits⟩

namespace Session

def world (s : Session) (texts : List Text) : World := ⟨admitted texts, s.Enters texts⟩

section Instances

variable {s : Session} {texts : List Text} {traced : Bool} {clock : Clock}
  (hinstances : ∀ t ∈ texts, Stmt.allOf Node.isInstanceOnly t.statements = true)

include hinstances

theorem admitted_resolvedIn {program : List Stmt} (h : admitted texts program) :
    Stmt.AllResolvedIn false [] program := by
  obtain ⟨t, ht, hp⟩ := h
  exact allResolvedIn_of_clean hp.resolved hp.clean fun _ => hinstances t ht

theorem admitted_ready (hstart : s.machine = .start traced clock) (hflag : s.flags.error = false)
    (hadmits : ∀ t ∈ texts, ∃ program, Admits t program) {v : Moment}
    (h : (s.world texts).roots v) : Ready (s.world texts) [] [] v.node v.machine := by
  have hsettled : Settled (s.world texts) s.machine := by
    rw [hstart]
    exact settled_start traced clock
  have hpersists := settled_persists (w := s.world texts)
    fun _ => admitted_resolvedIn hinstances
  obtain ⟨hlocated, hm⟩ := hpersists.entered (fun t ht program hp => ⟨t, ht, hp⟩) (fun _ h => h)
    hadmits hsettled hflag h
  exact ⟨hlocated, hm.fits, hm.honours⟩

end Instances

end Session

/-! ### Access -/

/-- What an access to a variable finds at an address. A local variable is read and written in the
frame that was opened for the scope of its name, and only there; the frame binds the name, unless
the declaration of that name in that frame is going on at one of the moments or was abandoned. Any other
variable is looked up among the global ones only. -/
def Finds (roots : Moment → Prop) (moments : List Moment) (nest : Nest) (name : Token)
    (m : Machine) : Address → Prop
  | .hops d => ∃ layer id outer vars,
      nest[d]? = some layer ∧ m.env.drop d = id :: outer ∧
      Opened roots id layer.opening outer ∧ m.frames[id]? = some (.named vars) ∧
      Run.read name (.hops d) m = .ok ((vars.get? name.lexeme).getD .nil) m ∧
      (∀ v, Run.assign name (.hops d) v m =
        .ok () { m with frames := m.frames.write id name.lexeme v }) ∧
      (vars.contains name.lexeme = true ∨ Pending moments id name.lexeme ∨
        Abandoned roots id name.lexeme)
  | .free => ∃ vars, m.frames[Machine.globalId]? = some (.named vars) ∧
      (Run.read name .free m = match vars.get? name.lexeme with
        | none => .error (.fault name (.undefinedVariable name.lexeme)) m
        | some .nil => .error (.fault name (.uninitializedVariable name.lexeme)) m
        | some v => .ok v m) ∧
      ∀ v, Run.assign name .free v m =
        if vars.contains name.lexeme then
          .ok () { m with frames := m.frames.write Machine.globalId name.lexeme v }
        else .error (.fault name (.undefinedVariable name.lexeme)) m
  | .slot .. => False

section Depth

variable {m : Machine} {d : Nat} {id : FrameId} {vars : Table Value}

theorem Run.read_hops (henv : m.env[d]? = some id) (hid : m.frames[id]? = some (.named vars))
    (name : Token) : Run.read name (.hops d) m = .ok ((vars.get? name.lexeme).getD .nil) m := by
  change Run.ofAccess name (m.frames.getAt m.env d name.lexeme) m = _
  rw [Frames.getAt_eq henv hid, Frames.held?_of_named hid]
  rfl

theorem Run.assign_hops (henv : m.env[d]? = some id) (hid : m.frames[id]? = some (.named vars))
    (name : Token) (v : Value) : Run.assign name (.hops d) v m =
      .ok () { m with frames := m.frames.write id name.lexeme v } := by
  change EStateM.bind (Run.ofAccess name (m.frames.namedAt m.env d "assign_at")) _ m = _
  rw [Frames.namedAt_eq_ok.2 ⟨henv, vars, hid⟩]
  rfl

/-- A global variable is read by its name. -/
theorem Run.read_free (hid : m.frames[Machine.globalId]? = some (.named vars)) (name : Token) :
    Run.read name .free m =
      Run.ofAccess name (m.frames.get Machine.globals name.lexeme) m := by
  unfold Run.read
  rw [bind_of_ok (get_eq_ok.2 ⟨rfl, rfl⟩)]
  dsimp only
  rw [hid]

theorem Run.assign_free (hid : m.frames[Machine.globalId]? = some (.named vars)) (name : Token)
    (v : Value) :
    Run.assign name .free v m =
      (do let id ← Run.ofAccess name (m.frames.holder "assign" name.lexeme Machine.globals)
          modify fun m => { m with frames := m.frames.write id name.lexeme v } : Run Unit) m := by
  unfold Run.assign
  rw [bind_of_ok (get_eq_ok.2 ⟨rfl, rfl⟩)]
  dsimp only
  rw [hid]

end Depth

theorem finds_of_fits {moments : List Moment} {nest : Nest} {p : Value → Prop} (hm : m.frames.AllNamed p)
    (hf : Fits w (m.frames.view (Excused w moments)) m.env nest)
    (hl : Scope.Locates nest.held name.lexeme address) :
    Finds w.roots moments nest name m address := by
  cases address with
  | slot d i => exact hl
  | hops d =>
    obtain ⟨layer, id, outer, vars, hlayer, hdrop, ho, hid, hbinds⟩ := hf.locate hm hl
    have henv := getElem?_of_drop hdrop
    refine ⟨layer, id, outer, vars, hlayer, hdrop, ho, hid, Run.read_hops henv hid name,
      Run.assign_hops henv hid name, ?_⟩
    rcases hbinds with hb | hp | ha
    · rw [Frames.held?_of_named hid] at hb
      exact Or.inl hb
    · exact Or.inr (Or.inl hp)
    · exact Or.inr (Or.inr ha)
  | free =>
    obtain ⟨vars, hid, -⟩ := hm.exists_named hf.globals_lt
    refine ⟨vars, hid, ?_, ?_⟩
    · rw [Run.read_free hid, Machine.globals, Frames.get_singleton hid]
      cases vars.get? name.lexeme with
      | none => rfl
      | some v => cases v <;> rfl
    · intro v
      rw [Run.assign_free hid, Machine.globals, Frames.holder_singleton hid]
      cases vars.contains name.lexeme <;> rfl

theorem Eval.Accesses.locates {depth : Nat} {node : Node} {statics : Bool} {scopes : List (Set String)}
    (h : Accesses depth node m name address m') (hr : node.ResolvedIn statics scopes) :
    Scope.Locates scopes name.lexeme address := by
  cases h with
  | «variable» => exact Expr.ResolvedIn.scoped hr
  | this => exact Expr.ResolvedIn.scoped hr
  | assign => exact (Expr.ResolvedIn.scoped hr).2
  | superclass =>
    obtain ⟨hne, hl⟩ := (Stmt.ResolvedIn.scoped hr).1 _ _ rfl
    exact hl.of_extend (by simpa using Ne.symm hne)

theorem Eval.Accesses.after {depth : Nat} {node : Node} {outer : List Moment} {nest : Nest}
    (hres : ∀ program, w.programs program → Stmt.AllResolvedIn false [] program)
    (h : Accesses depth node m name address m')
    (hv : Visited w.roots (⟨depth + 1, node, m⟩ :: outer)) (hr : Ready w outer nest node m) :
    (Covenant.fitting w (Excused w outer)).After m m' := by
  have st := hr.stage hres hv
  have hself := st.fair.after_refl hr.honours
  cases h with
  | «variable» => exact hself
  | this => exact hself
  | superclass => exact hself
  | assign hvalue => exact ((st.part .assigned (List.mem_singleton.2 rfl) hself).ok hvalue).1

namespace Session

/-- Some texts are admitted and run one after another in a session that has run nothing before, and all
their methods belong to instances. Whenever a node accesses a variable by its address, the frames of the
environment are those that were opened for the scopes around the node, the address leads to the nearest
of these scopes that holds the name, and the access finds the frame of that scope. -/
theorem access_in_scope {s : Session} {texts : List Text} {traced : Bool} {clock : Clock}
    (hstart : s.machine = .start traced clock) (hflag : s.flags.error = false)
    (hadmits : ∀ t ∈ texts, ∃ program, Admits t program)
    (hinstances : ∀ t ∈ texts, Stmt.allOf Node.isInstanceOnly t.statements = true)
    {depth : Nat} {node : Node} {m m' : Machine} {outer : List Moment} {name : Token}
    {address : Address} (hvisited : Visited (s.Enters texts) (⟨depth + 1, node, m⟩ :: outer))
    (haccess : Accesses depth node m name address m') :
    ∃ nest, Located (admitted texts) nest node ∧ nest.Proper ∧
      Layered (s.Enters texts) m'.env nest.openings ∧
      Scope.Locates nest.held name.lexeme address ∧
      Finds (s.Enters texts) (⟨depth + 1, node, m⟩ :: outer) nest name m' address := by
  have hres : ∀ program, (s.world texts).programs program → Stmt.AllResolvedIn false [] program :=
    fun _ => admitted_resolvedIn hinstances
  obtain ⟨nest, hready⟩ := hvisited.ready (w := s.world texts) hres fun v hv =>
    ⟨[], admitted_ready hinstances hstart hflag hadmits hv⟩
  have hl := haccess.locates (hready.located.resolvedIn hres)
  have hafter := haccess.after hres hvisited hready
  have hfits := (hafter.fits hready.fits).mono
    (Frames.view_le_of_excused (excused_of_outer ⟨depth + 1, node, m⟩))
  exact ⟨nest, hready.located, hready.located.names_subset.1, hfits.layered, hl,
    finds_of_fits hafter.honours.values hfits hl⟩

/-! ### A declaration that is abandoned -/

/-- The initializer of `a` hands a function that refers to `a` to another one, which keeps it and fails. -/
def strayFirst : Text := ⟨"var g;fun keep(h){g=h;return -nil;}{var a=keep(fun(){return a;});}", false⟩

/-- The function that was kept is called. -/
def strayThen : Text := ⟨"print g();", false⟩

/-- The variable of the abandoned declaration. -/
def strayName : Expr := .variable (.ident "a" 1) (.hops 1)

def strayReturn : Stmt := .returnStmt ⟨.kwReturn, "return", .nil, 1⟩ (some strayName)

/-- The body of the function that fails. -/
def strayKeep : List Stmt :=
  [.expression (.assign (.ident "g" 1) .free (.variable (.ident "h" 1) (.hops 0))),
    .returnStmt ⟨.kwReturn, "return", .nil, 1⟩ (some (.unary ⟨.minus, "-", .nil, 1⟩ (.literal .nil)))]

def strayDeclare : Stmt := .funDecl ⟨.ident "keep" 1, [.ident "h" 1], strayKeep, false, false⟩

def strayBlock : Stmt :=
  .block [.varDecl (.ident "a" 1) (some (.call (.variable (.ident "keep" 1) .free)
    ⟨.rightParen, ")", .nil, 1⟩ [.lambda [] [strayReturn]]))]

def strayProgram : List Stmt := [.varDecl (.ident "g" 1) none, strayDeclare, strayBlock]

def strayCallee : Expr := .variable (.ident "g" 1) .free

def strayCall : Expr := .call strayCallee ⟨.rightParen, ")", .nil, 1⟩ []

theorem strayFirst_admits : Admits strayFirst strayProgram := .of_yields (by decide +kernel)

theorem strayThen_admits : Admits strayThen [.print strayCall] := .of_yields (by decide +kernel)

/-- The function that was kept, made in the frame of the abandoned declaration. -/
def strayClosure : Closure := ⟨1, none, [], [strayReturn], [1, 0], false, false, false⟩

/-- The machine with the global variables of the first text. -/
def strayGlobals (kept : Value) : Machine :=
  { Machine.start false 0 with
    frames := #[.named (((Table.empty.insert "clock" (.native .clock)).insert "g" kept).insert "keep"
      (.function ⟨0, some "keep", [.ident "h" 1], strayKeep, [0], false, false, false⟩))]
    fresh := 1 }

/-- The machine between the texts. -/
def strayMachine : Machine :=
  { strayGlobals (.function strayClosure) with
    frames := (strayGlobals (.function strayClosure)).frames ++ #[.named .empty,
      .named ((Table.empty.insert "this" .nil).insert "h" (.function strayClosure))]
    fresh := 2 }

theorem stray_between : ((new true 0).after strayFirst).machine = strayMachine := by
  have hvar : ∃ m, Eval.run bound (.stmt (.varDecl (.ident "g" 1) none)) (.start false 0) = .ok .nil m ∧
      Eval.run bound (.stmt strayDeclare) m = .ok .nil (strayGlobals .nil) := ⟨_, rfl, rfl⟩
  obtain ⟨m, hvar, hdeclare⟩ := hvar
  have hblock : Eval.run bound (.stmt strayBlock) (strayGlobals .nil) =
      .error (.fault ⟨.minus, "-", .nil, 1⟩ .operandNotNumber) strayMachine :=
    rfl
  have hstart : ((new true 0).entered strayFirst).machine = .start false 0 := rfl
  have hcarry : carryOut strayFirst strayProgram = interpretSafely strayProgram := rfl
  unfold after
  rw [run_of_admits strayFirst_admits rfl, hcarry, interpretSafely, strayProgram, interpret_cons, hstart,
    hvar]
  dsimp only
  rw [interpret_cons, hdeclare]
  dsimp only
  rw [interpret_cons, hblock]
  rfl

/-- The bound on what is nested in the last of the moments considered here. -/
def strayDepth : Nat := bound - 4

def strayRoots : Moment → Prop := (new true 0).Enters [strayFirst, strayThen]

def strayVars : Table Value := Table.empty.insert "this" .nil

/-- The moments from the second text to the variable of the abandoned declaration. -/
def strayMoments : List Moment :=
  [⟨strayDepth + 1, .expr strayName, strayMachine.enter strayClosure.env strayVars⟩,
    ⟨strayDepth + 2, .stmt strayReturn, strayMachine.enter strayClosure.env strayVars⟩,
    ⟨strayDepth + 3, .expr strayCall, strayMachine⟩,
    ⟨strayDepth + 4, .stmt (.print strayCall), strayMachine⟩]

theorem strayCall_reaches : Reaches (strayDepth + 2) (.expr strayCall) strayMachine
    (.stmt strayReturn) (strayMachine.enter strayClosure.env strayVars) := by
  have hcallee : Eval.run (strayDepth + 2) (.expr strayCallee) strayMachine =
      .ok (.function strayClosure) strayMachine := rfl
  have hstarts : Starts strayClosure [] strayMachine strayVars := ⟨.nil, rfl, rfl⟩
  exact .call (.function hcallee rfl rfl) hstarts (List.nil_append _).symm rfl

theorem visited_strayMoments : Visited strayRoots strayMoments := by
  have hroot : strayRoots ⟨strayDepth + 4, .stmt (.print strayCall), strayMachine⟩ := by
    refine .inr (.inl ⟨_, strayThen_admits, ?_⟩)
    rw [stray_between]
    exact .here
  exact .nested (.nested (.nested (.root hroot) .print) strayCall_reaches) .returned

theorem stray_admits : ∀ t ∈ [strayFirst, strayThen], ∃ program, Admits t program := by
  intro t ht
  rcases List.mem_pair.1 ht with rfl | rfl
  · exact ⟨_, strayFirst_admits⟩
  · exact ⟨_, strayThen_admits⟩

/-- The name is looked up in the frame in which its declaration was abandoned. -/
theorem access_in_scope_stray : ∃ nest, Located (admitted [strayFirst, strayThen]) nest (.expr strayName) ∧
    Finds strayRoots strayMoments nest (.ident "a" 1) (strayMachine.enter strayClosure.env strayVars)
      (.hops 1) := by
  have hinstances : ∀ t ∈ [strayFirst, strayThen],
      Stmt.allOf Node.isInstanceOnly t.statements = true := by
    intro t ht
    rcases List.mem_pair.1 ht with rfl | rfl <;> decide +kernel
  obtain ⟨nest, hlocated, -, -, -, hfinds⟩ :=
    access_in_scope (s := new true 0) rfl rfl stray_admits hinstances visited_strayMoments .variable
  exact ⟨nest, hlocated, hfinds⟩

/-- A name need not be bound after its declaration was abandoned, though nothing evaluates its
initializer any longer. -/
theorem access_not_bound :
    ∃ depth name m outer id env vars,
      (∀ t ∈ [strayFirst, strayThen], ∃ program, Admits t program) ∧
      Visited strayRoots (⟨depth + 1, .expr (.variable name (.hops 1)), m⟩ :: outer) ∧
      m.env.drop 1 = id :: env ∧ m.frames[id]? = some (.named vars) ∧
      vars.contains name.lexeme = false ∧
      ¬Pending (⟨depth + 1, .expr (.variable name (.hops 1)), m⟩ :: outer) id name.lexeme := by
  refine ⟨strayDepth, .ident "a" 1, _, _, 1, [0], .empty, stray_admits, visited_strayMoments, rfl, rfl,
    rfl, ?_⟩
  rintro ⟨v, hv, token, init, hnode, -⟩
  simp only [List.mem_cons, List.not_mem_nil, or_false] at hv
  rcases hv with rfl | rfl | rfl | rfl <;> cases hnode

end Session

end Lox
