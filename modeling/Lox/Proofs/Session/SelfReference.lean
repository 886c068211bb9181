import Lox.Proofs.Machine.Initializers
import Lox.Proofs.Machine.Undeclared
import Lox.Proofs.Session.Notices
import Lox.Proofs.Session.Statics

/-!
# Initializers that refer to their own variable

The initializer of a local variable stands in the scope of that variable. A use of the name in it is
therefore a use of the variable that is being declared, also where a variable further out has the same
name.
-/

namespace Lox

open Eval Outcome Scope

variable {programs : List Stmt → Prop} {nest : Nest}

/-! ### Parts of an expression -/

def Expr.Includes (e e' : Expr) : Prop :=
  Relation.ReflTransGen (fun node part => part ∈ Node.parts node) (.expr e) (.expr e')

theorem Located.includes {e e' : Expr} (h : Located programs nest (.expr e)) (hp : e.Includes e') :
    Located programs nest (.expr e') := by
  unfold Expr.Includes at hp
  generalize Node.expr e' = part at hp ⊢
  induction hp with
  | refl => exact h
  | tail _ hp ih => exact ih.part hp

theorem Located.all {p : Node → Bool} {node : Node}
    (hp : ∀ program, programs program → Stmt.allOf p program = true) (h : Located programs nest node) :
    node.all p = true := by
  induction h with
  | top hprogram => exact Stmt.allOf_iff.1 (hp _ hprogram) _ (by simp)
  | part _ hpart ih => exact Node.all_part ih hpart
  | initializer _ ih => exact Node.all_initializer ih
  | @body nest inner node before after s _ he ih =>
    have hmem : s ∈ before ++ s :: after := by simp
    generalize before ++ s :: after = body at he hmem
    cases he with
    | block => exact Stmt.allOf_iff.1 (Node.all_block ih) s hmem
    | lambda => exact Stmt.allOf_iff.1 (Node.all_lambda ih) s hmem
    | function => exact Stmt.allOf_iff.1 (Node.all_function ih) s hmem
    | method hf => exact Stmt.allOf_iff.1 (Node.all_method ih hf) s hmem

theorem Layered.eq_globals {roots : Moment → Prop} {env : Env} (h : Layered roots env []) :
    env = Machine.globals := by
  cases h
  rfl

/-- A name that the innermost scope holds is found there. -/
theorem Scope.Locates.eq_zero {scope : Set String} {outer : List (Set String)} {x : String}
    {address : Address} (h : Locates (scope :: outer) x address) (hx : x ∈ scope) :
    address = .hops 0 := by
  cases address with
  | free => exact absurd hx (h scope (by simp))
  | slot => exact h.elim
  | hops d =>
    cases d with
    | zero => rfl
    | succ d => exact absurd hx (h.2 scope (by simp))

theorem Located.address_of_own {statics : Bool}
    (hres : ∀ program, programs program → Stmt.AllResolvedIn statics [] program) {x : String}
    {layer : Layer} {init : Expr} {use : Token} {address : Address}
    (h : Located programs (Nest.declare [x] (layer :: nest)) (.expr init))
    (hi : init.Includes (.variable use address)) (hx : use.lexeme = x) : address = .hops 0 := by
  have huse := Expr.ResolvedIn.scoped ((h.includes hi).resolvedIn hres)
  exact Locates.eq_zero huse (.inl (by simp [hx]))

namespace Eval

/-- Evaluating an expression comes to evaluating a part of it, and runs no body of a function on the
way. -/
inductive Evaluates (depth₀ : Nat) (e₀ : Expr) (m₀ : Machine) : Nat → Expr → Machine → Prop where
  | here : Evaluates depth₀ e₀ m₀ depth₀ e₀ m₀
  | part {depth : Nat} {e e' : Expr} {m m' : Machine} (h : Evaluates depth₀ e₀ m₀ (depth + 1) e m)
      (hr : Reaches depth (.expr e) m (.expr e') m') : Evaluates depth₀ e₀ m₀ depth e' m'

variable {depth depth₀ : Nat} {e e' e₀ : Expr} {m m' m₀ : Machine}

theorem Reaches.mem_parts (h : Reaches depth (.expr e) m (.expr e') m') :
    .expr e' ∈ (Node.expr e).parts := by
  cases h with
  | argument he => simp [Node.parts, he]
  | _ => simp [Node.parts]

theorem Reaches.env_eq (hm : m.Reachable) (h : Reaches depth (.expr e) m (.expr e') m') :
    m'.env = m.env := by
  have hrun : ∀ {e v m'}, run depth (.expr e) m = .ok v m' → m'.env = m.env :=
    fun h => hm.env_of_endsIn (.inl ⟨_, h⟩)
  cases h with
  | binaryRight h => exact hrun h
  | logicalRight h => exact hrun h
  | setValue h => exact hrun h
  | @argument callee _ paren arguments _ _ _ _ _ _ _ he hc ha =>
    have hany : Policy.any.covenant.runs ⟨depth + 1, .expr (.call callee paren arguments), m⟩ :=
      trivial
    exact ((Policy.any_lawful.covenant.stage hany).after_arguments hm.obeys_any he hc ha).1.env
  | _ => rfl

namespace Evaluates

theorem includes (h : Evaluates depth₀ e₀ m₀ depth e m) : e₀.Includes e := by
  induction h with
  | here => exact .refl
  | part _ hr ih => exact ih.tail hr.mem_parts

theorem reachable (hm : m₀.Reachable) (h : Evaluates depth₀ e₀ m₀ depth e m) :
    m.Reachable ∧ m.env = m₀.env := by
  induction h with
  | here => exact ⟨hm, rfl⟩
  | part _ hr ih => exact ⟨ih.1.inside hr, (hr.env_eq ih.1).trans ih.2⟩

theorem read_own {use : Token} {frame : FrameId} {rest : Env} (hm : m₀.Reachable)
    (henv : m₀.env = frame :: rest)
    (h : Evaluates depth₀ e₀ m₀ (depth + 1) (.variable use (.hops 0)) m) :
    run (depth + 1) (.expr (.variable use (.hops 0))) m =
      .ok ((m.frames.held? frame use.lexeme).getD .nil) m := by
  obtain ⟨hm', henv'⟩ := h.reachable hm
  rw [henv] at henv'
  obtain ⟨vars, hid⟩ := hm'.exists_vars henv'
  have hzero : m.env[0]? = some frame := by
    rw [henv']
    rfl
  rw [Frames.held?_of_named hid]
  exact Run.read_hops hzero hid use

theorem honours {C : Covenant} (hl : C.Lawful) (hr : C.runs ⟨depth₀, .expr e₀, m₀⟩)
    (hm : m₀.Honours C) (h : Evaluates depth₀ e₀ m₀ depth e m) :
    C.runs ⟨depth, .expr e, m⟩ ∧ m.Honours C := by
  induction h with
  | here => exact ⟨hr, hm⟩
  | part _ hreaches ih => exact hl.reaches ih.1 ih.2 hreaches

end Evaluates

end Eval

/-! ### Programs whose methods belong to instances -/

theorem Admits.allOf_isSpelled {t : Text} {program : List Stmt} (h : Admits t program) :
    Stmt.allOf Node.isSpelled program = true :=
  Stmt.allOf_mono (fun _ => Node.isSpelled_of_isWorded) _
    (Scope.resolve_worded (Tree.parse_worded fun _ ht => Token.isSpelled_of_mem ht) h.resolved)

namespace Session

theorem admitted_withholding {s : Session} {texts : List Text} {traced : Bool} {clock : Clock}
    (hinstances : ∀ t ∈ texts, Stmt.allOf Node.isInstanceOnly t.statements = true)
    (hstart : s.machine = .start traced clock) (hflag : s.flags.error = false)
    (hadmits : ∀ t ∈ texts, ∃ program, Admits t program) {depth : Nat} {name : Token}
    {init? : Option Expr} {m : Machine} {outer : List Moment}
    (h : Visited (s.world texts).roots (⟨depth, .stmt (.varDecl name init?), m⟩ :: outer))
    (hlocal : m.env ≠ Machine.globals) {frame : FrameId} {rest : Env} (henv : m.env = frame :: rest) :
    m.Honours (.withholding (s.world texts) frame name.lexeme) := by
  have hres : ∀ program, (s.world texts).programs program →
      Stmt.AllResolvedIn false [] program := fun _ => admitted_resolvedIn hinstances
  have hroots : ∀ v, (s.world texts).roots v →
      Ready (s.world texts) [] [] v.node v.machine :=
    fun _ => admitted_ready hinstances hstart hflag hadmits
  obtain ⟨nest, hready⟩ := h.ready hres fun v hv => ⟨[], hroots v hv⟩
  have hplain : name.isPlain = true :=
    Node.self_of_all (hready.located.all fun program ⟨_, _, ht⟩ => ht.allOf_isSpelled)
  obtain ⟨frame', rest', henv', hm⟩ := h.honours_withholding hres hroots hplain hlocal
  cases henv.symm.trans henv'
  exact hm

/-- Some texts are admitted and run one after another in a session that has run nothing before, and the
declaration of a local variable with an initializer is reached. Every use of the name in the initializer
that is not inside a lambda has the address of the variable that is being declared. Whenever such a use is
evaluated, it yields what the frame of the declaration holds under the name, or `nil` if it holds nothing;
no variable further out is read. If the initializer yields a value, the declared variable gets it. If all
methods belong to instances, the frame holds nothing under the name when the declaration is reached; and if
the initializer has no assignment to the name, every such use yields `nil`. -/
theorem initializer_reads_own {s : Session} {texts : List Text} {traced : Bool} {clock : Clock}
    (hstart : s.machine = .start traced clock) (hflag : s.flags.error = false)
    (hadmits : ∀ t ∈ texts, ∃ program, Admits t program)
    {depth : Nat} {name : Token} {init : Expr} {m : Machine} {outer : List Moment}
    (hvisited : Visited (s.Enters texts)
      (⟨depth + 1, .stmt (.varDecl name (some init)), m⟩ :: outer))
    (hlocal : m.env ≠ Machine.globals) :
    ∃ frame rest, m.env = frame :: rest ∧
      (∀ use address, init.Includes (.variable use address) → use.lexeme = name.lexeme →
        address = .hops 0) ∧
      (∀ depth' use address m', Evaluates depth init m (depth' + 1) (.variable use address) m' →
        use.lexeme = name.lexeme →
          Eval.run (depth' + 1) (.expr (.variable use address)) m' =
            .ok ((m'.frames.held? frame name.lexeme).getD .nil) m') ∧
      (∀ v m', Eval.run depth (.expr init) m = .ok v m' →
        Eval.run (depth + 1) (.stmt (.varDecl name (some init))) m =
          .ok .nil { m' with frames := m'.frames.write frame name.lexeme v }) ∧
      ((∀ t ∈ texts, Stmt.allOf Node.isInstanceOnly t.statements = true) →
        m.frames.held? frame name.lexeme = none ∧
        (init.all (Node.isUnassigning name.lexeme) = true →
          ∀ depth' use address m', Evaluates depth init m (depth' + 1) (.variable use address) m' →
            use.lexeme = name.lexeme →
              Eval.run (depth' + 1) (.expr (.variable use address)) m' = .ok .nil m')) := by
  have hres : ∀ program, admitted texts program → Stmt.AllResolvedIn true [] program :=
    fun program ⟨_, _, ht⟩ => ht.allResolvedIn
  obtain ⟨⟨hreachable, -, site, hs, hlayered⟩, -⟩ := sited_of_visited hstart hflag hadmits hvisited
  obtain ⟨frame, rest, -, henv, -⟩ := hreachable.exists_frame
  -- the declaration stands in a scope, which holds its name while the initializer is evaluated
  obtain ⟨layer, nest, hnest⟩ : ∃ layer nest, site.nest = layer :: nest := by
    cases site with
    | nil => exact absurd (Layered.eq_globals hlayered) hlocal
    | cons tier site => exact ⟨_, _, rfl⟩
  have hlocated : Located (admitted texts) (Nest.declare [name.lexeme] (layer :: nest)) (.expr init) := by
    rw [← hnest]
    exact hs.located.initializer
  have haddress : ∀ use address, init.Includes (.variable use address) →
      use.lexeme = name.lexeme → address = .hops 0 := fun _ _ => hlocated.address_of_own hres
  have hread : ∀ depth' use address m', Evaluates depth init m (depth' + 1) (.variable use address) m' →
      use.lexeme = name.lexeme → Eval.run (depth' + 1) (.expr (.variable use address)) m' =
        .ok ((m'.frames.held? frame name.lexeme).getD .nil) m' := by
    intro depth' use address m' heval huse
    obtain rfl := haddress use address heval.includes huse
    rw [← huse]
    exact heval.read_own hreachable henv
  refine ⟨frame, rest, henv, haddress, hread, ?_, ?_⟩
  · exact fun v m' hrun => varDecl_of_ok hreachable henv hrun name
  · intro hinstances
    have hm := admitted_withholding hinstances hstart hflag hadmits hvisited hlocal henv
    have hl : (Covenant.withholding (s.world texts) frame name.lexeme).Lawful :=
      Covenant.withholding_lawful fun _ => admitted_resolvedIn hinstances
    refine ⟨hm.frames.2, ?_⟩
    intro hall depth' use address m' heval huse
    have hruns : (Covenant.withholding (s.world texts) frame name.lexeme).runs
        ⟨depth, .expr init, m⟩ := ⟨hm.frames.1, fun _ => List.not_mem_nil, _, hlocated, .inr hall⟩
    have hnone := (heval.honours hl hruns hm).2.frames.2
    rw [hread depth' use address m' heval huse, hnone]
    rfl

/-- A block inside another one declares a variable of the same name, and takes that for its value. -/
def ownText : Text where
  source := "{var x=true;print x;{var x=x;print x;}}"
  echoes := false

def ownUse : Expr := .variable (.ident "x" 1) (.hops 0)

/-- The declaration in the inner block. -/
def ownDecl : Stmt := .varDecl (.ident "x" 1) (some ownUse)

/-- The statements before the inner block. -/
def ownBefore : List Stmt :=
  [.varDecl (.ident "x" 1) (some (.literal (.bool true))), .print ownUse]

def ownBlock : Stmt := .block [ownDecl, .print ownUse]

theorem ownText_admits : Admits ownText [.block (ownBefore ++ [ownBlock])] := .of_yields (by decide +kernel)

def ownDepth : Nat := bound - 4

def ownMachine : Machine :=
  { Machine.start false 0 with
    frames := #[.named (Table.empty.insert "clock" (.native .clock)),
      .named (Table.empty.insert "x" (.bool true))]
    env := [1, 0]
    out := #[.shown "true"] }

def ownInside : Machine := ownMachine.enter ownMachine.env .empty

/-- The variable of the inner block is initialized with `nil`, while the one further out is `true`. -/
theorem initializer_reads_own_block :
    ownInside.frames.held? 1 "x" = some (.bool true) ∧
      Eval.run (ownDepth + 2) (.stmt ownDecl) ownInside =
        .ok .nil { ownInside with frames := ownInside.frames.write 2 "x" .nil } := by
  have hadmits : ∀ t ∈ [ownText], ∃ program, Admits t program := by
    intro t ht
    rw [List.mem_singleton.1 ht]
    exact ⟨_, ownText_admits⟩
  have hroot : (new true 0).Enters [ownText]
      ⟨ownDepth + 4, .stmt (.block (ownBefore ++ [ownBlock])), .start false 0⟩ :=
    .inl ⟨_, ownText_admits, .here⟩
  have hbefore : execAll (Eval.run (ownDepth + 3)) ownBefore
      ((Machine.start false 0).enter (Machine.start false 0).env .empty) = .ok () ownMachine :=
    rfl
  have hblock : Reaches (ownDepth + 3) (.stmt (.block (ownBefore ++ [ownBlock]))) (.start false 0)
      (.stmt ownBlock) ownMachine := .block rfl hbefore
  have hdecl : Reaches (ownDepth + 2) (.stmt ownBlock) ownMachine (.stmt ownDecl) ownInside :=
    .block (List.nil_append _).symm rfl
  have hlocal : ownInside.env ≠ Machine.globals := by decide
  obtain ⟨frame, rest, henv, -, -, hvalue, hnil⟩ := initializer_reads_own rfl rfl hadmits
    (((Visited.root hroot).nested hblock).nested hdecl) hlocal
  have hinstances : ∀ t ∈ [ownText], Stmt.allOf Node.isInstanceOnly t.statements = true := by
    intro t ht
    rw [List.mem_singleton.1 ht]
    decide +kernel
  obtain ⟨-, huses⟩ := hnil hinstances
  cases henv
  exact ⟨rfl, hvalue .nil ownInside (huses rfl ownDepth _ _ _ .here rfl)⟩

def ownGlobalText : String := "var x=true;{var x=x;print x;}"

/-- The variable of the block does not get the value of the global one. -/
theorem initializer_not_outer :
    ((new true 0).left (run ownGlobalText false)).machine.out = #[.shown "nil"] ∧
      ((new true 0).left (run ownGlobalText false)).machine.globalTable.get? "x" =
        some (.bool true) := by
  exact ⟨by decide +kernel, eq_of_foundTrue (by decide +kernel)⟩

end Session

end Lox
