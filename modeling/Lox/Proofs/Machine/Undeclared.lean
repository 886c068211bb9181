import Lox.Proofs.Machine.Preservation
import Lox.Proofs.Machine.Receivers
import Lox.Proofs.Machine.Sites
import Lox.Proofs.Scope.Checks
import Lox.Proofs.Scope.Marks

/-!
# Frames before a declaration

A name gets into a frame by its declaration, or by an assignment that stands in the scope of the name. So
a frame does not hold a name while nothing of that scope has been run. Where all methods belong to
instances, that is how things are when a declaration is reached.
-/

namespace Lox

open Eval Outcome Scope

/-! ### Scopes that have not declared a name -/

theorem Stmt.ResolvedIn.not_clash {statics : Bool} {scopes : List (Set String)} {s : Stmt}
    (h : s.ResolvedIn statics scopes) : ¬Clash s.declared scopes := by
  obtain ⟨s₀, r, r', ⟨hreadable, -⟩, hres, rfl, hclean⟩ := h
  rw [Stmt.declared_resolve hres]
  intro hclash
  obtain ⟨token, flaw, hflaw⟩ : r'.Flawed :=
    (s₀.resolve_finds ⟨rfl, rfl⟩ hreadable _ _ hres).2 (.inr (.inr hclash))
  exact hclean token flaw hflaw

def Node.isUnassigning (x : String) : Node → Bool
  | .expr (.assign name _ _) => name.lexeme != x
  | _ => true

/-- Wherever an environment has a frame, the scope at that place has not declared a name. -/
def Withholds (frame : FrameId) (x : String) (env : Env) (nest : Nest) : Prop :=
  ∀ (d : Nat) (layer : Layer), nest[d]? = some layer → env[d]? = some frame → x ∉ layer.names

namespace Withholds

variable {frame : FrameId} {x : String} {env : Env} {nest : Nest}

theorem of_notMem (h : frame ∉ env) : Withholds frame x env nest :=
  fun _ _ _ hd => absurd (List.mem_of_getElem? hd) h

theorem cons {id : FrameId} {layer : Layer} (h : Withholds frame x env nest)
    (hid : id = frame → x ∉ layer.names) : Withholds frame x (id :: env) (layer :: nest) := by
  intro d l hl hd
  cases d with
  | zero =>
    cases hl
    exact hid (Option.some_inj.1 hd)
  | succ d => exact h d l hl hd

theorem declare {names : List String} (h : Withholds frame x env nest)
    (hn : env[0]? = some frame → x ∉ names) : Withholds frame x env (Nest.declare names nest) := by
  cases nest with
  | nil => exact h
  | cons layer outer =>
    intro d l hl hd
    cases d with
    | zero =>
      cases hl
      rintro (hx | hx)
      · exact hn hd hx
      · exact h 0 layer rfl hd hx
    | succ d => exact h (d + 1) l hl hd

end Withholds

/-! ### Running outside the scope of a name -/

/-- Nothing adds a variable to a frame, which does not hold it: what is run and what is called stands
outside the scope of the variable, or has no assignment to it; and it is not declared in the frame. -/
def Covenant.withholding (w : World) (frame : FrameId) (x : String) : Covenant where
  callable frames f := frame < frames.size ∧ ∃ nest,
    Stands w (⟨.call f.params f.body, paramScope f.params⟩ :: nest) f.body ∧
      (Withholds frame x f.env nest ∨ Stmt.allOf (Node.isUnassigning x) f.body = true)
  waiting frames f := frame < frames.size ∧ ∃ nest,
    Stands w (⟨.call f.params f.body, paramScope f.params⟩ :: (receiverNest ++ nest)) f.body ∧
      (Withholds frame x f.env nest ∨ Stmt.allOf (Node.isUnassigning x) f.body = true)
  runs v := frame < v.machine.frames.size ∧ (v.machine.env[0]? = some frame → x ∉ v.node.declared) ∧
    ∃ nest, Located w.programs nest v.node ∧
      (Withholds frame x v.machine.env nest ∨ v.node.all (Node.isUnassigning x) = true)
  frames frames := frame < frames.size ∧ frames.held? frame x = none
  grows frames frames' := frames.size ≤ frames'.size
  alter frames := frames
  plain _ := True

namespace Covenant

variable {w : World} {frame : FrameId} {x : String}

/-- A statement of a body whose frame was opened later. -/
theorem runs_of_stands {depth : Nat} {layer : Layer} {nest : Nest} {body before after : List Stmt}
    {s : Stmt} {id : FrameId} {env : Env} {m : Machine} (hm : m.Honours (withholding w frame x))
    (henv : m.env = id :: env) (hlt : frame < id) (hs : Stands w (layer :: nest) body)
    (ho : Withholds frame x env nest ∨ Stmt.allOf (Node.isUnassigning x) body = true)
    (hb : body = before ++ s :: after) : (withholding w frame x).runs ⟨depth, .stmt s, m⟩ := by
  have hne : id ≠ frame := Nat.ne_of_gt hlt
  have hhead : m.env[0]? ≠ some frame := by
    rw [henv]
    exact fun h => hne (Option.some_inj.1 h)
  refine ⟨hm.frames.1, fun h => absurd h hhead, _, hs before s after hb, ho.imp ?_ fun hall => ?_⟩
  · intro hw
    refine Withholds.declare ?_ fun h => absurd h hhead
    change Withholds frame x m.env (layer :: nest)
    rw [henv]
    exact hw.cons fun h => absurd h hne
  · exact Stmt.allOf_iff.1 hall s (by simp [hb])

theorem held?_write_eq_none
    (hres : ∀ program, w.programs program → Stmt.AllResolvedIn false [] program) {depth : Nat}
    {node : Node} {name : Token} {m₀ m : Machine}
    (hr : (withholding w frame x).runs ⟨depth + 1, node, m₀⟩) (hn : node.given? = some name)
    (hm : m.Honours (withholding w frame x)) {id : FrameId}
    (hid : m.frames.held? id name.lexeme = none → node.Adds m₀.env id) (v : Value) :
    (m.frames.write id name.lexeme v).held? frame x = none := by
  obtain ⟨-, hdeclared, nest, hl, ho⟩ := hr
  have hnone : m.frames.held? frame x = none := hm.frames.2
  by_cases hx : x = name.lexeme
  · subst hx
    by_cases hframe : frame = id
    · subst hframe
      -- the node would add the name to the frame, so it declares it there or stands in its scope
      have hadds := hid hnone
      exfalso
      cases node with
      | stmt s =>
        refine hdeclared hadds ?_
        cases s <;> cases hn <;> simp [Node.declared, Stmt.declared]
      | expr e =>
        cases e with
        | assign name' address value =>
          cases hn
          cases address with
          | hops d =>
            obtain ⟨⟨scope, hscope, hname⟩, -⟩ := (Expr.ResolvedIn.scoped (hl.resolvedIn hres)).2
            obtain ⟨layer, hlayer, rfl⟩ : ∃ layer, nest[d]? = some layer ∧ layer.names = scope := by
              simpa [Nest.held] using hscope
            rcases ho with hw | hall
            · exact hw d layer hlayer hadds hname
            · simpa [Node.isUnassigning] using Node.self_of_all hall
          | slot | free => exact hadds
        | _ => cases hn
    · unfold Frames.held? at hnone ⊢
      rw [Frames.getElem?_write, if_neg (Ne.symm hframe)]
      exact hnone
  · rw [Frames.held?_write_of_ne hx, hnone]

theorem withholding_lawful
    (hres : ∀ program, w.programs program → Stmt.AllResolvedIn false [] program) :
    (withholding w frame x).Lawful where
  refl frames := Nat.le_refl frames.size
  trans h h' := Nat.le_trans h h'
  callable_mono h hf := ⟨Nat.lt_of_lt_of_le hf.1 h, hf.2⟩
  waiting_mono h hf := ⟨Nat.lt_of_lt_of_le hf.1 h, hf.2⟩
  alike _ := .refl _ _
  part := by
    rintro depth node n m s ⟨-, hdeclared, nest, hl, ho⟩ - hp ha
    refine ⟨ha.honours.frames.1, ?_, nest, hl.part hp, ho.imp ?_ fun hall => Node.all_part hall hp⟩
    · intro hhead hx
      rw [← ha.env] at hdeclared
      exact hdeclared hhead (Node.declared_part hp hx)
    · intro hw
      change Withholds frame x s.env nest
      rwa [ha.env]
  initializer := by
    rintro depth name init m ⟨hlt, hdeclared, nest, hl, ho⟩
    refine ⟨hlt, fun _ => List.not_mem_nil, _, hl.initializer, ho.imp ?_ Node.all_initializer⟩
    exact fun hw => hw.declare hdeclared
  block := by
    rintro depth body before after s m m' u ⟨hlt, -, nest, hl, ho⟩ - hb - ha
    exact runs_of_stands ha.honours ha.env hlt ((Encloses.block body).stands hl)
      (ho.imp_right Node.all_block) hb
  call := by
    rintro depth node f args vars before after s m m₁ m' u - - - - ⟨hlt, nest, hs, ho⟩ hb - ha
    exact runs_of_stands ha.honours ha.env hlt hs ho hb
  bind := by
    rintro depth node f o args? m m' - - ⟨hlt, nest, hs, ho⟩
    refine ⟨Nat.lt_of_lt_of_le hlt (by simp [Machine.receive]), _, hs, ho.imp_left fun hw => ?_⟩
    exact hw.cons fun h => absurd h (Nat.ne_of_gt hlt)
  inherit := by
    rintro depth distance keyword method f c v m m' ⟨-, -, nest, hl, -⟩ - - - - -
    -- no text has such an expression, so none was resolved
    exact (Expr.ResolvedIn.scoped (hl.resolvedIn hres)).elim
  lambda := by
    rintro depth params body m ⟨hlt, -, nest, hl, ho⟩
    exact ⟨hlt, nest, (Encloses.lambda params body).stands hl, ho.imp_right Node.all_lambda⟩
  function := by
    rintro depth f id m v ⟨hlt, hdeclared, nest, hl, ho⟩ - - hg
    exact ⟨Nat.lt_of_lt_of_le hlt hg, _, (Encloses.function f).stands hl,
      ho.imp (fun hw => hw.declare hdeclared) Node.all_function⟩
  method := by
    rintro depth id name superclass? methods f parent? m m₁ m₂ u ⟨-, hdeclared, nest, hl, ho⟩ hf hp -
      ha
    have hlt : frame < m₂.frames.size := ha.honours.frames.1
    have hstatic : f.isStatic = false :=
      ((Stmt.ResolvedIn.scoped (hl.resolvedIn hres)).2 f hf).1 rfl
    have hstands := (Encloses.method hf).stands hl
    have hall := ho.imp (fun hw => hw.declare hdeclared) (Node.all_method · hf)
    unfold Policy.allows
    rw [if_neg (by simp [Function.made, hstatic])]
    -- the frame of the superclass, if there is one, is opened for the methods
    unfold Machine.methodEnv
    rw [← ha.env] at hall
    have hsome := parentClass_isSome hp
    cases superclass? with
    | none =>
      obtain rfl : parent? = none := by simpa using hsome
      exact ⟨hlt, _, hstands, hall⟩
    | some superclass =>
      obtain ⟨c, rfl⟩ := Option.isSome_iff_exists.1 hsome
      refine ⟨Nat.lt_of_lt_of_le hlt (by simp [Machine.methodFrames]), _, hstands, ?_⟩
      exact hall.imp_left fun hw => hw.cons fun h => absurd h (Nat.ne_of_gt hlt)
  push := by
    rintro m vars hm -
    obtain ⟨hlt, hnone⟩ := hm.frames
    have hle : m.frames.size ≤ (m.frames.push (.named vars)).size := by simp
    refine ⟨⟨Nat.lt_of_lt_of_le hlt hle, ?_⟩, hle, rfl⟩
    rw [Frames.held?_push, if_neg (Nat.ne_of_lt hlt)]
    exact hnone
  write := by
    rintro depth node name m₀ m hr hn hm id hid v
    refine ⟨⟨?_, held?_write_eq_none hres hr hn hm hid v⟩, ?_, rfl⟩
    · rw [Frames.size_write]
      exact hm.frames.1
    · exact Nat.le_of_eq (Frames.size_write ..).symm
  search _ _ := trivial

end Covenant

/-! ### Reaching a declaration -/

section Fresh

variable {w : World} {view : View} {x : String}

theorem Fits.size_notMem {env : Env} {nest : Nest} (h : Fits w view env nest) : view.size ∉ env := by
  induction h with
  | globals hs => simpa [Machine.globals] using Nat.ne_of_gt hs
  | cons _ hs _ _ ih => simpa using ⟨Nat.ne_of_gt hs, ih⟩

theorem Closure.Placed.withholding {missing : Nest} {f : Closure} (h : f.Placed w view missing) :
    ∃ nest, Stands w (⟨.call f.params f.body, paramScope f.params⟩ :: (missing ++ nest)) f.body ∧
      (Withholds view.size x f.env nest ∨ Stmt.allOf (Node.isUnassigning x) f.body = true) := by
  obtain ⟨nest, hs, hfits⟩ := h.body
  exact ⟨nest, hs, .inl (.of_notMem hfits.size_notMem)⟩

/-- A frame without a variable was opened. -/
theorem Machine.Honours.withholding {m : Machine} {excused : FrameId → String → Prop}
    (hm : m.Honours (.fitting w excused)) {env : Env} {vars : Table Value}
    (hv : vars.All (Value.Obeys ((Covenant.fitting w excused).policy m.frames)))
    (hx : vars.get? x = none) : (m.enter env vars).Honours (.withholding w m.frames.size x) := by
  have hlt : m.frames.size < (m.enter env vars).frames.size := by simp [Machine.enter]
  have hmono : ∀ v : Value, v.Obeys ((Covenant.fitting w excused).policy m.frames) →
      v.Obeys ((Covenant.withholding w m.frames.size x).policy (m.enter env vars).frames) :=
    fun _ h => h.mono (fun _ hf => ⟨hlt, Closure.Placed.withholding hf⟩)
      fun _ hf => ⟨hlt, Closure.Placed.withholding hf⟩
  refine ⟨(hm.values.mono hmono).push (hv.mono hmono),
    fun i table ht => (hm.fields i table ht).mono hmono, hlt, ?_⟩
  rw [Machine.enter, Frames.held?_push, if_pos rfl, hx]

end Fresh

theorem Eval.Starts.get?_eq_none {f : Closure} {args : List Value} {m : Machine} {vars : Table Value}
    (hs : Starts f args m vars) {name : Token} (hplain : name.isPlain = true)
    (hx : name.lexeme ∉ paramScope f.params) : vars.get? name.lexeme = none := by
  obtain ⟨this, -, hvars⟩ := hs
  have hwords : name.lexeme ≠ "this" ∧ name.lexeme ≠ "inner" := by
    simpa [Token.isPlain, Scope.reserved] using hplain
  have hparams : ∀ param ∈ f.params, param.lexeme ≠ name.lexeme :=
    fun param hp heq => hx (List.mem_map.2 ⟨param, hp, heq⟩)
  obtain ⟨start, hstart, hget⟩ := get?_callVars_of_ne hvars hparams
  rw [hget]
  obtain rfl | rfl := receiverVars_cases hstart
  · rw [Table.get?_insert, if_neg hwords.1]
    rfl
  · rw [Table.get?_insert, if_neg hwords.2, Table.get?_insert, if_neg hwords.1]
    rfl

section Reached

variable {w : World}
  (hres : ∀ program, w.programs program → Stmt.AllResolvedIn false [] program)

include hres

theorem honours_of_stands {depth : Nat} {layer : Layer} {nest : Nest}
    {body before after : List Stmt} {s : Stmt} {env : Env} {vars : Table Value} {m m' : Machine}
    {excused : FrameId → String → Prop} {x : String} {u : Unit}
    (hstands : Stands w (layer :: nest) body) (hb : body = before ++ s :: after)
    (hm : m.Honours (.fitting w excused)) (hfits : Fits w (m.frames.view excused) env nest)
    (hv : vars.All (Value.Obeys ((Covenant.fitting w excused).policy m.frames)))
    (hvars : x ∉ layer.names → vars.get? x = none)
    (hx : x ∈ s.declared) (hr : execAll (run depth) before (m.enter env vars) = .ok u m') :
    m'.env = m.frames.size :: env ∧ m'.Honours (.withholding w m.frames.size x) := by
  have hclash := Stmt.ResolvedIn.not_clash ((hstands before s after hb).resolvedIn hres)
  have hheld : x ∉ before.flatMap Stmt.declared ∧ x ∉ layer.names := by
    constructor
    · exact fun h => hclash (.inr ⟨x, hx, .inl h⟩)
    · exact fun h => hclash (.inr ⟨x, hx, .inr h⟩)
  have hl : (Covenant.withholding w m.frames.size x).Lawful := Covenant.withholding_lawful hres
  have hstart : (m.enter env vars).Honours (.withholding w m.frames.size x) :=
    hm.withholding hv (hvars hheld.2)
  have hruns : ∀ before' s' after' m₁, before = before' ++ s' :: after' →
      (Covenant.withholding w m.frames.size x).After (m.enter env vars) m₁ →
        (Covenant.withholding w m.frames.size x).runs ⟨depth, .stmt s', m₁⟩ := by
    intro before' s' after' m₁ hbefore ha
    have henv : m₁.env = m.frames.size :: env := ha.env
    have hlocated := hstands before' s' (after' ++ s :: after) (by simp [hb, hbefore])
    simp only [hbefore, List.flatMap_append, List.flatMap_cons, List.mem_append, not_or] at hheld
    refine ⟨ha.honours.frames.1, fun _ => hheld.1.2.1, _, hlocated, .inl ?_⟩
    refine Withholds.declare ?_ fun _ => hheld.1.1
    change Withholds _ x m₁.env (layer :: nest)
    rw [henv]
    exact (Withholds.of_notMem hfits.size_notMem).cons fun _ => hheld.2
  have hafter := hl.after_execAll hruns before [] rfl (hl.toFair.after_refl hstart) hr
  exact ⟨hafter.env, hafter.honours⟩

theorem Visited.honours_withholding
    (hroots : ∀ v, w.roots v → Ready w [] [] v.node v.machine) {depth : Nat} {name : Token}
    {init? : Option Expr} {m : Machine} {outer : List Moment}
    (h : Visited w.roots (⟨depth, .stmt (.varDecl name init?), m⟩ :: outer))
    (hplain : name.isPlain = true) (hlocal : m.env ≠ Machine.globals) :
    ∃ frame rest, m.env = frame :: rest ∧ m.Honours (.withholding w frame name.lexeme) := by
  have hready : ∀ v, w.roots v → ∃ nest, Ready w [] nest v.node v.machine :=
    fun v hv => ⟨[], hroots v hv⟩
  have hdeclared : name.lexeme ∈ (Stmt.varDecl name init?).declared := by simp [Stmt.declared]
  cases h with
  | root hroot =>
    have hfits := (hroots _ hroot).fits
    generalize henv : m.env = env at hfits hlocal
    cases hfits with
    | globals => exact absurd rfl hlocal
  | @nested _ node _ m₀ _ outer h hr =>
    obtain ⟨nest, hnode⟩ := h.ready hres hready
    have hscoped := hnode.located.resolvedIn hres
    cases hr with
    | onTrue hc hv =>
      have hnone := (Stmt.ResolvedIn.scoped hscoped).2.1.2
      rw [hnone] at hdeclared
      cases hdeclared
    | onFalse hc hv =>
      have hnone := ((Stmt.ResolvedIn.scoped hscoped).2.2 _ rfl).2
      rw [hnone] at hdeclared
      cases hdeclared
    | loopBody hr hc hv =>
      have hnone := (Stmt.ResolvedIn.scoped hscoped).2.2
      rw [hnone] at hdeclared
      cases hdeclared
    | @block body _ _ _ _ _ _ hb hrun =>
      obtain ⟨henv, hm⟩ := honours_of_stands hres ((Encloses.block body).stands hnode.located) hb
        hnode.honours hnode.fits (Table.All.empty _) (fun _ => rfl) hdeclared hrun
      exact ⟨_, _, henv, hm⟩
    | @call _ f args vars _ _ _ _ m₁ _ _ ha hs hb hrun =>
      obtain ⟨hm₁, hf, hargs⟩ := (hnode.stage hres h).after_applies hnode.honours ha
      obtain ⟨inner, hstands, hfits⟩ := hf.body
      have hnone := hs.get?_eq_none hplain
      obtain ⟨this, hthis, hvars⟩ := hs
      have hreceiver := (((Covenant.fitting_fair hres).keeps_receiver hm₁ f).ok hthis).2.2
      obtain ⟨henv, hm⟩ := honours_of_stands hres hstands hb hm₁ hfits
        (Policy.obeys_callVars hvars hreceiver hargs) hnone hdeclared hrun
      exact ⟨_, _, henv, hm⟩

end Reached

end Lox
