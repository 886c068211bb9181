import Lox.Proofs.Machine.Simulate
import Lox.Proofs.Mirror
import Lox.Proofs.Tree.Lines

/-!
# Runs on other lines

Functions and classes carry the tokens of their declarations, and with them lines. A run looks neither
at the lines of tokens nor at what has been written before. So a node with other lines, run on a machine
with other lines and with more output, does the same up to these.
-/

namespace Lox

open Outcome

/-- A function with its lines changed. -/
def Closure.relined (f : Nat → Nat) (c : Closure) : Closure :=
  { c with params := c.params.map (Token.relined f), body := Stmt.relinedAll f c.body }

def Class.relined (f : Nat → Nat) : Class → Class
  | .mk id name none methods statics =>
    .mk id name none (methods.map (Closure.relined f)) (statics.map (Closure.relined f))
  | .mk id name (some parent) methods statics =>
    .mk id name (some (parent.relined f)) (methods.map (Closure.relined f))
      (statics.map (Closure.relined f))

/-- An instance with its lines changed. -/
def Object.relined (f : Nat → Nat) (o : Object) : Object := { o with type := o.type.relined f }

def Value.relined (f : Nat → Nat) : Value → Value
  | .function c => .function (c.relined f)
  | .type c => .type (c.relined f)
  | .object o => .object (o.relined f)
  | .chain id methods receiver => .chain id (methods.map (Closure.relined f)) (receiver.relined f)
  | v => v

def Frame.relined (f : Nat → Nat) : Frame → Frame
  | .named vars => .named (vars.map (Value.relined f))
  | .indexed slots globals => .indexed (slots.map (Value.relined f)) (globals.map (Value.relined f))

def Exit.relined (f : Nat → Nat) : Exit → Exit
  | .returned v => .returned (v.relined f)
  | .delivered v => .delivered (v.relined f)
  | .fault token cause => .fault (token.relined f) cause
  | e => e

def Node.relined (f : Nat → Nat) : Node → Node
  | .expr e => .expr (e.relined f)
  | .stmt s => .stmt (s.relined f)

/-! ### Lines that stay -/

theorem relined_closure : Closure.relined id = id := by
  funext f
  simp [Closure.relined]

theorem relined_class : ∀ c : Class, c.relined id = c
  | .mk _ _ none _ _ => by
    simp only [Class.relined, relined_closure, Table.map_id]
  | .mk _ _ (some parent) _ _ => by
    simp only [Class.relined, relined_closure, Table.map_id, relined_class parent]

theorem Value.relined_id : Value.relined id = id := by
  funext v
  cases v <;> simp [Value.relined, relined_closure, relined_class, Object.relined]

theorem Value.map_relined_id : Table.map (Value.relined id) = id := by
  funext t
  rw [Value.relined_id, Table.map_id, id]

theorem Frame.relined_id : Frame.relined id = id := by
  funext frame
  cases frame <;> simp [Frame.relined, Value.relined_id, Table.map_id]

theorem Exit.relined_id : Exit.relined id = id := by
  funext exit
  cases exit <;> simp [Exit.relined, Value.relined_id, Token.relined_id]

/-! ### Likeness up to lines -/

/-- Functions may have other lines, and nothing else. -/
def Comparison.relining (line : Nat → Nat) (aside : Bool → Array Line → Bool → Array Line → Prop)
    (spared : Exit → Prop) : Comparison where
  token t t' := t' = t.relined line
  expr e e' := e' = e.relined line
  stmt s s' := s' = s.relined line
  unnames := False
  aside := aside
  spared := spared
  broken _ := False

section Graphs

variable {α β : Type} {g : α → β}

theorem forall₂_graph {l : List α} {l' : List β} :
    List.Forall₂ (fun a b => b = g a) l l' ↔ l' = l.map g := by
  induction l generalizing l' with
  | nil => simp
  | cons a l ih => cases l' <;> simp [ih]

theorem Table.like_graph {t : Table α} {t' : Table β} :
    t.Like (fun a b => b = g a) t' ↔ t' = t.map g := by
  have hpair : (fun (p : String × α) (p' : String × β) => p'.1 = p.1 ∧ p'.2 = g p.2) =
      fun p p' => p' = (p.1, g p.2) := by
    funext p p'
    rw [Prod.ext_iff]
  unfold Table.Like
  rw [hpair, forall₂_graph]
  exact ⟨congrArg Table.mk, congrArg Table.entries⟩

theorem arrayLike_graph {a : Array α} {b : Array β} :
    ArrayLike (fun x y => y = g x) a b ↔ b = a.map g := by
  constructor
  · intro h
    apply Array.ext_getElem?
    intro i
    rw [Array.getElem?_map]
    refine (h.getElem? i).casesOn (fun hxy => ?_) rfl
    rw [hxy, Option.map_some]
  · rintro rfl
    refine ⟨Array.size_map, fun i => ?_⟩
    rw [Array.getElem?_map]
    cases a[i]? with
    | none => exact .none
    | some x => exact .some rfl

end Graphs

namespace Comparison

variable {line : Nat → Nat} {aside : Bool → Array Line → Bool → Array Line → Prop}
  {spared : Exit → Prop}

theorem stmts_relined (ss : List Stmt) : Stmt.relinedAll line ss = ss.map (Stmt.relined line) := by
  induction ss with
  | nil => rfl
  | cons s ss ih => rw [Stmt.relinedAll, ih, List.map_cons]

theorem exprs_relined (es : List Expr) : Expr.relinedAll line es = es.map (Expr.relined line) := by
  induction es with
  | nil => rfl
  | cons e es ih => rw [Expr.relinedAll, ih, List.map_cons]

theorem function_relined (d : Function) :
    Function.Like (fun t t' => t' = t.relined line) (fun s s' => s' = s.relined line) d (d.relined line) := by
  obtain ⟨name, params, body, isStatic, isGetter⟩ := d
  exact .mk _ _ rfl (forall₂_graph.2 rfl) (forall₂_graph.2 (stmts_relined body))

theorem functions_relined (ds : List Function) :
    List.Forall₂ (Function.Like (fun t t' => t' = t.relined line) fun s s' => s' = s.relined line) ds
      (Function.relinedAll line ds) := by
  induction ds with
  | nil => exact .nil
  | cons d ds ih => exact .cons (function_relined d) ih

theorem relining_lawful (hspared : ∀ e, spared e → e.IsFinal) :
    (relining line aside spared).Lawful where
  kind := by
    rintro t _ rfl
    rfl
  lexeme := by
    rintro t _ rfl
    rfl
  expr := by
    rintro e _ rfl
    cases e with
    | call callee paren arguments => exact .call rfl rfl (forall₂_graph.2 (exprs_relined arguments))
    | lambda params body => exact .lambda (forall₂_graph.2 rfl) (forall₂_graph.2 (stmts_relined body))
    | _ => constructor <;> rfl
  stmt := by
    rintro s _ rfl
    cases s with
    | varDecl name init? => cases init? <;> exact .varDecl rfl (by constructor; try rfl)
    | block body => exact .block (forall₂_graph.2 (stmts_relined body))
    | ifStmt condition onTrue onFalse? =>
      cases onFalse? <;> exact .ifStmt rfl rfl (by constructor; try rfl)
    | funDecl d => exact .funDecl (function_relined d)
    | classDecl name superclass? methods =>
      refine .classDecl rfl ?_ (functions_relined methods)
      cases superclass? with
      | none => exact .none
      | some parent => exact .some ⟨rfl, rfl⟩
    | returnStmt keyword value? => cases value? <;> exact .returnStmt rfl (by constructor; try rfl)
    | _ => constructor <;> rfl
  spared := hspared _
  broken := False.elim
  unnamed := False.elim

theorem closure_relining :
    Closure.Like (relining line aside spared) = fun f f' => f' = f.relined line := by
  funext f f'
  refine propext ⟨fun h => ?_, ?_⟩
  · have hname : f'.name? = f.name? := h.name?.resolve_right And.left
    have hbody := (forall₂_graph.1 h.body).trans (stmts_relined f.body).symm
    have heta : f' = ⟨f'.id, f'.name?, f'.params, f'.body, f'.env, f'.isInit, f'.isGetter,
      f'.isStatic⟩ := rfl
    rw [heta, h.id, hname, forall₂_graph.1 h.params, hbody, h.env, h.isInit, h.isGetter, h.isStatic]
    rfl
  · rintro rfl
    exact ⟨rfl, .inl rfl, forall₂_graph.2 rfl, forall₂_graph.2 (stmts_relined f.body), rfl, rfl, rfl, rfl⟩

theorem class_relined : ∀ k : Class, k.Like (relining line aside spared) (k.relined line)
  | .mk id name none _ _ =>
    .root id name (closure_relining ▸ Table.like_graph.2 rfl) (closure_relining ▸ Table.like_graph.2 rfl)
  | .mk id name (some parent) _ _ =>
    .derived id name (class_relined parent) (closure_relining ▸ Table.like_graph.2 rfl)
      (closure_relining ▸ Table.like_graph.2 rfl)

theorem class_relining :
    Class.Like (relining line aside spared) = fun k k' => k' = k.relined line := by
  funext k k'
  refine propext ⟨fun h => ?_, fun h => h ▸ class_relined k⟩
  induction h with
  | root id name hm hs =>
    rw [closure_relining, Table.like_graph] at hm hs
    rw [hm, hs, Class.relined]
  | derived id name _ hm hs ih =>
    rw [closure_relining, Table.like_graph] at hm hs
    rw [hm, hs, ih, Class.relined]

theorem value_relining :
    Value.Like (relining line aside spared) = fun v v' => v' = v.relined line := by
  funext v v'
  refine propext ⟨fun h => ?_, ?_⟩
  · cases h with
    | function hf => rw [closure_relining] at hf; rw [hf, Value.relined]
    | type hk => rw [class_relining] at hk; rw [hk, Value.relined]
    | object i hk => rw [class_relining] at hk; rw [hk]; rfl
    | chain id i hfs hk =>
      rw [class_relining] at hk
      rw [closure_relining, forall₂_graph] at hfs
      rw [hk, hfs]
      rfl
    | _ => rfl
  · rintro rfl
    cases v with
    | function f => exact .function (closure_relining ▸ rfl)
    | type k => exact .type (class_relining ▸ rfl)
    | object o => exact .object o.id (class_relining ▸ rfl)
    | chain id fs o => exact .chain id o.id (closure_relining ▸ forall₂_graph.2 rfl) (class_relining ▸ rfl)
    | _ => constructor

theorem frame_relining :
    Frame.Like (relining line aside spared) = fun frame frame' => frame' = frame.relined line := by
  funext frame frame'
  refine propext ⟨fun h => ?_, ?_⟩
  · cases h with
    | named hvars => rw [value_relining, Table.like_graph] at hvars; rw [hvars, Frame.relined]
    | indexed hslots hglobals =>
      rw [value_relining, Table.like_graph] at hglobals
      rw [value_relining, arrayLike_graph] at hslots
      rw [hslots, hglobals, Frame.relined]
  · rintro rfl
    cases frame with
    | named vars => exact .named (value_relining ▸ Table.like_graph.2 rfl)
    | indexed slots globals =>
      exact .indexed (value_relining ▸ arrayLike_graph.2 rfl) (value_relining ▸ Table.like_graph.2 rfl)

theorem exit_relining {e e' : Exit} (h : e.Like (relining line aside spared) e') :
    e' = e.relined line := by
  cases h with
  | returned hv => rw [value_relining] at hv; rw [hv, Exit.relined]
  | delivered hv => rw [value_relining] at hv; rw [hv, Exit.relined]
  | fault cause ht => rw [show _ = _ from ht, Exit.relined]
  | _ => rfl

/-- A machine that is alike up to lines. -/
theorem machine_relining {m m' : Machine} :
    m.Like (relining line aside spared) m' ↔
      m' = { m with
        frames := m.frames.map (Frame.relined line)
        fields := m.fields.map (Table.map (Value.relined line))
        traced := m'.traced
        out := m'.out } ∧ aside m.traced m.out m'.traced m'.out := by
  have htables : Table.Like (Value.Like (relining line aside spared)) =
      fun t t' => t' = t.map (Value.relined line) := by
    funext t t'
    rw [value_relining]
    exact propext Table.like_graph
  constructor
  · rintro ⟨hframes, hfields, henv, hfresh, hnow, haside⟩
    rw [Frames.Like, frame_relining, arrayLike_graph] at hframes
    rw [htables, arrayLike_graph] at hfields
    obtain ⟨frames', fields', env', fresh', traced', clock', out'⟩ := m'
    subst hframes hfields henv hfresh hnow
    exact ⟨rfl, haside⟩
  · rintro ⟨hm, haside⟩
    rw [hm]
    have hframes : ArrayLike (Frame.Like (relining line aside spared)) m.frames
        (m.frames.map (Frame.relined line)) := frame_relining ▸ arrayLike_graph.2 rfl
    exact ⟨hframes, htables ▸ arrayLike_graph.2 rfl, rfl, rfl, rfl, haside⟩

theorem mirrors_of_relates {state : Machine → Machine} {x y : Run Value}
    (hstate : ∀ m m', m.Like (relining line aside fun _ => False) m' ↔ m' = state m)
    (h : Run.Relates (relining line aside fun _ => False)
      (Value.Like (relining line aside fun _ => False)) x y) (m : Machine) :
    Mirrors state (Exit.relined line) (Value.relined line) x y m := by
  have hm := h m (state m) ((hstate m _).2 rfl)
  unfold Mirrors
  generalize x m = r at hm ⊢
  generalize y (state m) = r' at hm ⊢
  cases hm with
  | ok hv hm' =>
    rw [value_relining] at hv
    rw [hv, (hstate _ _).1 hm']
    rfl
  | error he hm' =>
    rw [exit_relining he, (hstate _ _).1 hm']
    rfl
  | spared _ _ he => exact he.elim
  | broken _ _ he => exact he.elim

end Comparison

/-! ### Other lines and more output -/

/-- What is changed: the lines, and the output, which some other comes before. -/
structure Recasting where
  line : Nat → Nat
  before : Array Line

/-- A machine with its lines changed and with more output before its own. -/
def Machine.recast (c : Recasting) (m : Machine) : Machine :=
  { m with
    frames := m.frames.map (Frame.relined c.line)
    fields := m.fields.map (Table.map (Value.relined c.line))
    out := c.before ++ m.out }

def Recasting.likeness (c : Recasting) : Comparison :=
  .relining c.line (fun b o b' o' => b' = b ∧ o' = c.before ++ o) fun _ => False

theorem Recasting.lawful (c : Recasting) : c.likeness.Lawful := Comparison.relining_lawful fun _ => False.elim

theorem Machine.like_recast (c : Recasting) (m m' : Machine) : m.Like c.likeness m' ↔ m' = m.recast c := by
  refine Comparison.machine_relining.trans ⟨?_, ?_⟩
  · rintro ⟨hm, ht, ho⟩
    rw [hm, ht, ho]
    rfl
  · rintro rfl
    exact ⟨rfl, rfl, rfl⟩

variable {α β : Type} {c : Recasting} {m : Machine}

abbrev Run.Recasts (c : Recasting) (value : α → β) (x : Run α) (y : Run β) (m : Machine) : Prop :=
  Mirrors (Machine.recast c) (Exit.relined c.line) value x y m

theorem Run.recasts_write (line : Line) : Recasts c id (write line) (write line) m :=
  .modify (by simp [Machine.recast])

theorem Run.recasts_ofExcept_self (r : Except Defect α) : Recasts c id (ofExcept r) (ofExcept r) m := by
  cases r with
  | ok a => exact .pure rfl
  | error d => exact .throw rfl

theorem Run.recasts_catchReturn {x y : Run Value} (h : Recasts c (Value.relined c.line) x y m) :
    Recasts c (Value.relined c.line) (catchReturn x) (catchReturn y) m := by
  change catchReturn y (m.recast c) = recast _ _ _ (catchReturn x m)
  unfold catchReturn
  cases hx : x m with
  | ok v m' =>
    rw [h.ok hx]
    rfl
  | error e m' =>
    rw [h.error hx]
    cases e <;> rfl

theorem Value.print_relined (f : Nat → Nat) (v : Value) : (v.relined f).print = v.print := by
  have hlike : v.Like (Comparison.relining f (fun _ _ _ _ => True) fun _ => False) (v.relined f) :=
    Comparison.value_relining ▸ rfl
  exact hlike.print.resolve_right And.left

namespace Eval

theorem recasts_run (c : Recasting) (depth : Nat) (node : Node) (m : Machine) :
    Run.Recasts c (Value.relined c.line) (run depth node) (run depth (node.relined c.line)) m := by
  have hplain : c.likeness.Plain := by
    refine ⟨And.left, ?_⟩
    rintro b b' o o' line ⟨hb, rfl⟩
    exact ⟨hb, Array.append_push.symm⟩
  have hnode : Node.Like c.likeness node (node.relined c.line) := by
    cases node with
    | expr e => exact .expr rfl
    | stmt s => exact .stmt rfl
  exact Comparison.mirrors_of_relates (Machine.like_recast c)
    (relates_run c.lawful hplain (.inl rfl) False.elim hnode) m

theorem recasts_execAll {rec rec' : Recur}
    (hrec : ∀ node m, Run.Recasts c (Value.relined c.line) (rec node) (rec' (node.relined c.line)) m)
    (ss : List Stmt) :
    Run.Recasts c id (execAll rec ss) (execAll rec' (Stmt.relinedAll c.line ss)) m := by
  induction ss generalizing m with
  | nil => exact .pure rfl
  | cons s ss ih => exact (hrec (.stmt s) m).bind fun _ _ => ih

end Eval

end Lox
