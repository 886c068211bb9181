import Lox.Proofs.Machine.Obedience
import Lox.Proofs.Session.Reachable
import Lox.Proofs.Tree.Readable

/-!
# Machines that run what texts can say

The word `this` is reserved, so no text has a variable of that name, and the forms of its nodes are
those that reading yields. A machine that has run only such nodes holds only functions whose bodies
consist of them, and what a frame holds under `this` never changes.
-/

namespace Lox

open Eval

/-- Whether a node has a form that reading yields and its variable, if there is one, is not called
`this`. -/
def Node.isWritten : Node → Bool := Node.isNamed fun name => name.lexeme != "this"

def Node.all (p : Node → Bool) : Node → Bool
  | .expr e => e.all p
  | .stmt s => s.all p

/-! ### Tests of all nodes -/

section All

variable {p : Node → Bool}

theorem Node.self_of_all {node : Node} (h : node.all p = true) : p node = true := by
  match node with
  | .expr e => cases e <;> simp_all [Node.all, Expr.all]
  | .stmt (.varDecl _ init?) => cases init? <;> simp_all [Node.all, Stmt.all]
  | .stmt (.ifStmt _ _ onFalse?) => cases onFalse? <;> simp_all [Node.all, Stmt.all]
  | .stmt (.returnStmt _ value?) => cases value? <;> simp_all [Node.all, Stmt.all]
  | .stmt .gap | .stmt (.bare _) | .stmt (.expression _) | .stmt (.print _) | .stmt (.block _)
  | .stmt (.whileStmt ..) | .stmt (.breakStmt _) | .stmt (.funDecl _) | .stmt (.classDecl ..) =>
    simp_all [Node.all, Stmt.all]

theorem Node.all_mono {q : Node → Bool} (h : ∀ node, p node = true → q node = true) {node : Node}
    (hn : node.all p = true) : node.all q = true := by
  cases node with
  | expr e => exact Expr.all_mono h e hn
  | stmt s => exact Stmt.all_mono h s hn

theorem Expr.allOf_iff {es : List Expr} :
    Expr.allOf p es = true ↔ ∀ e ∈ es, e.all p = true := by
  induction es with
  | nil => simp [Expr.allOf]
  | cons e es ih => simp [Expr.allOf, ih]

theorem Stmt.allOf_iff {ss : List Stmt} :
    Stmt.allOf p ss = true ↔ ∀ s ∈ ss, s.all p = true := by
  induction ss with
  | nil => simp [Stmt.allOf]
  | cons s ss ih => simp [Stmt.allOf, ih]

theorem Function.all_eq (f : Function) : f.all p = Stmt.allOf p f.body := by
  cases f
  rfl

theorem Function.allOf_iff {fs : List Function} :
    Function.allOf p fs = true ↔ ∀ f ∈ fs, Stmt.allOf p f.body = true := by
  induction fs with
  | nil => simp [Function.allOf]
  | cons f fs ih => simp [Function.allOf, Function.all_eq, ih]

theorem Node.all_part {node part : Node} (h : node.all p = true) (hp : part ∈ node.parts) :
    part.all p = true := by
  cases node with
  | expr e => cases e <;> grind [Node.parts, Node.all, Expr.all, Expr.allOf_iff]
  | stmt s =>
    cases s with
    | ifStmt condition onTrue onFalse? => cases onFalse? <;> grind [Node.parts, Node.all, Stmt.all]
    | returnStmt keyword value? => cases value? <;> grind [Node.parts, Node.all, Stmt.all]
    | _ => grind [Node.parts, Node.all, Stmt.all]

theorem Node.all_initializer {name : Token} {init : Expr}
    (h : (Node.stmt (.varDecl name (some init))).all p = true) : (Node.expr init).all p = true := by
  simp only [Node.all, Stmt.all, Bool.and_eq_true] at h
  exact h.2

theorem Node.all_block {body : List Stmt} (h : (Node.stmt (.block body)).all p = true) :
    Stmt.allOf p body = true := by
  simp only [Node.all, Stmt.all, Bool.and_eq_true] at h
  exact h.2

theorem Node.all_lambda {params : List Token} {body : List Stmt}
    (h : (Node.expr (.lambda params body)).all p = true) : Stmt.allOf p body = true := by
  simp only [Node.all, Expr.all, Bool.and_eq_true] at h
  exact h.2

theorem Node.all_function {f : Function} (h : (Node.stmt (.funDecl f)).all p = true) :
    Stmt.allOf p f.body = true := by
  simp only [Node.all, Stmt.all, Function.all_eq, Bool.and_eq_true] at h
  exact h.2

theorem Node.all_method {name : Token} {superclass? : Option (Token × Address)}
    {methods : List Function} {f : Function}
    (h : (Node.stmt (.classDecl name superclass? methods)).all p = true) (hf : f ∈ methods) :
    Stmt.allOf p f.body = true := by
  simp only [Node.all, Stmt.all, Bool.and_eq_true] at h
  exact Function.allOf_iff.1 h.2 _ hf

end All

/-! ### The policy -/

/-- Functions consist of nodes that a text can have, and methods have names. The frames of a given
moment are still there and hold what they held under `this`. -/
def Policy.written (base : Frames) : Policy where
  callable f := Stmt.allOf Node.isWritten f.body = true
  waiting f := f.name?.isSome ∧ Stmt.allOf Node.isWritten f.body = true
  runs v := v.node.all Node.isWritten = true
  frames frames :=
    base.size ≤ frames.size ∧ ∀ id < base.size, frames.held? id "this" = base.held? id "this"

theorem Policy.written_lawful (base : Frames) : (Policy.written base).Lawful where
  part h _ hp _ := Node.all_part h hp
  initializer h := Node.all_initializer h
  block h hb _ _ := Stmt.allOf_iff.1 (Node.all_block h) _ (by simp [hb])
  call _ _ _ hf hb _ _ := Stmt.allOf_iff.1 hf _ (by simp [hb])
  bind _ _ hf := hf.2
  inherit _ hf := hf.2
  lambda h := Node.all_lambda h
  function h := Node.all_function h
  method h hf _ _ _ := by
    have hbody := Node.all_method h hf
    unfold Policy.allows
    split
    · exact hbody
    · exact ⟨rfl, hbody⟩
  push {frames} vars h := by
    -- the new frame comes after all those that are spoken of
    refine ⟨h.1.trans (by simp), fun id hid => ?_⟩
    rw [← h.2 id hid]
    unfold Frames.held?
    rw [Array.getElem?_push_lt (hid.trans_le h.1), Array.getElem?_eq_getElem (hid.trans_le h.1)]
  write {_ _ name _ frames} h hn id v hf := by
    have hself := Node.self_of_all h
    have hthis : name.lexeme ≠ "this" := by
      simpa [Node.isWritten, Node.isNamed, hn] using (Bool.and_eq_true_iff.1 hself).2
    refine ⟨by simpa [Frames.write] using hf.1, fun i hi => ?_⟩
    rw [← hf.2 i hi]
    exact Frames.held?_write_of_ne hthis.symm id i v

/-! ### Machines -/

/-- The machines that are reached from the start by running nodes that a text can have: after such a
node, at a node inside it, and after something was written or traced or the clock went on. -/
inductive Machine.Written : Machine → Prop where
  | start (traced : Bool) (clock : Clock) : Written (.start traced clock)
  | ended {m m' : Machine} {depth : Nat} {node : Node} (h : Written m)
      (hn : node.all Node.isWritten = true) (he : EndsIn depth node m m') : Written m'
  | inside {m m' : Machine} {depth : Nat} {node node' : Node} (h : Written m)
      (hn : node.all Node.isWritten = true) (hr : Reaches depth node m node' m') : Written m'
  | aside {m m' : Machine} (h : Written m) (hframes : m'.frames = m.frames)
      (hfields : m'.fields = m.fields) (henv : m'.env = m.env) (hfresh : m'.fresh = m.fresh) :
      Written m'

/-- The machines that are reached from the start by running nodes that pass a test, with all nodes
inside them. -/
inductive Machine.Ran (p : Node → Bool) : Machine → Prop where
  | start (traced : Bool) (clock : Clock) : Ran p (.start traced clock)
  | ended {m m' : Machine} {depth : Nat} {node : Node} (h : Ran p m) (hn : node.all p = true)
      (he : EndsIn depth node m m') : Ran p m'
  | inside {m m' : Machine} {depth : Nat} {node node' : Node} (h : Ran p m)
      (hn : node.all p = true) (hr : Reaches depth node m node' m') : Ran p m'
  | aside {m m' : Machine} (h : Ran p m) (hframes : m'.frames = m.frames)
      (hfields : m'.fields = m.fields) (henv : m'.env = m.env) (hfresh : m'.fresh = m.fresh) :
      Ran p m'

/-- The values that running nodes that pass a test can yield. -/
def Value.Yielded (p : Node → Bool) (v : Value) : Prop :=
  ∃ depth node m m', m.Ran p ∧ node.all p = true ∧ run depth node m = .ok v m'

namespace Machine

theorem Ran.written {m : Machine} (hm : m.Ran Node.isWritten) : m.Written := by
  induction hm with
  | start traced clock => exact .start traced clock
  | ended _ hn he ih => exact ih.ended hn he
  | inside _ hn hr ih => exact ih.inside hn hr
  | aside _ hframes hfields henv hfresh ih => exact ih.aside hframes hfields henv hfresh

theorem Obeys.rebase {base : Frames} {m : Machine} (h : m.Obeys (.written base)) :
    m.Obeys (.written m.frames) :=
  ⟨h.values, h.fields, le_rfl, fun _ _ => rfl⟩

theorem Written.obeys {m : Machine} (hm : m.Written) : m.Obeys (.written m.frames) := by
  induction hm with
  | start traced clock => exact obeys_start ⟨le_rfl, fun _ _ => rfl⟩
  | @ended m m' depth node _ hn he ih =>
    have hk := (Policy.written_lawful m.frames).run_keeps depth hn ih
    rcases he with ⟨v, hv⟩ | ⟨e, he⟩
    · exact (hk.ok hv).2.1.rebase
    · exact (hk.error he).2.1.rebase
  | inside _ hn hr ih => exact ((Policy.written_lawful _).reaches hn ih hr).2.rebase
  | aside _ hframes hfields _ _ ih => exact (ih.congr hframes hfields).rebase

theorem Written.reachable {m : Machine} (hm : m.Written) : m.Reachable := by
  induction hm with
  | start traced clock => exact .start traced clock
  | ended _ _ he ih => exact ih.ended he
  | inside _ _ hr ih => exact ih.inside hr
  | aside _ hframes hfields henv hfresh ih => exact ih.aside hframes hfields henv hfresh

end Machine

end Lox
