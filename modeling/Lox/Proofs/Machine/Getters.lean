import Lox.Proofs.Machine.Chain
import Lox.Proofs.Session.Course

/-!
# Getters of one name

A getter is run when its property is read. That is so if one class alone declares it: if a class and
one of its superclasses both do, reading the property yields the chain of the getters, unrun, and they
are run in turn when that chain is called without arguments.
-/

namespace Lox

open Eval Outcome

theorem Class.length_methodChain (c : Class) (name : String) :
    (c.methodChain name).length = c.lineage.countP fun k => (k.methods.get? name).isSome := by
  rw [methodChain_eq, List.length_filterMap_eq_countP, List.countP_reverse]

namespace Eval

variable {depth : Nat} {o : Object} {args : List Value} {f g : Closure} {fs : List Closure}
  {m m₁ m' : Machine} {v : Value}

/-- Every method that is run opens a frame, and frames stay. -/
theorem InTurn.size_lt {base : Frames} (h : InTurn depth o args fs m (.ok v m'))
    (hms : ∀ k ∈ fs, (Policy.written base).waiting k ∧ k.arity = args.length)
    (ho : o.type.Obeys (.written base)) (hargs : ∀ a ∈ args, a.Obeys (.written base))
    (hm : m.Obeys (.written base)) : m.frames.size < m'.frames.size := by
  generalize hr : EStateM.Result.ok v m' = r at h
  induction h generalizing base with
  | @last f m r hact =>
    subst hr
    obtain ⟨hf, harity⟩ := hms f (by simp)
    obtain ⟨opened, hlt, hm'⟩ := hact.exists_obeys hf harity ho hargs hm
    exact hlt.trans_le hm'.frames.1
  | @next f g fs m m₁ w r hact _ ih =>
    obtain ⟨hf, harity⟩ := hms f (by simp)
    obtain ⟨opened, hlt, hm₁⟩ := hact.exists_obeys hf harity ho hargs hm
    -- what is asked of functions and values does not depend on the frames
    have hrest : ∀ k ∈ g :: fs, (Policy.written opened).waiting k ∧ k.arity = args.length :=
      fun k hk => hms k (List.mem_cons_of_mem f hk)
    exact (hlt.trans_le hm₁.frames.1).trans (ih hrest ho hargs hm₁ hr)
  | stops => cases hr

section Read

variable {object : Expr} {name : Token} (hm : m.Written)
  (hn : (Expr.get object name).all Node.isWritten = true)
  (ho : run depth (.expr object) m = .ok (.object o) m₁)
  (hfield : (m₁.fields[o.id]?).bind (·.get? name.lexeme) = none)
  (hgetters : ∀ f ∈ o.type.methodChain name.lexeme, f.isGetter = true)

include hm hn ho hgetters in
theorem written_getters : ∀ k ∈ o.type.methodChain name.lexeme,
    (Policy.written m₁.frames).waiting k ∧ k.arity = ([] : List Value).length := by
  intro k hk
  refine ⟨(written_object hm hn ho).2.methodChain hk, ?_⟩
  rw [Closure.arity, if_pos (hgetters k hk)]
  rfl

include hm hn ho hfield hgetters

theorem get_inTurn (hchain : o.type.methodChain name.lexeme = [f]) :
    InTurn depth o [] [f] m₁ (run (depth + 1) (.expr (.get object name)) m) := by
  obtain ⟨hm₁, hclass⟩ := written_object hm hn ho
  have hmem : f ∈ o.type.methodChain name.lexeme := by simp [hchain]
  obtain ⟨hf, harity⟩ := written_getters hm hn ho hgetters f hmem
  rw [run_get ho, property_single hfield hchain, if_pos (hgetters f hmem)]
  exact .last (activates_bound hf harity hclass (by simp) hm₁)

theorem get_not_inTurn (hchain : o.type.methodChain name.lexeme = f :: g :: fs) :
    ¬InTurn depth o [] (f :: g :: fs) m₁ (run (depth + 1) (.expr (.get object name)) m) := by
  obtain ⟨hm₁, hclass⟩ := written_object hm hn ho
  have hms := written_getters hm hn ho hgetters
  rw [hchain] at hms
  rw [run_get ho, property_chain hfield hchain]
  -- the chain is made without opening a frame
  intro hturn
  exact Nat.lt_irrefl _ (hturn.size_lt hms hclass (by simp) hm₁)

theorem call_getters_inTurn (hchain : o.type.methodChain name.lexeme = f :: g :: fs)
    (paren : Token) : InTurn (depth + 1) o [] (f :: g :: fs) { m₁ with fresh := m₁.fresh + 1 }
      (run (depth + 2) (.expr (.call (.get object name) paren [])) m) := by
  obtain ⟨hm₁, hclass⟩ := written_object hm hn ho
  have hms := written_getters hm hn ho hgetters
  rw [hchain] at hms
  have hget := (run_get ho).trans (property_chain hfield hchain)
  exact call_chain_inTurn hget rfl hms hclass (by simp) (hm₁.congr rfl rfl)

end Read

/-- The getters of an instance. The methods of a name that is no field form a chain, root class first,
with that of each class that has one. If all of them are getters, reading the property runs them in
turn if and only if there is exactly one. If there are more, it yields their chain, runs nothing and
changes nothing but the supply of identities; to call what it yields, without arguments, runs them in
turn. If there is none, the property is undefined. -/
theorem getters_run_iff {depth : Nat} {m m₁ : Machine} {object : Expr} {name : Token} {o : Object}
    (hm : m.Written) (hn : (Expr.get object name).all Node.isWritten = true)
    (ho : run depth (.expr object) m = .ok (.object o) m₁)
    (hfield : (m₁.fields[o.id]?).bind (·.get? name.lexeme) = none)
    (hgetters : ∀ f ∈ o.type.methodChain name.lexeme, f.isGetter = true) :
    o.type.methodChain name.lexeme =
      o.type.lineage.reverse.filterMap (fun c => c.methods.get? name.lexeme) ∧
    (InTurn depth o [] (o.type.methodChain name.lexeme) m₁
        (run (depth + 1) (.expr (.get object name)) m) ↔
      o.type.lineage.countP (fun c => (c.methods.get? name.lexeme).isSome) = 1) ∧
    (1 < o.type.lineage.countP (fun c => (c.methods.get? name.lexeme).isSome) →
      run (depth + 1) (.expr (.get object name)) m =
        .ok (.chain m₁.fresh (o.type.methodChain name.lexeme) o) { m₁ with fresh := m₁.fresh + 1 } ∧
      ∀ paren, InTurn (depth + 1) o [] (o.type.methodChain name.lexeme)
        { m₁ with fresh := m₁.fresh + 1 }
        (run (depth + 2) (.expr (.call (.get object name) paren [])) m)) ∧
    (o.type.lineage.countP (fun c => (c.methods.get? name.lexeme).isSome) = 0 →
      run (depth + 1) (.expr (.get object name)) m =
        .error (.fault name (.undefinedProperty name.lexeme)) m₁) := by
  refine ⟨Class.methodChain_eq _ _, ?_⟩
  rw [← Class.length_methodChain]
  match hchain : o.type.methodChain name.lexeme with
  | [] =>
    refine ⟨⟨nofun, nofun⟩, nofun, fun _ => ?_⟩
    rw [run_get ho, property_undefined hfield (Class.methodChain_eq_nil.1 hchain)]
  | [f] => exact ⟨⟨fun _ => rfl, fun _ => get_inTurn hm hn ho hfield hgetters hchain⟩, nofun, nofun⟩
  | f :: g :: fs =>
    refine ⟨⟨fun h => absurd h (get_not_inTurn hm hn ho hfield hgetters hchain), nofun⟩,
      fun _ => ⟨?_, call_getters_inTurn hm hn ho hfield hgetters hchain⟩, nofun⟩
    exact (run_get ho).trans (property_chain hfield hchain)

private def rootGetter : Stmt :=
  .classDecl (.ident "A" 1) none
    [⟨.ident "g" 1, [], [.print (.this ⟨.kwThis, "this", .nil, 1⟩ (.hops 1))], false, true⟩]

private def leafGetter : Stmt :=
  .classDecl (.ident "B" 1) (some (.ident "A" 1, .free))
    [⟨.ident "g" 1, [], [.returnStmt ⟨.kwReturn, "return", .nil, 1⟩ (some (.literal (.bool true)))],
      false, true⟩]

private def gettersDeclared : Machine :=
  leftBy 1 (.stmt leafGetter) (leftBy 1 (.stmt rootGetter) (.start false 0))

private theorem gettersDeclared_written : gettersDeclared.Written := by
  have hroot : (Node.stmt rootGetter).all Node.isWritten = true := by decide +kernel
  have hleaf : (Node.stmt leafGetter).all Node.isWritten = true := by decide +kernel
  exact ((Machine.Written.start false 0).ended hroot (endsIn_leftBy _ _ _)).ended hleaf
    (endsIn_leftBy _ _ _)

/-- Making an instance of a class. -/
private def newOf (name : String) : Expr :=
  .call (.variable (.ident name 1) .free) ⟨.rightParen, ")", .nil, 1⟩ []

/-- Whether a run ends with an instance that has so many getters of a name, no other method of it and
no such field. -/
private def endsWithGetters (name : String) (count : Nat) : EStateM.Result Exit Machine Value → Bool
  | .ok (.object o) m =>
    ((m.fields[o.id]?).bind (·.get? name)).isNone && (o.type.methodChain name).length == count &&
      (o.type.methodChain name).all (·.isGetter)
  | _ => false

private theorem endsWithGetters_eq_true {name : String} {count : Nat}
    {r : EStateM.Result Exit Machine Value} (h : endsWithGetters name count r = true) :
    ∃ o m, r = .ok (.object o) m ∧ (m.fields[o.id]?).bind (·.get? name) = none ∧
      o.type.lineage.countP (fun c => (c.methods.get? name).isSome) = count ∧
      ∀ f ∈ o.type.methodChain name, f.isGetter = true := by
  unfold endsWithGetters at h
  split at h
  · next o m =>
    simp only [Bool.and_eq_true, Option.isNone_iff_eq_none, beq_iff_eq, List.all_eq_true] at h
    obtain ⟨⟨hfield, hlength⟩, hgetters⟩ := h
    exact ⟨o, m, rfl, hfield, by rw [← Class.length_methodChain, hlength], hgetters⟩
  · cases h

/-- An instance of the superclass runs the getter when the property is read. One of the subclass does
so only when what was read is called. -/
theorem getters_run_iff_both :
    (∃ o m₁, run 3 (.expr (newOf "A")) gettersDeclared = .ok (.object o) m₁ ∧
      InTurn 3 o [] (o.type.methodChain "g") m₁
        (run 4 (.expr (.get (newOf "A") (.ident "g" 1))) gettersDeclared)) ∧
    ∃ o m₁, run 3 (.expr (newOf "B")) gettersDeclared = .ok (.object o) m₁ ∧
      ¬InTurn 3 o [] (o.type.methodChain "g") m₁
        (run 4 (.expr (.get (newOf "B") (.ident "g" 1))) gettersDeclared) ∧
      InTurn 4 o [] (o.type.methodChain "g") { m₁ with fresh := m₁.fresh + 1 }
        (run 5 (.expr (.call (.get (newOf "B") (.ident "g" 1)) ⟨.rightParen, ")", .nil, 1⟩ []))
          gettersDeclared) := by
  constructor
  · obtain ⟨o, m₁, ho, hfield, hcount, hgetters⟩ := endsWithGetters_eq_true
      (show endsWithGetters "g" 1 (run 3 (.expr (newOf "A")) gettersDeclared) = true by decide +kernel)
    have hwritten : (Expr.get (newOf "A") (.ident "g" 1)).all Node.isWritten = true := by decide +kernel
    obtain ⟨-, hiff, -, -⟩ := getters_run_iff gettersDeclared_written hwritten ho hfield hgetters
    exact ⟨o, m₁, ho, hiff.2 hcount⟩
  · obtain ⟨o, m₁, ho, hfield, hcount, hgetters⟩ := endsWithGetters_eq_true
      (show endsWithGetters "g" 2 (run 3 (.expr (newOf "B")) gettersDeclared) = true by decide +kernel)
    have hwritten : (Expr.get (newOf "B") (.ident "g" 1)).all Node.isWritten = true := by decide +kernel
    obtain ⟨-, hiff, hchain, -⟩ := getters_run_iff gettersDeclared_written hwritten ho hfield hgetters
    refine ⟨o, m₁, ho, fun hturn => ?_, (hchain ?_).2 _⟩
    · exact absurd (hcount.symm.trans (hiff.1 hturn)) (by decide)
    · exact hcount ▸ Nat.one_lt_two

def getterRedefined : Text where
  source := "class A{g{return true;}}class B<A{g{return true;}}print B().g;"
  echoes := false

/-- The property is the chain of the getters, not the value of one. -/
theorem getters_not_run :
    getterRedefined.complaints = [] ∧
      ((Session.new true 0).left
          (Session.run getterRedefined.source getterRedefined.echoes)).machine.out =
        #[.shown "<beta-chain method>"] ∧
      ((Session.new true 0).left
          (Session.run getterRedefined.source getterRedefined.echoes)).reports = #[] := by
  decide +kernel

end Eval

end Lox
