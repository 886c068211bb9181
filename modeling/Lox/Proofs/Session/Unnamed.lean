import Lox.Proofs.Machine.Bounds
import Lox.Proofs.Scope.Simulate
import Lox.Proofs.Session.Reachable
import Lox.Proofs.Session.Run

/-!
# Declared functions and variables with anonymous ones

A declared function and a variable that holds an anonymous one are the same but for the name, which the
anonymous function lacks. A program in which the one stands in the place of the other is resolved in the
same way and runs to the same end, unless the name is asked for: when the function is shown, and when
it is called and finds an instance under `this` in the frame that it was made in.
-/

namespace Lox

open Eval

mutual

/-- The same expression, where variables with anonymous functions may stand for declared functions. -/
inductive Expr.Unnamed : Expr → Expr → Prop
  | of : Expr.Like Eq Expr.Unnamed Stmt.Unnamed e e' → Expr.Unnamed e e'

/-- The same statement, where variables with anonymous functions may stand for declared functions. -/
inductive Stmt.Unnamed : Stmt → Stmt → Prop
  | of : Stmt.Like Eq Expr.Unnamed Stmt.Unnamed True s s' → Stmt.Unnamed s s'

end

/-- The same machines up to their functions, which may lack names, with the same output. -/
def Likeness.unnaming : Likeness where
  token := Eq
  expr := Expr.Unnamed
  stmt := Stmt.Unnamed
  unnames := True
  aside traced out traced' out' := traced' = traced ∧ out' = out

theorem Likeness.unnaming_closed : unnaming.Closed :=
  ⟨⟨fun ⟨h⟩ => h, .of⟩, ⟨fun ⟨h⟩ => h, .of⟩⟩

/-! ### Resolving -/

/-- Both walks report and list the same. -/
def Scope.Accord.same : Accord Eq where
  lexeme h := h ▸ rfl
  holds a a' := a' = a
  reported _ ht ha := ht ▸ ha ▸ rfl
  listed _ _ ht ha := ht ▸ ha ▸ rfl
  closed _ ha := ha ▸ rfl

theorem Scope.resolve_unnamed {ss ss' program : List Stmt} {warns : Bool}
    (h : List.Forall₂ Stmt.Unnamed ss ss') (hr : (resolve warns ss).statements = .ok program) :
    ∃ program', (resolve warns ss').statements = .ok program' ∧
      (resolve warns ss').reached.notices = (resolve warns ss).reached.notices ∧
      List.Forall₂ Stmt.Unnamed program program' := by
  have hagrees : Resolving.Agrees .same (List.Forall₂ Stmt.Unnamed) (Stmt.resolveAll ss)
      (Stmt.resolveAll ss') := Stmt.agrees_resolveAll Likeness.unnaming_closed ss h
  have hends := hagrees [] rfl (.start warns) (.start warns) ⟨.nil _, rfl, rfl, rfl⟩
  unfold resolve at hr ⊢
  generalize Stmt.resolveAll ss (.start warns) = o at hends hr ⊢
  generalize Stmt.resolveAll ss' (.start warns) = o' at hends ⊢
  cases hends with
  | ok hv hr' =>
    cases hr
    exact ⟨_, rfl, congrArg Account.notices hr'.account, hv⟩
  | error => cases hr

/-! ### Running -/

/-- A comparison of runs whose functions may lack names. -/
def Comparison.unnaming (spared broken : Exit → Prop) : Comparison :=
  { Likeness.unnaming with spared := spared, broken := broken }

theorem Comparison.unnaming_lawful {spared broken : Exit → Prop} (hs : ∀ e, spared e → e.IsFinal)
    (hb : ∀ e, broken e → e.IsFinal) (hu : broken (.defect .unnamedFunction)) :
    (unnaming spared broken).Lawful where
  kind h := h ▸ rfl
  lexeme h := h ▸ rfl
  expr := Likeness.unnaming_closed.expr.1
  stmt := Likeness.unnaming_closed.stmt.1
  spared := hs _
  broken := hb _
  unnamed _ := hu

theorem Likeness.unnaming_plain : unnaming.Plain :=
  ⟨And.left, fun line h => ⟨h.1, congrArg (Array.push · line) h.2⟩⟩

namespace Eval

/-- Runs statements in order and yields the value of the last. A return ends its statement only. -/
def runAll (depth : Nat) : Value → List Stmt → Run Value
  | last, [] => pure last
  | _, s :: ss => fun m =>
    match run depth (.stmt s) m with
    | .ok v m' | .error (.returned v) m' => runAll depth v ss m'
    | r => r

theorem relates_runAll {c : Comparison} (hc : c.Lawful) (hp : c.Plain) {depth depth' : Nat}
    (hb : c.Bounds depth depth') (hu : c.unnames → depth < depth' ∨ c.broken .exhausted)
    {ss ss' : List Stmt} (h : List.Forall₂ c.stmt ss ss') {last last' : Value} (hlast : last.Like c last') :
    Run.Relates c (Value.Like c) (runAll depth last ss) (runAll depth' last' ss') := by
  induction h generalizing last last' with
  | nil => exact .pure hlast
  | @cons s s' ss ss' hs _ ih =>
    intro m m' hm
    have hends := relates_run hc hp hb hu (.stmt hs) m m' hm
    unfold runAll
    generalize run depth (.stmt s) m = r at hends ⊢
    generalize run depth' (.stmt s') m' = r' at hends ⊢
    cases hends with
    | ok hv hm₁ => exact ih hv _ _ hm₁
    | error he hm₁ =>
      cases he with
      | returned hv => exact ih hv _ _ hm₁
      | _ => exact .error (by constructor <;> assumption) hm₁
    | @spared e _ _ he =>
      cases e with
      | returned v => cases hc.spared he
      | _ => exact .spared _ _ he
    | @broken e _ _ he =>
      cases e with
      | returned v => cases hc.broken he
      | _ => exact .broken _ _ he

/-- A program ends, for some bound on nesting that is not reached. -/
def Finishes (program : List Stmt) (m : Machine) (r : Ending) : Prop :=
  ∃ depth, runAll depth .nil program m = r ∧ ∀ m', r ≠ .error .exhausted m'

/-- The same ending up to the functions in it. -/
abbrev Ending.Like (r r' : Ending) : Prop :=
  Outcome.Like (.unnaming (fun _ => False) fun _ => False) (Value.Like .unnaming) r r'

/-- A function was asked for the name that it lacks. -/
def Ending.LacksName (r : Ending) : Prop := ∃ m, r = .error (.defect .unnamedFunction) m

variable {program program' : List Stmt} {m m' : Machine} {r r' : Ending}

/-- A program that ends still does with anonymous functions, unless one is asked for its name. -/
theorem Finishes.unnamed (h : Finishes program m r) (hp : List.Forall₂ Stmt.Unnamed program program')
    (hm : m.Like .unnaming m') : ∃ r', Finishes program' m' r' ∧ (r.Like r' ∨ r'.LacksName) := by
  obtain ⟨depth, hr, hsettled⟩ := h
  have hlawful : (Comparison.unnaming (· = .exhausted) (· = .defect .unnamedFunction)).Lawful :=
    Comparison.unnaming_lawful (fun _ h => h ▸ trivial) (fun _ h => h ▸ trivial) rfl
  -- an anonymous function takes one more nested computation
  have hends := relates_runAll hlawful Likeness.unnaming_plain (.inr (.inl ⟨Nat.le_succ depth, rfl⟩))
    (fun _ => .inl (Nat.lt_succ_self _)) hp .nil m m' hm
  generalize hr' : runAll (depth + 1) .nil program' m' = r' at hends
  rw [hr] at hends
  cases hends with
  | ok hv hm₁ => exact ⟨_, ⟨_, hr', nofun⟩, .inl (.ok hv hm₁)⟩
  | error he hm₁ =>
    refine ⟨_, ⟨_, hr', ?_⟩, .inl (.error he hm₁)⟩
    rintro _ ⟨⟩
    cases he
    exact hsettled _ rfl
  | spared m₁ _ he =>
    cases he
    exact absurd rfl (hsettled m₁)
  | broken m₁ _ he =>
    cases he
    exact ⟨_, ⟨_, hr', nofun⟩, .inr ⟨m₁, rfl⟩⟩

/-- A program with anonymous functions that ends comes to the same end with declared ones, unless one is
asked for its name. -/
theorem Finishes.named (h : Finishes program' m' r') (hp : List.Forall₂ Stmt.Unnamed program program')
    (hm : m.Like .unnaming m') : r'.LacksName ∨ ∃ r, Finishes program m r ∧ r.Like r' := by
  obtain ⟨depth, hr', hsettled⟩ := h
  have hlawful : (Comparison.unnaming (fun _ => False)
      fun e => e = .exhausted ∨ e = .defect .unnamedFunction).Lawful :=
    Comparison.unnaming_lawful (fun _ => False.elim) (fun _ h => h.elim (· ▸ trivial) (· ▸ trivial)) (.inr rfl)
  have hends := relates_runAll hlawful Likeness.unnaming_plain (.inl (rfl : depth = depth))
    (fun _ => .inr (.inl rfl)) hp .nil m m' hm
  generalize hr : runAll depth .nil program m = r at hends
  rw [hr'] at hends
  cases hends with
  | ok hv hm₁ => exact .inr ⟨_, ⟨_, hr, nofun⟩, .ok hv hm₁⟩
  | error he hm₁ =>
    refine .inr ⟨_, ⟨_, hr, ?_⟩, .error he hm₁⟩
    rintro _ ⟨⟩
    cases he
    exact hsettled _ rfl
  | spared _ _ he => exact he.elim
  | broken m₁ _ he =>
    rcases he with rfl | rfl
    · exact absurd rfl (hsettled m₁)
    · exact .inl ⟨m₁, rfl⟩

/-- A function without a name is asked for it when it is shown, and when it is called with an instance as
its receiver. -/
theorem lacksName_iff (f : Closure) :
    (f.display = .error .unnamedFunction ↔ f.name? = none) ∧
      ∀ this frame, receiverVars f this frame = .error .unnamedFunction ↔
        f.name? = none ∧ ∃ o, this = .object o := by
  obtain ⟨id, name?, params, body, env, isInit, isGetter, isStatic⟩ := f
  constructor
  · cases name? <;> simp [Closure.display]
  · intro this frame
    cases this <;> cases name? <;> simp [receiverVars]

end Eval

namespace Session

/-- What a session makes of the ending of a program. A fault is reported. -/
def afterRun (s : Session) : Ending → EStateM.Result Exit Session Value
  | .ok v m => .ok v { s with machine := m }
  | .error (.fault token fault) m => runFaulted token fault { s with machine := m }
  | .error e m => .error e { s with machine := m }

/-- A session runs a program in this way, within its bound on nesting. -/
theorem interpret_eq (last : Value) (program : List Stmt) (s : Session) :
    interpret last program s = s.afterRun (runAll Eval.bound last program s.machine) := by
  have hmachine : ∀ (s : Session) (m : Machine) (r : Ending),
      afterRun { s with machine := m } r = s.afterRun r := by
    rintro s m (⟨v, m'⟩ | ⟨e, m'⟩)
    · rfl
    · cases e <;> rfl
  induction program generalizing last s with
  | nil => rfl
  | cons stmt program ih =>
    unfold interpret runAll runNode onMachine
    cases Eval.run Eval.bound (.stmt stmt) s.machine with
    | ok v m => exact (ih v _).trans (hmachine s m _)
    | error e m =>
      cases e with
      | returned v => exact (ih v _).trans (hmachine s m _)
      | _ => rfl

variable {program : List Stmt}

/-- A text in which variables with anonymous functions stand for declared functions, at any places, is
admitted if the first text is, with the same warnings. On machines that are alike the two programs end
alike, with the same output and the same fault, unless the second one ends because an anonymous function
is asked for its name: it is shown, or it is called and finds an instance as its receiver. -/
theorem unnamed_ends_alike {t t' : Text} (h : Admits t program) (hread : t'.complaints = [])
    (hu : List.Forall₂ Stmt.Unnamed t.statements t'.statements) :
    ∃ program', Admits t' program' ∧
      (Scope.resolve true t'.statements).reached.notices =
        (Scope.resolve true t.statements).reached.notices ∧
      (∀ f : Closure, (f.display = .error .unnamedFunction ↔ f.name? = none) ∧
        ∀ this frame, receiverVars f this frame = .error .unnamedFunction ↔
          f.name? = none ∧ ∃ o, this = .object o) ∧
      ∀ m m', m.Like .unnaming m' →
        (∀ r, Finishes program m r → ∃ r', Finishes program' m' r' ∧ (r.Like r' ∨ r'.LacksName)) ∧
        ∀ r', Finishes program' m' r' → r'.LacksName ∨ ∃ r, Finishes program m r ∧ r.Like r' := by
  obtain ⟨program', hr', hnotices, hp⟩ := Scope.resolve_unnamed hu h.resolved
  obtain ⟨hscan, hread⟩ := List.append_eq_nil_iff.1 hread
  have hclean : (Scope.resolve true t'.statements).reached.Clean := by
    intro token flaw
    rw [hnotices]
    exact h.clean token flaw
  refine ⟨program', ⟨List.map_eq_nil_iff.1 hscan, List.map_eq_nil_iff.1 hread, hr', hclean⟩, hnotices,
    lacksName_iff, ?_⟩
  exact fun m m' hm => ⟨fun r hends => hends.unnamed hp hm, fun r' hends => hends.named hp hm⟩

/-! ### A function in a block and in a method -/

def shout : List Stmt := [.print (.literal (.bool true))]

def shoutDeclared : Stmt := .funDecl ⟨.ident "f" 1, [], shout, false, false⟩

def shoutHeld : Stmt := .varDecl (.ident "f" 1) (some (.lambda [] shout))

def calling (callee : Expr) : Expr := .call callee ⟨.rightParen, ")", .nil, 1⟩ []

/-- The call of the function. -/
def shouting (address : Address) : Stmt := .expression (calling (.variable (.ident "f" 1) address))

theorem unnamed_shout :
    List.Forall₂ Stmt.Unnamed [shoutDeclared, shouting .free] [shoutHeld, shouting .free] := by
  have hprint : Stmt.Unnamed (.print (.literal (.bool true))) (.print (.literal (.bool true))) :=
    .of (.print (.of (.literal _)))
  refine .cons (.of (.unnamed trivial rfl .nil (.cons hprint .nil))) (.cons (.of (.expression ?_)) .nil)
  exact .of (.call (.of (.variable _ rfl)) rfl .nil)

theorem start_like (traced : Bool) (clock : Clock) :
    (Machine.start traced clock).Like .unnaming (.start traced clock) := by
  have hnone : ∀ {α : Type} {R : α → α → Prop}, ArrayLike R #[] #[] := ⟨rfl, fun _ => .none⟩
  exact ⟨hnone.push (.named (Table.Like.empty.insert "clock" (.native _))), hnone, rfl, rfl, rfl, rfl, rfl⟩

def inBlock : Text := ⟨"{fun f(){print true;}f();}", false⟩

def inBlockHeld : Text := ⟨"{var f=fun(){print true;};f();}", false⟩

theorem unnamed_ends_alike_block :
    ∃ program' r', Admits inBlockHeld program' ∧ Finishes program' (.start false 0) r' ∧
      ((∃ m', r' = .ok .nil m' ∧ m'.out = #[.shown "true"]) ∨ r'.LacksName) := by
  have hadmits : Admits inBlock [.block [shoutDeclared, shouting (.hops 0)]] := .of_yields (by decide +kernel)
  have hstatements : inBlock.statements = [.block [shoutDeclared, shouting .free]] ∧
      inBlockHeld.statements = [.block [shoutHeld, shouting .free]] :=
    ⟨Stmt.eq_of_sameAll (by decide +kernel), Stmt.eq_of_sameAll (by decide +kernel)⟩
  have hu : List.Forall₂ Stmt.Unnamed inBlock.statements inBlockHeld.statements := by
    rw [hstatements.1, hstatements.2]
    exact .cons (.of (.block unnamed_shout)) .nil
  obtain ⟨m, hends, hout⟩ : ∃ m, Finishes [.block [shoutDeclared, shouting (.hops 0)]] (.start false 0)
      (.ok .nil m) ∧ m.out = #[.shown "true"] := ⟨_, ⟨10, rfl, nofun⟩, rfl⟩
  obtain ⟨program', hadmits', -, -, hruns⟩ := unnamed_ends_alike hadmits (by decide +kernel) hu
  obtain ⟨r', hends', hlike⟩ := (hruns _ _ (start_like false 0)).1 _ hends
  refine ⟨program', r', hadmits', hends', hlike.imp_left ?_⟩
  intro hlike
  cases hlike with
  | ok hv hm =>
    cases hv
    exact ⟨_, rfl, hm.aside.2.trans hout⟩
  | broken _ _ he => exact he.elim

def inMethod : Text := ⟨"class C{m(){fun f(){print true;}f();}}C().m();", false⟩

def inMethodHeld : Text := ⟨"class C{m(){var f=fun(){print true;};f();}}C().m();", false⟩

/-- A class with a method that holds the function and calls it, and a call of the method. -/
def methodProgram (shout : Stmt) : List Stmt :=
  [.classDecl (.ident "C" 1) none [⟨.ident "m" 1, [], [shout, shouting .free], false, false⟩],
    .expression (calling (.get (calling (.variable (.ident "C" 1) .free)) (.ident "m" 1)))]

/-- In a method the declared function can be called and the anonymous one cannot: it finds the receiver of
the method in the frame that it was made in, and has no name to go on with. -/
theorem unnamed_ends_differently :
    List.Forall₂ Stmt.Unnamed inMethod.statements inMethodHeld.statements ∧
      ((new true 0).left (run inMethod.source false)).machine.out = #[.shown "true"] ∧
      ((new true 0).left (run inMethod.source false)).reports = #[] ∧
      ((new true 0).left (run inMethodHeld.source false)).reports = #[.failure "AttributeError"] := by
  refine ⟨?_, by decide +kernel⟩
  have hdeclared : inMethod.statements = methodProgram shoutDeclared := Stmt.eq_of_sameAll (by decide +kernel)
  have hheld : inMethodHeld.statements = methodProgram shoutHeld := Stmt.eq_of_sameAll (by decide +kernel)
  have hcall : ∀ {e : Expr}, e.Unnamed e → (calling e).Unnamed (calling e) :=
    fun he => .of (.call he rfl .nil)
  rw [hdeclared, hheld]
  refine .cons (.of (.classDecl rfl .none (.cons (.mk _ _ rfl .nil unnamed_shout) .nil))) (.cons ?_ .nil)
  exact .of (.expression (hcall (.of (.get (hcall (.of (.variable _ rfl))) rfl))))

end Session

end Lox
