import Lox.Proofs.Frame
import Lox.Proofs.Machine.Visit
import Lox.Proofs.Outcome

/-!
# Calls in pieces

Statements, arguments and the methods of a chain are run in a row. Proofs about them go by segments: what
was run before grows by one at its end.
-/

namespace Lox

open Eval Outcome

variable {m m₁ m₂ : Machine} {args : List Value} {rec : Recur} {v : Value}

theorem Run.within_eq_error {α : Type} {env : Env} {x : Run α} {m' : Machine} {e : Exit} :
    Run.within env x m = .error e m' ↔
      ∃ m₁, x { m with env := env } = .error e m₁ ∧ m' = { m₁ with env := m.env } := by
  unfold Run.within
  cases x { m with env := env } with
  | ok a m₁ => simp
  | error e' m₁ => simp [eq_comm]

/-- The variables of a call hold the parameters, and values with the property of the arguments. -/
theorem bindParams_eq_ok {vars vars' : Table Value} {params : List Token} {p : Value → Prop}
    (h : bindParams vars params args = .ok vars') (hv : vars.All p)
    (ha : ∀ a ∈ args, p a) :
    vars'.All p ∧ vars.domain ⊆ vars'.domain ∧ paramScope params ⊆ vars'.domain := by
  induction params generalizing vars args with
  | nil =>
    cases h
    exact ⟨hv, fun _ hx => hx, by simp [paramScope]⟩
  | cons param params ih =>
    cases args with
    | nil => cases h
    | cons a args =>
      obtain ⟨hall, hold, hnew⟩ := ih h (hv.insert param.lexeme (ha a (by simp)))
        fun b hb => ha b (by simp [hb])
      rw [Table.domain_insert] at hold
      refine ⟨hall, fun x hx => hold (Or.inr hx), ?_⟩
      intro x hx
      simp only [paramScope, List.map_cons, List.mem_cons, Set.mem_ofPred_eq] at hx
      rcases hx with rfl | hx
      · exact hold (Or.inl rfl)
      · exact hnew hx

/-- The variables with which a body starts are the receiver, `inner` and the arguments. Those of a
function that takes arguments hold its parameters. -/
theorem callVars_eq_ok {f : Closure} {this : Value} {frame : FrameId} {vars : Table Value}
    {p : Value → Prop} (h : callVars f this frame args = .ok vars) (ht : p this)
    (hi : ∀ frame, p (.native (.inner frame))) (ha : ∀ a ∈ args, p a) :
    vars.All p ∧ ((f.isGetter = true → f.params = []) → paramScope f.params ⊆ vars.domain) := by
  have hthis : (Table.empty.insert "this" this).All p := (Table.All.empty _).insert "this" ht
  unfold callVars at h
  cases hr : receiverVars f this frame with
  | error d =>
    rw [hr] at h
    cases h
  | ok start =>
    have hstart : start.All p := by
      unfold receiverVars at hr
      dsimp only at hr
      split at hr
      · split at hr
        · cases hr
          exact hthis.insert "inner" (hi _)
        · cases hr
      · cases hr
        exact hthis
    rw [hr] at h
    change (if f.isGetter = true then _ else _) = _ at h
    split at h
    · next hget =>
      cases h
      refine ⟨hstart, fun hparams => ?_⟩
      rw [hparams hget]
      simp [paramScope]
    · obtain ⟨hall, -, hparams⟩ := bindParams_eq_ok h hstart ha
      exact ⟨hall, fun _ => hparams⟩

theorem execAll_snoc {before : List Stmt} {s : Stmt} {u : Unit} (h : execAll rec before m = .ok u m₁)
    (hs : rec (.stmt s) m₁ = .ok v m₂) :
    execAll rec (before ++ [s]) m = .ok () m₂ := by
  induction before generalizing m with
  | nil =>
    obtain ⟨-, rfl⟩ := pure_eq_ok.1 h
    exact bind_eq_ok.2 ⟨v, m₂, hs, rfl⟩
  | cons t before ih =>
    obtain ⟨v', m', ht, h⟩ := bind_eq_ok.1 h
    exact bind_eq_ok.2 ⟨v', m', ht, ih h⟩

theorem evalAll_snoc {before : List Expr} {e : Expr} {vs : List Value}
    (h : evalAll rec before m = .ok vs m₁)
    (he : rec (.expr e) m₁ = .ok v m₂) :
    evalAll rec (before ++ [e]) m = .ok (vs ++ [v]) m₂ := by
  induction before generalizing m vs with
  | nil =>
    obtain ⟨rfl, rfl⟩ := pure_eq_ok.1 h
    exact bind_eq_ok.2 ⟨v, m₂, he, bind_eq_ok.2 ⟨[], m₂, rfl, rfl⟩⟩
  | cons d before ih =>
    obtain ⟨u, m', hd, h⟩ := bind_eq_ok.1 h
    obtain ⟨us, m'', hus, h⟩ := bind_eq_ok.1 h
    obtain ⟨rfl, rfl⟩ := pure_eq_ok.1 h
    exact bind_eq_ok.2 ⟨u, m', hd, bind_eq_ok.2 ⟨us ++ [v], m₂, ih hus, rfl⟩⟩

theorem applyChain_snoc {o : Object} {before : List Closure} {f : Closure} {r v' : Value}
    (h : applyChain rec o args before r m = .ok v m₁)
    (hf : Run.catchReturn (bindReceiver f (.object o) >>= fun bound => apply rec bound args) m₁ =
      .ok v' m₂) : applyChain rec o args (before ++ [f]) r m = .ok v' m₂ := by
  induction before generalizing m r with
  | nil =>
    obtain ⟨-, rfl⟩ := pure_eq_ok.1 h
    exact bind_eq_ok.2 ⟨v', m₂, hf, rfl⟩
  | cons g before ih =>
    obtain ⟨r', m', hg, h⟩ := bind_eq_ok.1 h
    exact bind_eq_ok.2 ⟨r', m', hg, ih h⟩

/-! ### Declarations -/

namespace Eval

variable {m m' : Machine}

/-- Declaring a variable gives it a value in the innermost frame. -/
theorem define_eq_ok {token : Token} {x : String} {v : Value} {u : Unit}
    (h : Run.define token x v m = .ok u m') :
    ∃ frame outer, m.env = frame :: outer ∧
      m' = { m with frames := m.frames.write frame x v } ∧ m'.frames.held? frame x = some v := by
  unfold Run.define at h
  rw [bind_of_ok (get_eq_ok.2 ⟨rfl, rfl⟩)] at h
  cases hd : m.frames.declaring m.env with
  | error d =>
    rw [hd] at h
    cases d <;> cases h
  | ok frame =>
    rw [hd] at h
    cases h
    obtain ⟨henv, vars, hid⟩ := Frames.namedAt_eq_ok.1 hd
    obtain ⟨outer, houter⟩ : ∃ outer, m.env = frame :: outer := by
      cases he : m.env with
      | nil => simp [he] at henv
      | cons id outer =>
        rw [he] at henv
        cases henv
        exact ⟨outer, rfl⟩
    exact ⟨frame, outer, houter, rfl, by rw [Frames.held?_write hid, if_pos ⟨rfl, rfl⟩]⟩

theorem define_eq {token : Token} {frame : FrameId} {outer : Env} {vars : Table Value}
    (henv : m.env = frame :: outer) (hid : m.frames[frame]? = some (.named vars)) (x : String) (v : Value) :
    Run.define token x v m = .ok () { m with frames := m.frames.write frame x v } := by
  have hd : m.frames.declaring m.env = .ok frame :=
    Frames.namedAt_eq_ok.2 ⟨by rw [henv]; rfl, vars, hid⟩
  unfold Run.define
  rw [bind_of_ok (get_eq_ok.2 ⟨rfl, rfl⟩), hd]
  rfl

/-- Statements in a row end early where one of them does. -/
theorem execAll_eq_error {rec : Recur} {ss : List Stmt} {e : Exit} :
    execAll rec ss m = .error e m' ↔
      ∃ before s after m₁, ss = before ++ s :: after ∧ execAll rec before m = .ok () m₁ ∧
        rec (.stmt s) m₁ = .error e m' := by
  constructor
  · intro h
    induction ss generalizing m with
    | nil => cases h
    | cons s ss ih =>
      rcases bind_eq_error.1 h with h | ⟨v, m₁, hs, h⟩
      · exact ⟨[], s, ss, m, rfl, rfl, h⟩
      · obtain ⟨before, t, after, m₂, rfl, hb, ht⟩ := ih h
        exact ⟨s :: before, t, after, m₂, rfl, bind_eq_ok.2 ⟨v, m₁, hs, hb⟩, ht⟩
  · rintro ⟨before, s, after, m₁, rfl, hb, hs⟩
    induction before generalizing m with
    | nil =>
      cases hb
      exact bind_of_error hs
    | cons t before ih =>
      obtain ⟨v, m₂, ht, hb⟩ := bind_eq_ok.1 hb
      exact (bind_of_ok ht).trans (ih hb)

/-- A body ends early where its statements do. -/
theorem execIn_eq_error {rec : Recur} {env : Env} {vars : Table Value} {body : List Stmt}
    {e : Exit} :
    execIn rec env vars body m = .error e m' ↔
      ∃ m₁, execAll rec body (m.enter env vars) = .error e m₁ ∧ m' = { m₁ with env := m.env } :=
  Run.within_eq_error

end Eval

theorem parentClass_isSome {superclass? : Option (Token × Address)} {parent? : Option Class}
    {m' : Machine} (h : parentClass superclass? m = .ok parent? m') :
    parent?.isSome = superclass?.isSome := by
  cases superclass? with
  | none =>
    cases h
    rfl
  | some superclass =>
    unfold parentClass at h
    obtain ⟨v, m₁, -, h⟩ := bind_eq_ok.1 h
    cases v with
    | type c =>
      cases h
      rfl
    | _ => cases h

end Lox
