import Mathlib.Data.List.Forall2
import Lox.Proofs.Tree.Completeness

/-!
# What is read without complaint

## Design notes

The statements follow the rules one by one, as a calculus for readers: `Gives.bind` for rules in a
row, `Gives.accept` and `Gives.expect` for single tokens. That the bound on nesting is never reached
is part of `Gives`, since every nested rule runs on fewer tokens.
-/

namespace Lox

namespace Tree

open Outcome Reader Grammar
open Token (mark)

variable {α β : Type}

variable {ts rest : List Token} {steps l : Nat}

/-! ### A calculus for readers -/

/-- A reader does not reach the bound on nesting, takes back no complaint and hands out no more
tokens than it got. If it succeeds, it consumes at least `used` tokens; if it adds no complaint either, its
result and the tokens that are left have a property. -/
def Gives (x : Reader α) (ts : List Token) (used : Nat) (post : α → List Token → Prop) : Prop :=
  ∀ cs, match x ⟨ts, cs⟩ with
    | .ok a c => ∃ new, c.complaints = cs ++ new ∧ c.rest.length + used ≤ ts.length ∧
        (new = [] → post a c.rest)
    | .error (.refused _) c => ∃ new, c.complaints = cs ++ new ∧ c.rest.length ≤ ts.length
    | .error .tooDeep _ => False

namespace Gives

variable {x : Reader α} {f : α → Reader β} {ts : List Token} {used used' : Nat}
  {post post' : α → List Token → Prop} {post₂ : β → List Token → Prop}

variable {cs : List Complaint} {c : Cursor}

theorem ok {a : α} (h : Gives x ts used post) (hx : x ⟨ts, cs⟩ = .ok a c) :
    ∃ new, c.complaints = cs ++ new ∧ c.rest.length + used ≤ ts.length ∧
      (new = [] → post a c.rest) := by
  have := h cs
  rwa [hx] at this

theorem refused {complaint : Complaint} (h : Gives x ts used post)
    (hx : x ⟨ts, cs⟩ = .error (.refused complaint) c) :
    ∃ new, c.complaints = cs ++ new ∧ c.rest.length ≤ ts.length := by
  have := h cs
  rwa [hx] at this

theorem tooDeep (h : Gives x ts used post) (hx : x ⟨ts, cs⟩ = .error .tooDeep c) : False := by
  have := h cs
  rwa [hx] at this

theorem consequence (h : Gives x ts used post) (hu : used' ≤ used)
    (hp : ∀ a rest, post a rest → post' a rest) : Gives x ts used' post' := by
  intro cs
  cases hx : x ⟨ts, cs⟩ with
  | ok a c =>
    obtain ⟨new, hnew, hlen, hpost⟩ := h.ok hx
    exact ⟨new, hnew, by omega, fun hn => hp a c.rest (hpost hn)⟩
  | error stop c =>
    cases stop with
    | refused complaint => exact h.refused hx
    | tooDeep => exact h.tooDeep hx

theorem mono (h : Gives x ts used post) (hp : ∀ a rest, post a rest → post' a rest) :
    Gives x ts used post' := h.consequence (Nat.le_refl used) hp

theorem pure {a : α} (h : post a ts) : Gives (Pure.pure a) ts 0 post :=
  fun cs => ⟨[], (List.append_nil cs).symm, Nat.le_refl _, fun _ => h⟩

theorem refuse (flaw : Flaw) : Gives (Reader.refuse flaw : Reader α) ts used post :=
  fun cs => ⟨[], (List.append_nil cs).symm, Nat.le_refl _⟩

theorem bind {total : Nat} (hx : Gives x ts used post)
    (hf : ∀ a mid, mid.length + used ≤ ts.length →
      Gives (f a) mid (total - used) fun b rest => post a mid → post₂ b rest) :
    Gives (x >>= f) ts total post₂ := by
  intro cs
  cases hrun : x ⟨ts, cs⟩ with
  | error stop c =>
    rw [bind_of_error hrun]
    cases stop with
    | refused complaint => exact hx.refused hrun
    | tooDeep => exact hx.tooDeep hrun
  | ok a c =>
    obtain ⟨new, hnew, hlen, hpost⟩ := hx.ok hrun
    have hrest := hf a c.rest hlen
    rw [bind_of_ok hrun]
    cases hrun' : f a c with
    | error stop c' =>
      cases stop with
      | refused complaint =>
        obtain ⟨new', hnew', hlen'⟩ := hrest.refused hrun'
        exact ⟨new ++ new', by rw [hnew', hnew, List.append_assoc], by omega⟩
      | tooDeep => exact hrest.tooDeep hrun'
    | ok b c' =>
      obtain ⟨new', hnew', hlen', hpost'⟩ := hrest.ok hrun'
      refine ⟨new ++ new', by rw [hnew', hnew, List.append_assoc], by omega, fun hn => ?_⟩
      obtain ⟨rfl, rfl⟩ := List.append_eq_nil_iff.1 hn
      exact hpost' rfl (hpost rfl)

theorem map {g : α → β} (hx : Gives x ts used fun a rest => post₂ (g a) rest) :
    Gives (g <$> x) ts used post₂ := by
  intro cs
  change match EStateM.map g x ⟨ts, cs⟩ with
    | .ok b c => ∃ new, c.complaints = cs ++ new ∧ c.rest.length + used ≤ ts.length ∧
        (new = [] → post₂ b c.rest)
    | .error (.refused _) c => ∃ new, c.complaints = cs ++ new ∧ c.rest.length ≤ ts.length
    | .error .tooDeep _ => False
  unfold EStateM.map
  cases hrun : x ⟨ts, cs⟩ with
  | ok a c => exact hx.ok hrun
  | error stop c =>
    cases stop with
    | refused complaint => exact hx.refused hrun
    | tooDeep => exact hx.tooDeep hrun

/-- A reader that takes some tokens and goes on as another one. -/
theorem of_becomes {y : Reader α} {mid : List Token} (taken : Nat) (hb : Becomes x ts y mid)
    (ht : mid.length + taken ≤ ts.length) (hy : Gives y mid (used - taken) post) :
    Gives x ts used post := by
  intro cs
  rw [hb cs]
  cases hrun : y ⟨mid, cs⟩ with
  | ok a c =>
    obtain ⟨new, hnew, hlen, hpost⟩ := hy.ok hrun
    exact ⟨new, hnew, by omega, hpost⟩
  | error stop c =>
    cases stop with
    | refused complaint =>
      obtain ⟨new, hnew, hlen⟩ := hy.refused hrun
      exact ⟨new, hnew, by omega⟩
    | tooDeep => exact hy.tooDeep hrun

theorem of_complains {y : Reader α} (hb : ∀ cs, ∃ complaint, x ⟨ts, cs⟩ = y ⟨ts, cs ++ [complaint]⟩)
    (hy : Gives y ts used post) : Gives x ts used post' := by
  intro cs
  obtain ⟨complaint, hx⟩ := hb cs
  rw [hx]
  cases hrun : y ⟨ts, cs ++ [complaint]⟩ with
  | ok a c =>
    obtain ⟨new, hnew, hlen, -⟩ := hy.ok hrun
    exact ⟨complaint :: new, by rw [hnew, List.append_assoc]; rfl, hlen, nofun⟩
  | error stop c =>
    cases stop with
    | refused complaint' =>
      obtain ⟨new, hnew, hlen⟩ := hy.refused hrun
      exact ⟨complaint :: new, by rw [hnew, List.append_assoc]; rfl, hlen⟩
    | tooDeep => exact hy.tooDeep hrun

section Tokens

variable {kinds : List Token.Kind} {kind : Token.Kind} {flaw : Flaw}

theorem taken_or_lacks (kinds : List Token.Kind) (ts : List Token) :
    (∃ t mid, ts = t :: mid ∧ t.kind ∈ kinds) ∨ Lacks kinds ts := by
  cases ts with
  | nil => exact .inr .nil
  | cons t mid =>
    by_cases hk : t.kind ∈ kinds
    · exact .inl ⟨t, mid, rfl, hk⟩
    · exact .inr (.cons hk)

theorem accept {f : Option Token → Reader β}
    (hsome : ∀ t mid, ts = t :: mid → t.kind ∈ kinds → Gives (f (some t)) mid (used - 1) post₂)
    (hnone : Lacks kinds ts → Gives (f none) ts used post₂) :
    Gives (accept? kinds >>= f) ts used post₂ := by
  obtain ⟨t, mid, rfl, hk⟩ | hl := taken_or_lacks kinds ts
  · exact .of_becomes 1 (Reads.accept hk).becomes (Nat.le_refl _) (hsome t mid rfl hk)
  · exact .of_becomes 0 (Reads.pass hl).becomes (Nat.le_refl _) (hnone hl)

theorem expect {f : Token → Reader β}
    (h : ∀ t mid, ts = t :: mid → t.kind = kind → Gives (f t) mid (used - 1) post₂) :
    Gives (Reader.expect kind flaw >>= f) ts used post₂ := by
  obtain ⟨t, mid, rfl, hk⟩ | hl := taken_or_lacks [kind] ts
  · have ht := List.mem_singleton.1 hk
    exact .of_becomes 1 (Reads.expect ht).becomes (Nat.le_refl _) (h t mid rfl ht)
  · intro cs
    have hrun : Reader.expect kind flaw ⟨ts, cs⟩ = .error (.refused ⟨ts.head?, flaw⟩) ⟨ts, cs⟩ :=
      bind_of_ok (Reads.pass hl cs)
    rw [bind_of_error hrun]
    exact ⟨[], (List.append_nil cs).symm, Nat.le_refl _⟩

theorem next {f : Bool → Reader β} (h : ∀ b, Gives (f b) ts used post₂) :
    Gives (isNext kind >>= f) ts used post₂ := by
  have hb : Reads (isNext kind) ts (decide (ts.head?.map (·.kind) = some kind)) ts := fun _ => rfl
  exact .of_becomes 0 hb.becomes (Nat.le_refl _) (h _)

theorem atEnd {f : Bool → Reader β} (h : Gives (f ts.isEmpty) ts used post₂) :
    Gives (Reader.atEnd >>= f) ts used post₂ :=
  .of_becomes 0 Reads.atEnd.becomes (Nat.le_refl _) h

/-- A list that is too long leaves a complaint. -/
theorem limit {count : Nat} {f : Unit → Reader β}
    (h : Gives (f ()) ts used fun b rest => count < 255 → post₂ b rest) :
    Gives (Reader.limit count >>= f) ts used post₂ := by
  by_cases hc : 255 ≤ count
  · refine .of_complains (fun cs => ⟨⟨ts.head?, .tooManyParameters⟩, ?_⟩) h
    refine bind_of_ok ?_
    unfold Reader.limit
    rw [if_pos hc]
    rfl
  · have hb : Reads (Reader.limit count) ts () ts := .limit (by omega)
    exact .of_becomes 0 hb.becomes (Nat.le_refl _) (h.mono fun _ _ hp => hp (by omega))

end Tokens

end Gives

/-! ### Writing the tokens that were consumed -/

/-- The tokens `us` of a tree write those of `ts` that stand before `rest`, one by one. -/
inductive Writes : List Token → List Token → List Token → Prop
  | nil (ts : List Token) : Writes [] ts ts
  | cons {u t : Token} {us ts rest : List Token} (head : Token.Alike u t)
      (tail : Writes us ts rest) : Writes (u :: us) (t :: ts) rest

/-- No token starts a counting loop. -/
def NoFor (ts : List Token) : Prop := ∀ t ∈ ts, t.kind ≠ .kwFor

theorem NoFor.tail {t : Token} (h : NoFor (t :: ts)) : NoFor ts :=
  fun u hu => h u (List.mem_cons_of_mem t hu)

namespace Writes

variable {us vs ts mid rest : List Token} {t : Token} {kind : Token.Kind}

theorem kept (t : Token) (h : Writes us ts rest) : Writes (t :: us) (t :: ts) rest :=
  .cons (.refl t) h

theorem mark (ht : t.kind = kind) (hk : kind.isNameOrValue = false) (h : Writes us ts rest) :
    Writes (Token.mark kind :: us) (t :: ts) rest :=
  .cons (.mark ht hk) h

theorem append (h : Writes us ts mid) (h' : Writes vs mid rest) : Writes (us ++ vs) ts rest := by
  induction h with
  | nil => exact h'
  | cons head _ ih => exact .cons head (ih h')

theorem noFor (h : Writes us ts rest) (hf : NoFor ts) : NoFor rest := by
  induction h with
  | nil => exact hf
  | cons _ _ ih => exact ih hf.tail

theorem forall₂ (h : Writes us ts []) : List.Forall₂ Token.Alike us ts := by
  generalize hr : ([] : List Token) = rest at h
  induction h with
  | nil =>
    subst hr
    exact .nil
  | cons head _ ih => exact .cons head (ih hr)

end Writes

/-! ### Lists -/

theorem gives_params {count : Nat} (hs : ts.length < steps) :
    Gives (params steps count) ts 0 fun ps rest =>
      count + ps.length ≤ 255 ∧ (∀ p ∈ ps, p.kind = .identifier) ∧ ps ≠ [] ∧
        Writes (Token.listed ps) ts rest := by
  induction steps generalizing count ts with
  | zero => exact absurd hs (Nat.not_lt_zero _)
  | succ steps ih =>
    refine .limit (.expect fun p mid hts hp => ?_)
    subst hts
    rw [List.length_cons] at hs
    refine .accept (fun c mid' hmid hc => ?_) (fun _ => ?_)
    · subst hmid
      rw [List.length_cons] at hs
      have hmid : mid'.length < steps := by omega
      refine (ih hmid).bind fun ps rest _ => .pure ?_
      rintro ⟨hlen, hk, hne, hw⟩ _
      refine ⟨by rw [List.length_cons]; omega, ?_, List.cons_ne_nil _ _, ?_⟩
      · exact List.forall_mem_cons.2 ⟨hp, hk⟩
      · obtain ⟨q, qs, rfl⟩ := List.exists_cons_of_ne_nil hne
        exact .kept p (.mark (List.mem_singleton.1 hc) rfl hw)
    · refine .pure fun hc => ⟨hc, ?_, List.cons_ne_nil _ _, .kept p (.nil mid)⟩
      exact List.forall_mem_singleton.2 hp

theorem gives_paramList {bound : Nat} (hb : ts.length < bound) :
    Gives (paramList bound) ts 0 fun ps rest =>
      Token.areParams ps = true ∧ Writes (Token.listed ps) ts rest := by
  refine .next fun closed => ?_
  cases closed with
  | true => exact .pure ⟨rfl, .nil ts⟩
  | false =>
    refine (gives_params hb).mono fun ps rest h => ⟨?_, h.2.2.2⟩
    simp only [Token.areParams, Bool.and_eq_true, decide_eq_true_eq, List.all_eq_true]
    exact ⟨by omega, h.2.1⟩

/-! ### What the rules promise -/

/-- Nothing is missing in an expression. Without counting loops it is well formed, holds together at
least so tightly, and is written by the tokens before `rest`. -/
structure ExprRead (level : Nat) (ts : List Token) (e : Expr) (rest : List Token) : Prop where
  present : e.all Node.isPresent = true
  formed : NoFor ts → FormedExpr e ∧ level ≤ e.precedence ∧ Writes e.flatten ts rest

/-- Nothing is missing in some arguments, and there are not too many. Without counting loops they
are well formed and written by the tokens before `rest`. -/
structure ArgsRead (ts : List Token) (es : List Expr) (rest : List Token) : Prop where
  present : Expr.allOf Node.isPresent es = true
  length : es.length ≤ 255
  formed : NoFor ts → Expr.allOf Node.isFormed es = true ∧ Writes (Expr.flattenAll es) ts rest

/-- Nothing is missing in some statements. Without counting loops they are well formed and written
by the tokens before `rest`. -/
structure BodyRead (ts : List Token) (ss : List Stmt) (rest : List Token) : Prop where
  present : Stmt.allOf Node.isPresent ss = true
  formed : NoFor ts → Stmt.Formed ss ∧ Writes (Stmt.flattenAll ss) ts rest

/-- Nothing is missing in a statement. Without counting loops it is well formed, stands in a list of
statements, and is written by the tokens before `rest`. -/
structure DeclRead (ts : List Token) (s : Stmt) (rest : List Token) : Prop where
  present : s.all Node.isPresent = true
  formed : NoFor ts → FormedStmt s ∧ s.startsWithFun = false ∧ Writes s.flatten ts rest

/-- Nothing is missing in a statement. Without counting loops it is well formed and no declaration,
the next token does not belong to it, and it is written by the tokens before `rest`. -/
structure StmtRead (ts : List Token) (s : Stmt) (rest : List Token) : Prop where
  present : s.all Node.isPresent = true
  formed : NoFor ts →
    FormedStmt s ∧ s.isDeclaration = false ∧ Closes s rest ∧ Writes s.flatten ts rest

/-- Nothing is missing in a named function. Without counting loops it is well formed, and its tokens
from the name on are written by those before `rest`. -/
structure FunctionRead (isStatic : Bool) (ts : List Token) (f : Function) (rest : List Token) :
    Prop where
  isStatic : f.isStatic = isStatic
  present : f.all Node.isPresent = true
  formed : NoFor ts → f.isFormed = true ∧ f.all Node.isFormed = true ∧ Writes f.flatten ts rest

theorem ExprRead.mono {level level' : Nat} {e : Expr} (h : ExprRead level ts e rest)
    (hl : level' ≤ level) : ExprRead level' ts e rest where
  present := h.present
  formed hf := by
    obtain ⟨hformed, hp, hw⟩ := h.formed hf
    exact ⟨hformed, Nat.le_trans hl hp, hw⟩

theorem DeclRead.cons {mid : List Token} {s : Stmt} {ss : List Stmt} (hs : DeclRead ts s mid)
    (hss : BodyRead mid ss rest) : BodyRead ts (s :: ss) rest := by
  refine ⟨Bool.and_eq_true_iff.2 ⟨hs.present, hss.present⟩, fun hf => ?_⟩
  obtain ⟨hfs, hfun, hws⟩ := hs.formed hf
  obtain ⟨⟨hlisted, hfss⟩, hwss⟩ := hss.formed (hws.noFor hf)
  refine ⟨⟨?_, Bool.and_eq_true_iff.2 ⟨hfs, hfss⟩⟩, hws.append hwss⟩
  simp only [Stmt.areListed, List.all_cons, hfun, Bool.not_false, Bool.true_and]
  exact hlisted

/-- The rules of a grammar give well-formed trees, if there are fewer tokens than a bound. -/
structure Sound (g : Grammar) (n : Nat) : Prop where
  expression : ∀ ts, ts.length < n → Gives g.expression ts 0 (ExprRead 0 ts)
  unary : ∀ ts, ts.length < n → Gives g.unary ts 0 (ExprRead 7 ts)
  statement : ∀ ts, ts.length < n → Gives g.statement ts 1 (StmtRead ts)
  declaration : ∀ ts, ts.length < n → ts ≠ [] → Gives g.declaration ts 1 (DeclRead ts)

/-! ### The levels of precedence -/

theorem level_of_mem_operators {kind : Token.Kind} (h : kind ∈ operators l) :
    (joined l = .logical ∧ kind.logicalLevel? = some l) ∨
      (joined l = .binary ∧ kind.binaryLevel? = some l) := by
  unfold operators at h
  split at h <;> simp only [List.mem_cons, List.not_mem_nil, or_false] at h
  · subst h
    exact .inl ⟨rfl, rfl⟩
  · subst h
    exact .inl ⟨rfl, rfl⟩
  · rcases h with rfl | rfl <;> exact .inr ⟨rfl, rfl⟩
  · rcases h with rfl | rfl | rfl | rfl <;> exact .inr ⟨rfl, rfl⟩
  · rcases h with rfl | rfl <;> exact .inr ⟨rfl, rfl⟩
  · rcases h with rfl | rfl <;> exact .inr ⟨rfl, rfl⟩

theorem ExprRead.joined {op : Token} {left right : Expr} {start : List Token}
    (hop : op.kind ∈ operators l) (hleft : ExprRead l start left (op :: ts))
    (hright : ExprRead (l + 1) ts right rest) :
    ExprRead l start (Tree.joined l left op right) rest := by
  refine ⟨?_, fun hf => ?_⟩
  · rcases level_of_mem_operators hop with ⟨hj, -⟩ | ⟨hj, -⟩ <;>
      simp [hj, Expr.all, Node.isPresent, hleft.present, hright.present]
  · obtain ⟨hfl, hpl, hwl⟩ := hleft.formed hf
    obtain ⟨hfr, hpr, hwr⟩ := hright.formed (hwl.noFor hf).tail
    have hw : Writes (Tree.joined l left op right).flatten start rest := by
      rw [flatten_joined]
      exact hwl.append (.kept op hwr)
    have hjoins : Expr.joins (some l) left right = true := by
      simp only [Expr.joins, Bool.and_eq_true, decide_eq_true_eq]
      exact ⟨hpl, hpr⟩
    rcases level_of_mem_operators hop with ⟨hj, hlevel⟩ | ⟨hj, hlevel⟩
    · rw [hj] at hw ⊢
      refine ⟨?_, by simp [Expr.precedence, hlevel], hw⟩
      simp only [FormedExpr, Expr.all, Node.isFormed, Bool.and_eq_true, hlevel]
      exact ⟨hjoins, hfl, hfr⟩
    · rw [hj] at hw ⊢
      refine ⟨?_, by simp [Expr.precedence, hlevel], hw⟩
      simp only [FormedExpr, Expr.all, Node.isFormed, Bool.and_eq_true, hlevel]
      exact ⟨hjoins, hfl, hfr⟩

theorem gives_joinLeft {x : Reader Expr} {n : Nat}
    (hx : ∀ ts, ts.length ≤ n → Gives x ts 0 (ExprRead (l + 1) ts)) (left : Expr)
    (hl : ts.length ≤ n) (hs : ts.length < steps) :
    Gives (joinLeft (operators l) (joined l) x steps left) ts 0 fun e rest =>
      ∀ start, ExprRead l start left ts → ExprRead l start e rest := by
  induction steps generalizing left ts with
  | zero => exact absurd hs (Nat.not_lt_zero _)
  | succ steps ih =>
    refine .accept (fun op mid heq hop => ?_) (fun _ => .pure fun _ h => h)
    subst heq
    rw [List.length_cons] at hl hs
    refine (hx mid (by omega)).bind fun right mid' hmid => ?_
    have hmore := ih (joined l left op right) (show mid'.length ≤ n by omega) (by omega)
    exact hmore.mono fun e rest h hright start hleft => h start (hleft.joined hop hright)

section Rules

variable {g : Grammar} {n bound : Nat} {ts : List Token} (hg : Sound g n)

variable {steps : Nat} {t : Token}

include hg

theorem gives_arguments {count : Nat} (hl : ts.length < n) (hs : ts.length < steps) :
    Gives (arguments g.expression steps count) ts 0 fun es rest =>
      Expr.allOf Node.isPresent es = true ∧ count + es.length ≤ 255 ∧ es ≠ [] ∧
        (NoFor ts → Expr.allOf Node.isFormed es = true ∧ Writes (Expr.flattenAll es) ts rest) := by
  induction steps generalizing count ts with
  | zero => exact absurd hs (Nat.not_lt_zero _)
  | succ steps ih =>
    refine .limit ((hg.expression ts hl).bind fun e mid hmid => ?_)
    refine .accept (fun c mid' heq hc => ?_) (fun _ => .pure ?_)
    · subst heq
      rw [List.length_cons] at hmid
      have hl' : mid'.length < n := by omega
      refine (ih hl' (by omega)).bind fun es rest _ => .pure ?_
      rintro ⟨hpres, hlen, hne, hformed⟩ he _
      refine ⟨Bool.and_eq_true_iff.2 ⟨he.present, hpres⟩, by rw [List.length_cons]; omega,
        List.cons_ne_nil _ _, fun hf => ?_⟩
      obtain ⟨hfe, -, hwe⟩ := he.formed hf
      obtain ⟨hfes, hwes⟩ := hformed (hwe.noFor hf).tail
      refine ⟨Bool.and_eq_true_iff.2 ⟨hfe, hfes⟩, hwe.append ?_⟩
      obtain ⟨e', es', rfl⟩ := List.exists_cons_of_ne_nil hne
      exact .mark (List.mem_singleton.1 hc) rfl hwes
    · intro he hcount
      refine ⟨Bool.and_eq_true_iff.2 ⟨he.present, rfl⟩, hcount, List.cons_ne_nil _ _, fun hf => ?_⟩
      obtain ⟨hfe, -, hwe⟩ := he.formed hf
      exact ⟨Bool.and_eq_true_iff.2 ⟨hfe, rfl⟩, hwe.append (.nil mid)⟩

theorem gives_declarations (hl : ts.length < n) (hs : ts.length < steps) :
    Gives (declarations g.declaration steps) ts 0 (BodyRead ts) := by
  induction steps generalizing ts with
  | zero => exact absurd hs (Nat.not_lt_zero _)
  | succ steps ih =>
    refine .next fun closed => .atEnd ?_
    by_cases hend : (closed || ts.isEmpty) = true
    · rw [if_pos hend]
      exact .pure ⟨rfl, fun _ => ⟨⟨rfl, rfl⟩, .nil ts⟩⟩
    · rw [if_neg hend]
      have hne : ts ≠ [] := by
        rintro rfl
        simp at hend
      refine (hg.declaration ts hl hne).bind fun s mid hmid => ?_
      have hl' : mid.length < n := by omega
      exact (ih hl' (by omega)).bind fun ss rest _ => .pure fun hss hd => hd.cons hss

theorem gives_block (hl : ts.length < n) (hn : n ≤ bound) :
    Gives (g.block bound) ts 0 fun ss rest => Stmt.allOf Node.isPresent ss = true ∧
      (NoFor ts → Stmt.Formed ss ∧ Writes (Stmt.flattenAll ss ++ [mark .rightBrace]) ts rest) := by
  refine (gives_declarations hg hl (by omega)).bind fun ss mid _ => .expect fun t rest heq ht => ?_
  subst heq
  refine .pure fun hss => ⟨hss.present, fun hf => ?_⟩
  obtain ⟨hformed, hw⟩ := hss.formed hf
  exact ⟨hformed, hw.append (.mark ht rfl (.nil rest))⟩

/-! ### Expressions -/

theorem gives_lambda (ht : t.kind = .kwFun) (hl : ts.length < n) (hn : n ≤ bound) :
    Gives (g.lambda bound) ts 0 (ExprRead 9 (t :: ts)) := by
  refine .expect fun o mid₁ h₁ ho => ?_
  subst h₁
  rw [List.length_cons] at hl
  have hparams := gives_paramList (show mid₁.length < bound by omega)
  refine hparams.bind fun ps mid₂ hmid => .expect fun c mid₃ h₃ hc => ?_
  subst h₃
  refine .expect fun b mid₄ h₄ hb => ?_
  subst h₄
  simp only [List.length_cons] at hmid
  have hblock := gives_block hg (show mid₄.length < n by omega) hn
  refine hblock.bind fun body rest _ => .pure ?_
  rintro ⟨hpresent, hformed⟩ ⟨hps, hwps⟩
  refine ⟨Bool.and_eq_true_iff.2 ⟨rfl, hpresent⟩, fun hf => ?_⟩
  obtain ⟨hbody, hw⟩ := hformed (hwps.noFor hf.tail.tail).tail.tail
  refine ⟨?_, Nat.le_refl 9, ?_⟩
  · simp only [FormedExpr, Expr.all, Node.isFormed, Bool.and_eq_true]
    exact ⟨⟨hps, hbody.1⟩, hbody.2⟩
  · exact .mark ht rfl (.mark ho rfl (hwps.append (.mark hc rfl (.mark hb rfl hw))))

theorem gives_primary (hl : ts.length ≤ n) (hn : n ≤ bound) :
    Gives (g.primary bound) ts 0 (ExprRead 9 ts) := by
  refine .accept (fun t mid heq hk => ?_) (fun _ => .refuse _)
  subst heq
  rw [List.length_cons] at hl
  dsimp only
  split
  case h_1 ht => exact .pure ⟨rfl, fun _ => ⟨rfl, Nat.le_refl 9, .mark ht rfl (.nil mid)⟩⟩
  case h_2 ht => exact .pure ⟨rfl, fun _ => ⟨rfl, Nat.le_refl 9, .mark ht rfl (.nil mid)⟩⟩
  case h_3 ht => exact .pure ⟨rfl, fun _ => ⟨rfl, Nat.le_refl 9, .mark ht rfl (.nil mid)⟩⟩
  case h_4 ht =>
    refine .expect fun d mid₁ h₁ hd => ?_
    subst h₁
    refine .expect fun method rest h₂ hm => ?_
    subst h₂
    refine .pure ⟨rfl, fun _ => ⟨?_, Nat.le_refl 9, ?_⟩⟩
    · simp [FormedExpr, Expr.all, Node.isFormed, ht, hm]
    · exact .kept t (.mark hd rfl (.kept method (.nil rest)))
  case h_5 ht =>
    refine .pure ⟨rfl, fun _ => ⟨?_, Nat.le_refl 9, .kept t (.nil mid)⟩⟩
    simp [FormedExpr, Expr.all, Node.isFormed, ht]
  case h_6 ht =>
    refine .pure ⟨rfl, fun _ => ⟨?_, Nat.le_refl 9, .kept t (.nil mid)⟩⟩
    simp [FormedExpr, Expr.all, Node.isFormed, ht]
  case h_7 ht =>
    refine (hg.expression mid (by omega)).bind fun e mid₁ _ => .expect fun c rest h₁ hc => ?_
    subst h₁
    refine .pure fun he => ⟨Bool.and_eq_true_iff.2 ⟨rfl, he.present⟩, fun hf => ?_⟩
    obtain ⟨hformed, -, hw⟩ := he.formed hf.tail
    refine ⟨Bool.and_eq_true_iff.2 ⟨rfl, hformed⟩, Nat.le_refl 9, ?_⟩
    exact .mark ht rfl (hw.append (.mark hc rfl (.nil rest)))
  case h_8 ht => exact gives_lambda hg ht (by omega) hn
  case h_9 =>
    have ht : t.kind = .number ∨ t.kind = .string := by simp_all
    exact .pure ⟨rfl, fun _ => ⟨rfl, Nat.le_refl 9, .cons (.ofLiteral ht) (.nil mid)⟩⟩

theorem gives_finishCall {callee : Expr} (ht : t.kind = .leftParen) (hl : ts.length < n)
    (hn : n ≤ bound) :
    Gives (g.finishCall bound callee) ts 0 fun e rest =>
      ∀ start, ExprRead 8 start callee (t :: ts) → ExprRead 8 start e rest := by
  have hclose : ∀ args mid, Gives (do
      let paren ← expect .rightParen .argumentsClose
      return .call callee paren args) mid 0 fun e rest => ArgsRead ts args mid →
        ∀ start, ExprRead 8 start callee (t :: ts) → ExprRead 8 start e rest := by
    intro args mid
    refine .expect fun paren rest heq hparen => ?_
    subst heq
    refine .pure fun hargs start hcallee => ⟨?_, fun hf => ?_⟩
    · simp only [Expr.all, Node.isPresent, Bool.true_and, Bool.and_eq_true]
      exact ⟨hcallee.present, hargs.present⟩
    · obtain ⟨hformed, hp, hw⟩ := hcallee.formed hf
      obtain ⟨hformed', hw'⟩ := hargs.formed (hw.noFor hf).tail
      refine ⟨?_, Nat.le_refl 8, ?_⟩
      · simp only [FormedExpr, Expr.all, Node.isFormed, Bool.and_eq_true, decide_eq_true_eq]
        exact ⟨⟨hp, hparen, hargs.length⟩, hformed, hformed'⟩
      · exact hw.append (.mark ht rfl (hw'.append (.kept paren (.nil rest))))
  refine .next fun closed => ?_
  cases closed with
  | true =>
    have hnone : Gives (pure []) ts 0 (ArgsRead ts) :=
      .pure ⟨rfl, Nat.zero_le _, fun _ => ⟨rfl, .nil ts⟩⟩
    exact hnone.bind fun args mid _ => hclose args mid
  | false =>
    have hsome : Gives (arguments g.expression bound 0) ts 0 (ArgsRead ts) :=
      (gives_arguments hg hl (by omega)).mono fun es rest h => ⟨h.1, by omega, h.2.2.2⟩
    exact hsome.bind fun args mid _ => hclose args mid

theorem gives_postfixes (e : Expr) (hl : ts.length ≤ n) (hs : ts.length < steps) (hn : n ≤ bound) :
    Gives (g.postfixes bound steps e) ts 0 fun e' rest =>
      ∀ start, ExprRead 8 start e ts → ExprRead 8 start e' rest := by
  induction steps generalizing e ts with
  | zero => exact absurd hs (Nat.not_lt_zero _)
  | succ steps ih =>
    refine .accept (fun t mid heq hk => ?_) (fun _ => .pure fun _ h => h)
    subst heq
    rw [List.length_cons] at hl hs
    by_cases ht : t.kind = .leftParen
    · dsimp only
      rw [if_pos ht]
      refine (gives_finishCall hg ht (by omega) hn).bind fun e' mid' hmid => ?_
      have hmore := ih e' (show mid'.length ≤ n by omega) (by omega)
      exact hmore.mono fun e'' rest h hcall start he => h start (hcall start he)
    · dsimp only
      rw [if_neg ht]
      have hdot : t.kind = .dot := by simpa [ht] using hk
      refine .expect fun name mid' heq hname => ?_
      subst heq
      rw [List.length_cons] at hl hs
      have hmore := ih (.get e name) (show mid'.length ≤ n by omega) (by omega)
      refine hmore.mono fun e'' rest h start he => h start ⟨?_, fun hf => ?_⟩
      · exact Bool.and_eq_true_iff.2 ⟨rfl, he.present⟩
      · obtain ⟨hformed, hp, hw⟩ := he.formed hf
        refine ⟨?_, Nat.le_refl 8, hw.append (.mark hdot rfl (.kept name (.nil mid')))⟩
        simp only [FormedExpr, Expr.all, Node.isFormed, Bool.and_eq_true, decide_eq_true_eq]
        exact ⟨⟨hp, hname⟩, hformed⟩

theorem gives_unaryRule (hl : ts.length ≤ n) (hn : n < bound) :
    Gives (g.unaryRule bound) ts 0 (ExprRead 7 ts) := by
  refine .accept (fun op mid heq hop => ?_) (fun _ => ?_)
  · subst heq
    rw [List.length_cons] at hl
    refine (hg.unary mid (by omega)).bind fun right rest _ => .pure fun hright => ⟨?_, fun hf => ?_⟩
    · exact Bool.and_eq_true_iff.2 ⟨rfl, hright.present⟩
    · obtain ⟨hformed, hp, hw⟩ := hright.formed hf.tail
      refine ⟨?_, Nat.le_refl 7, .kept op hw⟩
      simp only [FormedExpr, Expr.all, Node.isFormed, Bool.and_eq_true, decide_eq_true_eq]
      exact ⟨⟨by simpa using hop, hp⟩, hformed⟩
  · refine (gives_primary hg hl (Nat.le_of_lt hn)).bind fun e mid hmid => ?_
    have hmore : Gives (g.postfixes bound bound e) mid 0 _ :=
      gives_postfixes hg e (by omega) (by omega) (Nat.le_of_lt hn)
    exact hmore.mono fun e' rest h he => (h ts (he.mono (by omega))).mono (by omega)

theorem gives_ladder {height : Nat} (hh : height ≤ 6) (hn : n < bound) :
    ∀ ts, ts.length ≤ n → Gives (ladder g bound height) ts 0 (ExprRead (7 - height) ts) := by
  induction height with
  | zero => exact fun ts hl => gives_unaryRule hg hl hn
  | succ height ih =>
    intro ts hl
    have htight : 7 - height = 6 - height + 1 := by omega
    have hloose : 7 - (height + 1) = 6 - height := by omega
    have hoperand := ih (by omega)
    rw [htight] at hoperand
    rw [hloose]
    refine (hoperand ts hl).bind fun left mid hmid => ?_
    have hmore : Gives (joinLeft _ _ (ladder g bound height) bound left) mid 0 _ :=
      gives_joinLeft hoperand left (by omega) (by omega)
    exact hmore.mono fun e rest h hleft => h ts (hleft.mono (by omega))

theorem gives_assignment (hl : ts.length ≤ n) (hn : n < bound) :
    Gives (g.assignment bound) ts 0 (ExprRead 0 ts) := by
  have htarget : Gives (g.disjunction bound) ts 0 (ExprRead 1 ts) := by
    rw [disjunction_eq_ladder]
    exact gives_ladder hg (Nat.le_refl 6) hn ts hl
  refine htarget.bind fun target mid hmid => .accept (fun t mid' heq ht => ?_) (fun _ => ?_)
  · subst heq
    rw [List.length_cons] at hmid
    refine (hg.expression mid' (by omega)).bind fun value rest _ => ?_
    have hequal := List.mem_singleton.1 ht
    split
    case h_1 name address =>
      refine .pure fun hvalue hname => ⟨Bool.and_eq_true_iff.2 ⟨rfl, hvalue.present⟩, fun hf => ?_⟩
      obtain ⟨hformed, -, hw⟩ := hname.formed hf
      obtain ⟨hformed', -, hw'⟩ := hvalue.formed (hw.noFor hf).tail
      refine ⟨Bool.and_eq_true_iff.2 ⟨hformed, hformed'⟩, Nat.zero_le _, ?_⟩
      exact hw.append (.mark hequal rfl hw')
    case h_2 object name =>
      refine .pure fun hvalue hget => ⟨?_, fun hf => ?_⟩
      · have := hget.present
        simp only [Expr.all, Node.isPresent, Bool.true_and] at this ⊢
        exact Bool.and_eq_true_iff.2 ⟨this, hvalue.present⟩
      · obtain ⟨hformed, -, hw⟩ := hget.formed hf
        obtain ⟨hformed', -, hw'⟩ := hvalue.formed (hw.noFor hf).tail
        simp only [FormedExpr, Expr.all, Node.isFormed, Bool.and_eq_true] at hformed ⊢
        refine ⟨⟨hformed.1, hformed.2, hformed'⟩, Nat.zero_le _, ?_⟩
        simpa [Expr.flatten] using hw.append (.mark hequal rfl hw')
    case h_3 =>
      have hdrop : Gives (pure target) rest 0 fun _ _ => True := .pure trivial
      exact .of_complains (fun cs => ⟨⟨some t, .assignmentTarget⟩, rfl⟩) hdrop
  · exact .pure fun h => h.mono (by omega)

/-! ### Statements -/

theorem gives_expressionStmt (hl : ts.length ≤ n) (hn : n < bound) :
    Gives (g.expressionStmt bound) ts 1 (StmtRead ts) := by
  refine (gives_assignment hg hl hn).bind fun e mid _ => .expect fun t rest heq ht => ?_
  subst heq
  refine .pure fun he => ⟨Bool.and_eq_true_iff.2 ⟨rfl, he.present⟩, fun hf => ?_⟩
  obtain ⟨hformed, -, hw⟩ := he.formed hf
  exact ⟨Bool.and_eq_true_iff.2 ⟨rfl, hformed⟩, rfl, nofun, hw.append (.mark ht rfl (.nil rest))⟩

theorem gives_varDecl (ht : t.kind = .kwVar) (hl : ts.length < n) :
    Gives g.varDecl ts 0 (DeclRead (t :: ts)) := by
  refine .expect fun name mid₁ h₁ hname => ?_
  subst h₁
  refine .accept (fun q mid₂ h₂ hq => ?_) (fun _ => ?_)
  · subst h₂
    simp only [List.length_cons] at hl
    have hsome : Gives (some <$> g.expression) mid₂ 0 fun init? rest =>
        ∃ init, init? = some init ∧ ExprRead 0 mid₂ init rest :=
      .map ((hg.expression mid₂ (by omega)).mono fun init rest h => ⟨init, rfl, h⟩)
    refine hsome.bind fun init? mid₃ _ => .expect fun c rest h₃ hc => .pure ?_
    rintro ⟨init, rfl, hinit⟩
    subst h₃
    refine ⟨Bool.and_eq_true_iff.2 ⟨rfl, hinit.present⟩, fun hf => ?_⟩
    obtain ⟨hformed, -, hw⟩ := hinit.formed hf.tail.tail.tail
    refine ⟨Bool.and_eq_true_iff.2 ⟨decide_eq_true hname, hformed⟩, rfl, ?_⟩
    exact .mark ht rfl (.kept name (.mark (List.mem_singleton.1 hq) rfl
      (hw.append (.mark hc rfl (.nil rest)))))
  · have hnone : Gives (pure none : Reader (Option Expr)) mid₁ 0 fun init? rest =>
        init? = none ∧ rest = mid₁ := .pure ⟨rfl, rfl⟩
    refine hnone.bind fun init? mid₂ _ => .expect fun c rest h₃ hc => .pure ?_
    rintro ⟨rfl, rfl⟩
    subst h₃
    refine ⟨rfl, fun _ => ⟨decide_eq_true hname, rfl, ?_⟩⟩
    exact .mark ht rfl (.kept name (.mark hc rfl (.nil rest)))

theorem gives_condition {opening : Flaw} (hl : ts.length < n) :
    Gives (g.condition opening) ts 0 fun e rest => e.all Node.isPresent = true ∧
      (NoFor ts → FormedExpr e ∧
        Writes (mark .leftParen :: (e.flatten ++ [mark .rightParen])) ts rest) := by
  refine .expect fun o mid₁ h₁ ho => ?_
  subst h₁
  rw [List.length_cons] at hl
  refine (hg.expression mid₁ (by omega)).bind fun e mid₂ _ => .expect fun c rest h₂ hc => ?_
  subst h₂
  refine .pure fun he => ⟨he.present, fun hf => ?_⟩
  obtain ⟨hformed, -, hw⟩ := he.formed hf.tail
  exact ⟨hformed, .mark ho rfl (hw.append (.mark hc rfl (.nil rest)))⟩

theorem gives_ifStmt (ht : t.kind = .kwIf) (hl : ts.length < n) :
    Gives g.ifStmt ts 0 (StmtRead (t :: ts)) := by
  refine (gives_condition hg hl).bind fun c mid₁ h₁ => ?_
  refine (hg.statement mid₁ (by omega)).bind fun onTrue mid₂ h₂ => ?_
  refine .accept (fun q mid₃ h₃ hq => ?_) (fun helse => ?_)
  · subst h₃
    rw [List.length_cons] at h₂
    refine (hg.statement mid₃ (by omega)).bind fun onFalse rest _ => .pure ?_
    rintro hfalse htrue ⟨hc, hcformed⟩
    refine ⟨?_, fun hf => ?_⟩
    · simp only [Stmt.all, Node.isPresent, Bool.true_and, Bool.and_eq_true]
      exact ⟨hc, htrue.present, hfalse.present⟩
    · obtain ⟨hfc, hwc⟩ := hcformed hf.tail
      obtain ⟨hft, hdt, hct, hwt⟩ := htrue.formed (hwc.noFor hf.tail)
      obtain ⟨hff, hdf, hcf, hwf⟩ := hfalse.formed (hwt.noFor (hwc.noFor hf.tail)).tail
      -- An `else` that follows a conditional without one would have been taken for its own.
      have hends : onTrue.endsOpen = false := by
        by_contra hopen
        exact hct (by simpa using hopen) q rfl hq
      refine ⟨?_, rfl, hcf, ?_⟩
      · simp only [FormedStmt, Stmt.all, Node.isFormed, Bool.and_eq_true, Bool.not_eq_true']
        exact ⟨⟨⟨hdt, hends⟩, hdf⟩, hfc, hft, hff⟩
      · have hw := hwc.append (hwt.append (.mark (List.mem_singleton.1 hq) rfl hwf))
        simpa [Stmt.flatten] using Writes.mark ht rfl hw
  · refine .pure ?_
    rintro htrue ⟨hc, hcformed⟩
    refine ⟨?_, fun hf => ?_⟩
    · simp only [Stmt.all, Node.isPresent, Bool.true_and, Bool.and_eq_true]
      exact ⟨hc, htrue.present⟩
    · obtain ⟨hfc, hwc⟩ := hcformed hf.tail
      obtain ⟨hft, hdt, -, hwt⟩ := htrue.formed (hwc.noFor hf.tail)
      refine ⟨?_, rfl, fun _ => helse, ?_⟩
      · simp only [FormedStmt, Stmt.all, Node.isFormed, Bool.and_eq_true, Bool.not_eq_true']
        exact ⟨hdt, hfc, hft⟩
      · simpa [Stmt.flatten] using Writes.mark ht rfl (hwc.append hwt)

theorem gives_whileStmt (ht : t.kind = .kwWhile) (hl : ts.length < n) :
    Gives g.whileStmt ts 0 (StmtRead (t :: ts)) := by
  refine (gives_condition hg hl).bind fun c mid h => ?_
  refine (hg.statement mid (by omega)).bind fun body rest _ => .pure ?_
  rintro hbody ⟨hc, hcformed⟩
  refine ⟨?_, fun hf => ?_⟩
  · simp only [Stmt.all, Node.isPresent, Bool.true_and, Bool.and_eq_true]
    exact ⟨hc, hbody.present⟩
  · obtain ⟨hfc, hwc⟩ := hcformed hf.tail
    obtain ⟨hfb, hdb, hcb, hwb⟩ := hbody.formed (hwc.noFor hf.tail)
    refine ⟨?_, rfl, hcb, ?_⟩
    · simp only [FormedStmt, Stmt.all, Node.isFormed, Bool.and_eq_true, Bool.not_eq_true']
      exact ⟨hdb, hfc, hfb⟩
    · simpa [Stmt.flatten] using Writes.mark ht rfl (hwc.append hwb)

theorem gives_optional {stop : Token.Kind} (hl : ts.length < n) :
    Gives (g.optional stop) ts 0 fun e? rest => (∀ e ∈ e?, e.all Node.isPresent = true) ∧
      (NoFor ts → (∀ e ∈ e?, FormedExpr e) ∧
        Writes ((e?.map Expr.flatten).getD []) ts rest) := by
  refine .next fun stops => ?_
  cases stops with
  | true => exact .pure ⟨nofun, fun _ => ⟨nofun, .nil ts⟩⟩
  | false =>
    refine .map ((hg.expression ts hl).mono fun e rest he => ⟨?_, fun hf => ?_⟩)
    · rintro e' ⟨⟩
      exact he.present
    · obtain ⟨hformed, -, hw⟩ := he.formed hf
      refine ⟨?_, hw⟩
      rintro e' ⟨⟩
      exact hformed

theorem gives_forInit (hl : ts.length < n) (hn : n < bound) :
    Gives (g.forInit bound) ts 0 fun init? _ => ∀ s ∈ init?, s.all Node.isPresent = true := by
  refine .accept (fun t mid heq hk => ?_) (fun _ => ?_)
  · subst heq
    rw [List.length_cons] at hl
    by_cases ht : t.kind = .semicolon
    · dsimp only
      rw [if_pos ht]
      exact .pure nofun
    · dsimp only
      rw [if_neg ht]
      have hvar : t.kind = .kwVar := by simpa [ht] using hk
      refine .map ((gives_varDecl hg hvar (by omega)).mono fun s rest hs => ?_)
      rintro s' ⟨⟩
      exact hs.present
  · refine .map ?_
    refine (gives_expressionStmt hg (Nat.le_of_lt hl) hn).consequence (by omega) fun s rest hs => ?_
    rintro s' ⟨⟩
    exact hs.present

omit hg in
theorem present_desugarFor {init? : Option Stmt} {condition? increment? : Option Expr}
    {body : Stmt} (hinit : ∀ s ∈ init?, s.all Node.isPresent = true)
    (hcondition : ∀ e ∈ condition?, e.all Node.isPresent = true)
    (hincrement : ∀ e ∈ increment?, e.all Node.isPresent = true)
    (hbody : body.all Node.isPresent = true) :
    (desugarFor init? condition? increment? body).all Node.isPresent = true := by
  have hc : (condition?.getD (.literal (.bool true))).all Node.isPresent = true := by
    cases condition? with
    | none => rfl
    | some e => exact hcondition e rfl
  unfold desugarFor
  cases increment? with
  | none =>
    cases init? with
    | none => simp [Stmt.all, Node.isPresent, hc, hbody]
    | some s => simp [Stmt.all, Stmt.allOf, Node.isPresent, hc, hbody, hinit s rfl]
  | some e =>
    cases init? with
    | none => simp [Stmt.all, Stmt.allOf, Node.isPresent, hc, hbody, hincrement e rfl]
    | some s =>
      simp [Stmt.all, Stmt.allOf, Node.isPresent, hc, hbody, hincrement e rfl, hinit s rfl]

theorem gives_forStmt (hl : ts.length < n) (hn : n < bound) :
    Gives (g.forStmt bound) ts 0 fun s _ => s.all Node.isPresent = true := by
  refine .expect fun _ mid₁ h₁ _ => ?_
  subst h₁
  rw [List.length_cons] at hl
  refine (gives_forInit hg (show mid₁.length < n by omega) hn).bind fun init? mid₂ h₂ => ?_
  refine (gives_optional hg (show mid₂.length < n by omega)).bind fun condition? mid₃ h₃ => ?_
  refine .expect fun _ mid₄ h₄ _ => ?_
  subst h₄
  rw [List.length_cons] at h₃
  refine (gives_optional hg (show mid₄.length < n by omega)).bind fun increment? mid₅ h₅ => ?_
  refine .expect fun _ mid₆ h₆ _ => ?_
  subst h₆
  rw [List.length_cons] at h₅
  refine (hg.statement mid₆ (by omega)).bind fun body rest _ => .pure ?_
  intro hbody hincrement hcondition hinit
  exact present_desugarFor hinit hcondition.1 hincrement.1 hbody.present

theorem gives_statementRule (hl : ts.length ≤ n) (hn : n < bound) :
    Gives (g.statementRule bound) ts 1 (StmtRead ts) := by
  refine .accept (fun t mid heq hk => ?_) (fun _ => gives_expressionStmt hg hl hn)
  subst heq
  rw [List.length_cons] at hl
  dsimp only
  split
  case h_1 ht =>
    refine (hg.expression mid (by omega)).bind fun e mid₁ _ => .expect fun c rest h₁ hc => ?_
    subst h₁
    refine .pure fun he => ⟨Bool.and_eq_true_iff.2 ⟨rfl, he.present⟩, fun hf => ?_⟩
    obtain ⟨hformed, -, hw⟩ := he.formed hf.tail
    refine ⟨Bool.and_eq_true_iff.2 ⟨rfl, hformed⟩, rfl, nofun, ?_⟩
    exact .mark ht rfl (hw.append (.mark hc rfl (.nil rest)))
  case h_2 ht =>
    refine (gives_block hg (by omega) (Nat.le_of_lt hn)).bind fun body rest _ => .pure ?_
    rintro ⟨hpresent, hformed⟩
    refine ⟨Bool.and_eq_true_iff.2 ⟨rfl, hpresent⟩, fun hf => ?_⟩
    obtain ⟨hbody, hw⟩ := hformed hf.tail
    exact ⟨Bool.and_eq_true_iff.2 hbody, rfl, nofun, .mark ht rfl hw⟩
  case h_3 ht => exact gives_ifStmt hg ht (by omega)
  case h_4 ht => exact gives_whileStmt hg ht (by omega)
  case h_5 ht =>
    refine (gives_forStmt hg (by omega) hn).mono fun s rest hs => ⟨hs, fun hf => ?_⟩
    exact absurd ht (hf t (List.mem_cons_self ..))
  case h_6 ht =>
    refine .expect fun c rest h₁ hc => ?_
    subst h₁
    refine .pure ⟨rfl, fun _ => ⟨decide_eq_true ht, rfl, nofun, ?_⟩⟩
    exact .kept t (.mark hc rfl (.nil rest))
  case h_7 =>
    have ht : t.kind = .kwReturn := by simp_all
    refine (gives_optional hg (by omega)).bind fun value? mid₁ _ => .expect fun c rest h₁ hc => ?_
    subst h₁
    refine .pure ?_
    rintro ⟨hpresent, hformed⟩
    cases value? with
    | none =>
      refine ⟨rfl, fun hf => ⟨decide_eq_true ht, rfl, nofun, ?_⟩⟩
      exact .kept t ((hformed hf.tail).2.append (.mark hc rfl (.nil rest)))
    | some value =>
      refine ⟨Bool.and_eq_true_iff.2 ⟨rfl, hpresent value rfl⟩, fun hf => ?_⟩
      obtain ⟨hvalue, hw⟩ := hformed hf.tail
      refine ⟨Bool.and_eq_true_iff.2 ⟨decide_eq_true ht, hvalue value rfl⟩, rfl, nofun, ?_⟩
      exact .kept t (hw.append (.mark hc rfl (.nil rest)))

/-! ### Declarations -/

theorem gives_functionBody {role : Role} {isStatic isGetter : Bool} {name : Token}
    {params : List Token} (start : List Token) (hname : name.kind = .identifier)
    (hl : ts.length ≤ n) (hn : n < bound) :
    Gives (do
      let _ ← expect .leftBrace (.functionBody role)
      return (⟨name, params, ← g.block bound, isStatic, isGetter⟩ : Function)) ts 0 fun f rest =>
        Token.areParams params = true ∧ (!isGetter || params.isEmpty) = true ∧
          Writes (if isGetter then [] else
            mark .leftParen :: (Token.listed params ++ [mark .rightParen])) start ts →
        FunctionRead isStatic (name :: start) f rest := by
  refine .expect fun b mid heq hb => ?_
  subst heq
  rw [List.length_cons] at hl
  refine (gives_block hg (by omega) (Nat.le_of_lt hn)).bind fun body rest _ => .pure ?_
  rintro ⟨hpresent, hformed⟩ ⟨hparams, hgetter, hopening⟩
  refine ⟨rfl, hpresent, fun hf => ?_⟩
  obtain ⟨hbody, hw⟩ := hformed (hopening.noFor hf.tail).tail
  refine ⟨?_, hbody.2, .kept name (hopening.append (.mark hb rfl hw))⟩
  simp only [Function.isFormed, Bool.and_eq_true, decide_eq_true_eq]
  exact ⟨⟨⟨hname, hparams⟩, hgetter⟩, hbody.1⟩

theorem gives_function {role : Role} {isStatic : Bool} (hl : ts.length ≤ n) (hn : n < bound) :
    Gives (g.function bound role isStatic) ts 1 (FunctionRead isStatic ts) := by
  refine .expect fun name mid heq hname => ?_
  subst heq
  rw [List.length_cons] at hl
  refine .next fun isGetter => ?_
  cases isGetter with
  | true =>
    have hnone : Gives (pure [] : Reader (List Token)) mid 0 fun ps rest => ps = [] ∧ rest = mid :=
      .pure ⟨rfl, rfl⟩
    refine hnone.bind fun ps mid₁ h₁ => ?_
    refine (gives_functionBody hg mid hname (by omega) hn).mono fun f rest h => ?_
    rintro ⟨rfl, rfl⟩
    exact h ⟨rfl, rfl, .nil _⟩
  | false =>
    refine .expect fun o mid₁ h₁ ho => ?_
    subst h₁
    rw [List.length_cons] at hl
    have hparams := gives_paramList (show mid₁.length < bound by omega)
    refine hparams.bind fun ps mid₂ h₂ => .expect fun c mid₃ h₃ hc => ?_
    subst h₃
    rw [List.length_cons] at h₂
    refine (gives_functionBody hg (o :: mid₁) hname (by omega) hn).mono fun f rest h => ?_
    rintro ⟨hps, hw⟩
    refine h ⟨hps, rfl, ?_⟩
    exact .mark ho rfl (hw.append (.mark hc rfl (.nil mid₃)))

theorem gives_methods (hl : ts.length ≤ n) (hs : ts.length < steps) (hn : n < bound) :
    Gives (g.methods bound steps) ts 0 fun fs rest => Function.allOf Node.isPresent fs = true ∧
      (NoFor ts → fs.all (·.isFormed) = true ∧ Function.allOf Node.isFormed fs = true ∧
        Writes (Function.flattenAll fs) ts rest) := by
  induction steps generalizing ts with
  | zero => exact absurd hs (Nat.not_lt_zero _)
  | succ steps ih =>
    -- A method from its name on, and those after it.
    have hmore : ∀ isStatic mid, mid.length ≤ ts.length →
        Gives (do
          let m ← g.function bound .method isStatic
          return m :: (← g.methods bound steps)) mid 0 fun fs rest =>
            Function.allOf Node.isPresent fs = true ∧ (NoFor mid →
              fs.all (·.isFormed) = true ∧ Function.allOf Node.isFormed fs = true ∧
                ∃ us, Function.flattenAll fs = (if isStatic then [mark .kwClass] else []) ++ us ∧
                  Writes us mid rest) := by
      intro isStatic mid hmid
      have hfunction : Gives (g.function bound .method isStatic) mid 1 _ :=
        gives_function hg (by omega) hn
      refine hfunction.bind fun f mid' hmid' => ?_
      have hrest := ih (show mid'.length ≤ n by omega) (by omega)
      refine hrest.bind fun fs rest _ => .pure ?_
      rintro ⟨hpresent, hformed⟩ hf
      refine ⟨Bool.and_eq_true_iff.2 ⟨hf.present, hpresent⟩, fun hnf => ?_⟩
      obtain ⟨hff, hfb, hwf⟩ := hf.formed hnf
      obtain ⟨hfs, hbs, hws⟩ := hformed (hwf.noFor hnf)
      refine ⟨?_, Bool.and_eq_true_iff.2 ⟨hfb, hbs⟩, _, ?_, hwf.append hws⟩
      · rw [List.all_cons, hff]
        exact hfs
      · rw [Function.flattenAll, hf.isStatic]
    refine .next fun closed => .atEnd ?_
    by_cases hend : (closed || ts.isEmpty) = true
    · rw [if_pos hend]
      exact .pure ⟨rfl, fun _ => ⟨rfl, rfl, .nil ts⟩⟩
    · rw [if_neg hend]
      refine .accept (fun t mid heq ht => ?_) (fun _ => ?_)
      · subst heq
        refine (hmore true mid (Nat.le_succ _)).mono fun fs rest h => ⟨h.1, fun hf => ?_⟩
        obtain ⟨hfs, hbs, us, hflat, hw⟩ := h.2 hf.tail
        rw [hflat]
        exact ⟨hfs, hbs, .mark (List.mem_singleton.1 ht) rfl hw⟩
      · refine (hmore false ts (Nat.le_refl _)).mono fun fs rest h => ⟨h.1, fun hf => ?_⟩
        obtain ⟨hfs, hbs, us, hflat, hw⟩ := h.2 hf
        rw [hflat]
        exact ⟨hfs, hbs, hw⟩

def superTokens : Option (Token × Address) → List Token
  | none => []
  | some (parent, _) => [mark .less, parent]

theorem gives_classBody {name : Token} (superclass? : Option (Token × Address)) (start : List Token)
    (ht : t.kind = .kwClass) (hname : name.kind = .identifier)
    (hl : ts.length ≤ n) (hn : n < bound) :
    Gives (do
      let _ ← expect .leftBrace .classOpen
      let ms ← g.methods bound bound
      let _ ← expect .rightBrace .classClose
      return Stmt.classDecl name superclass? ms) ts 0 fun s rest =>
        superclass?.all
            (fun parent => decide (parent.1.kind = .identifier ∧ parent.2 = .free)) = true ∧
          Writes (superTokens superclass?) start ts →
        DeclRead (t :: name :: start) s rest := by
  refine .expect fun b mid₁ h₁ hb => ?_
  subst h₁
  rw [List.length_cons] at hl
  have hmethods : Gives (g.methods bound bound) mid₁ 0 _ :=
    gives_methods hg (by omega) (by omega) hn
  refine hmethods.bind fun ms mid₂ _ => .expect fun c rest h₂ hc => .pure ?_
  subst h₂
  rintro ⟨hpresent, hformed⟩ ⟨hparent, hw⟩
  refine ⟨Bool.and_eq_true_iff.2 ⟨rfl, hpresent⟩, fun hf => ?_⟩
  obtain ⟨hms, hbodies, hwms⟩ := hformed (hw.noFor hf.tail.tail).tail
  refine ⟨?_, rfl, ?_⟩
  · simp only [FormedStmt, Stmt.all, Node.isFormed, Bool.and_eq_true, decide_eq_true_eq]
    exact ⟨⟨⟨hname, hparent⟩, hms⟩, hbodies⟩
  · have hwhole := hw.append (.mark hb rfl (hwms.append (.mark hc rfl (.nil rest))))
    cases superclass? <;> exact .mark ht rfl (.kept name hwhole)

theorem gives_classDecl (ht : t.kind = .kwClass) (hl : ts.length ≤ n) (hn : n < bound) :
    Gives (g.classDecl bound) ts 0 (DeclRead (t :: ts)) := by
  refine .expect fun name mid h₁ hname => ?_
  subst h₁
  rw [List.length_cons] at hl
  refine .accept (fun q mid₁ h₂ hq => .expect fun parent mid₂ h₃ hparent => ?_) (fun _ => ?_)
  · subst h₂ h₃
    simp only [List.length_cons] at hl
    have hsome : Gives (pure (some (parent, Address.free))) mid₂ 0 fun superclass? rest =>
        superclass? = some (parent, Address.free) ∧ rest = mid₂ := .pure ⟨rfl, rfl⟩
    refine hsome.bind fun superclass? mid₃ h₃ => ?_
    have hbody := gives_classBody hg superclass? (q :: parent :: mid₂) ht hname
      (show mid₃.length ≤ n by omega) hn
    refine hbody.mono fun s rest h => ?_
    rintro ⟨rfl, rfl⟩
    refine h ⟨by simp [hparent], ?_⟩
    exact .mark (List.mem_singleton.1 hq) rfl (.kept parent (.nil _))
  · have hnone : Gives (pure none) mid 0 fun (superclass? : Option (Token × Address)) rest =>
        superclass? = none ∧ rest = mid := .pure ⟨rfl, rfl⟩
    refine hnone.bind fun superclass? mid₁ h₁ => ?_
    have hbody := gives_classBody hg superclass? mid ht hname (show mid₁.length ≤ n by omega) hn
    refine hbody.mono fun s rest h => ?_
    rintro ⟨rfl, rfl⟩
    exact h ⟨rfl, .nil _⟩

omit hg in
theorem startsWithFun_eq_false {s : Stmt} {rest : List Token} (hs : FormedStmt s)
    (hw : Writes s.flatten ts rest) (hl : Lacks declStarts ts) : s.startsWithFun = false := by
  cases s with
  | expression value =>
    simp only [FormedStmt, Stmt.all, Node.isFormed, Bool.true_and] at hs
    obtain ⟨t, tail, hflat, -, hfun, -⟩ := FormedExpr.head hs
    simp only [Stmt.flatten, hflat, List.cons_append] at hw
    cases hw with
    | cons head _ =>
      by_contra hstarts
      have ht := hfun.2 (by simpa [Stmt.startsWithFun] using hstarts)
      exact hl _ rfl (by simp [head.kind_eq_fun ht, declStarts])
  | _ => rfl

theorem gives_declared (hl : ts.length ≤ n) (hn : n < bound) :
    Gives (g.declared bound) ts 1 (DeclRead ts) := by
  refine .accept (fun t mid heq hk => ?_) (fun hlacks => ?_)
  · subst heq
    rw [List.length_cons] at hl
    dsimp only
    split
    case h_1 ht => exact gives_classDecl hg ht (by omega) hn
    case h_2 ht =>
      have hfunction : Gives (g.function bound .function false) mid 1 _ :=
        gives_function hg (by omega) hn
      refine hfunction.bind fun f rest _ => .pure fun hf => ⟨?_, fun hnf => ?_⟩
      · exact Bool.and_eq_true_iff.2 ⟨rfl, hf.present⟩
      · obtain ⟨hformed, hbody, hw⟩ := hf.formed hnf.tail
        refine ⟨?_, rfl, .mark ht rfl hw⟩
        simp only [FormedStmt, Stmt.all, Node.isFormed, Bool.and_eq_true, Bool.not_eq_true']
        exact ⟨⟨hformed, hf.isStatic⟩, hbody⟩
    case h_3 =>
      have ht : t.kind = .kwVar := by simp_all
      exact gives_varDecl hg ht (by omega)
  · refine (gives_statementRule hg hl hn).mono fun s rest hs => ⟨hs.present, fun hf => ?_⟩
    obtain ⟨hformed, -, -, hw⟩ := hs.formed hf
    exact ⟨hformed, startsWithFun_eq_false hformed hw hlacks, hw⟩

omit hg in
theorem length_resume_le (last : Token) (ts : List Token) :
    (resume last ts).length ≤ ts.length := by
  induction ts generalizing last with
  | nil => exact Nat.le_refl _
  | cons t rest ih =>
    unfold resume
    split
    · exact Nat.le_refl _
    · exact Nat.le_succ_of_le (ih t)

theorem gives_declarationRule (hl : ts.length ≤ n) (hn : n < bound) (hne : ts ≠ []) :
    Gives (g.declarationRule bound) ts 1 (DeclRead ts) := by
  have hdeclared := gives_declared hg hl hn
  have hpos := List.length_pos_iff.2 hne
  intro cs
  unfold declarationRule
  cases hrun : g.declared bound ⟨ts, cs⟩ with
  | ok s c => exact hdeclared.ok hrun
  | error stop c =>
    cases stop with
    | tooDeep => exact hdeclared.tooDeep hrun
    | refused complaint =>
      obtain ⟨new, hnew, hlen⟩ := hdeclared.refused hrun
      refine ⟨new ++ [complaint], by rw [hnew, List.append_assoc], ?_, by simp⟩
      cases hrest : c.rest with
      | nil => exact hpos
      | cons t rest =>
        have := length_resume_le t rest
        rw [hrest, List.length_cons] at hlen
        show (resume t rest).length + 1 ≤ ts.length
        omega

theorem Sound.next : Sound (g.next (n + 1)) (n + 1) where
  expression _ hl := gives_assignment hg (Nat.le_of_lt_succ hl) (Nat.lt_succ_self n)
  unary _ hl := gives_unaryRule hg (Nat.le_of_lt_succ hl) (Nat.lt_succ_self n)
  statement _ hl := gives_statementRule hg (Nat.le_of_lt_succ hl) (Nat.lt_succ_self n)
  declaration _ hl := gives_declarationRule hg (Nat.le_of_lt_succ hl) (Nat.lt_succ_self n)

end Rules

/-- A grammar closed up to some depth is sound on fewer tokens. -/
theorem sound_grammar (n : Nat) : Sound (grammar n) n := by
  induction n with
  | zero =>
    refine ⟨?_, ?_, ?_, ?_⟩
    · exact fun _ hl => absurd hl (Nat.not_lt_zero _)
    · exact fun _ hl => absurd hl (Nat.not_lt_zero _)
    · exact fun _ hl => absurd hl (Nat.not_lt_zero _)
    · exact fun _ hl => absurd hl (Nat.not_lt_zero _)
  | succ n ih => exact ih.next

theorem gives_program {g : Grammar} {n : Nat} (hg : Sound g n) (hl : ts.length < n)
    (hs : ts.length < steps) :
    Gives (program g.declaration steps) ts 0 fun ss rest => rest = [] ∧ BodyRead ts ss rest := by
  induction steps generalizing ts with
  | zero => exact absurd hs (Nat.not_lt_zero _)
  | succ steps ih =>
    refine .atEnd ?_
    cases ts with
    | nil => exact .pure ⟨rfl, rfl, fun _ => ⟨⟨rfl, rfl⟩, .nil []⟩⟩
    | cons t ts =>
      refine (hg.declaration (t :: ts) hl (List.cons_ne_nil _ _)).bind fun s mid hmid => ?_
      have hmore := ih (show mid.length < n by omega) (by omega)
      refine hmore.bind fun ss rest _ => .pure ?_
      rintro ⟨hrest, hss⟩ hd
      exact ⟨hrest, hd.cons hss⟩

theorem declarationRule_ne_refused {g : Grammar} {bound : Nat} {c c' : Cursor}
    {complaint : Complaint} : g.declarationRule bound c ≠ .error (.refused complaint) c' := by
  unfold declarationRule
  split
  · exact nofun
  · rename_i hr
    exact fun he => hr complaint c' he

theorem program_ne_refused {declaration : Reader Stmt}
    (hd : ∀ c c' complaint, declaration c ≠ .error (.refused complaint) c') (steps : Nat)
    {c c' : Cursor} {complaint : Complaint} :
    program declaration steps c ≠ .error (.refused complaint) c' := by
  induction steps generalizing c with
  | zero => exact nofun
  | succ steps ih =>
    intro hrun
    have hatEnd : Reader.atEnd c = .ok c.rest.isEmpty c := rfl
    unfold program at hrun
    rw [bind_of_ok hatEnd] at hrun
    split at hrun
    · cases hrun
    · rcases bind_eq_error.1 hrun with hfirst | ⟨s, mid, -, hrest⟩
      · exact hd c c' complaint hfirst
      · rcases bind_eq_error.1 hrest with hmore | ⟨ss, last, -, hpure⟩
        · exact ih hmore
        · cases hpure

/-- A program that is read without complaint is read to the end, and nothing is missing in it at any
depth. If no token starts a counting loop, it is well formed, and its tokens are those that were
read, one by one and in order. -/
theorem parse_sound (ts : List Token) (h : (parse ts).complaints = []) :
    program (grammar (ts.length + 1)).declaration (ts.length + 1) ⟨ts, []⟩ =
        .ok (parse ts).statements ⟨[], []⟩ ∧
      Stmt.allOf Node.isPresent (parse ts).statements = true ∧
      ((∀ t ∈ ts, t.kind ≠ .kwFor) → Stmt.Formed (parse ts).statements ∧
        List.Forall₂ Token.Alike (Stmt.flattenAll (parse ts).statements) ts) := by
  have hgives := gives_program (sound_grammar (ts.length + 1)) (Nat.lt_succ_self ts.length)
    (Nat.lt_succ_self ts.length)
  unfold parse at h ⊢
  dsimp only at h ⊢
  cases hrun : program (grammar (ts.length + 1)).declaration (ts.length + 1) ⟨ts, []⟩ with
  | ok ss c =>
    rw [hrun] at h
    obtain ⟨new, hnew, -, hpost⟩ := hgives.ok hrun
    obtain ⟨rest, complaints⟩ := c
    obtain rfl : complaints = [] := h
    obtain ⟨rfl, hbody⟩ := hpost hnew.symm
    refine ⟨rfl, hbody.present, fun hf => ?_⟩
    obtain ⟨hformed, hw⟩ := hbody.formed hf
    exact ⟨hformed, hw.forall₂⟩
  | error stop c =>
    cases stop with
    | refused complaint =>
      exact absurd hrun (program_ne_refused (fun _ _ _ => declarationRule_ne_refused) _)
    | tooDeep => exact (hgives.tooDeep hrun).elim

/-- A conditional on a grouped expression, with an assignment to a property of a call as its first
branch. -/
def callOrFail : List Token :=
  [mark .kwIf, mark .leftParen, ⟨.bang, "!", .nil, 1⟩, mark .leftParen, .ident "a" 1,
    ⟨.kwOr, "or", .nil, 1⟩, mark .kwNil, mark .rightParen, mark .rightParen,
    .ident "f" 2, mark .leftParen, ⟨.string, "\"s\"", .text "s", 2⟩, mark .comma, .ident "b" 2,
    mark .rightParen, mark .dot, .ident "c" 2, mark .equal, mark .kwFun, mark .leftParen,
    .ident "p" 2, mark .rightParen, mark .leftBrace, ⟨.kwReturn, "return", .nil, 2⟩,
    mark .semicolon, mark .rightBrace, mark .semicolon,
    mark .kwElse, mark .kwPrint, ⟨.kwThis, "this", .nil, 3⟩, mark .semicolon]

theorem parse_sound_callOrFail : (parse callOrFail).complaints = [] ∧
    (∀ t ∈ callOrFail, t.kind ≠ .kwFor) ∧
    Stmt.allOf Node.isPresent (parse callOrFail).statements = true ∧
    Stmt.Formed (parse callOrFail).statements ∧
    List.Forall₂ Token.Alike (Stmt.flattenAll (parse callOrFail).statements) callOrFail := by
  have hread : (parse callOrFail).complaints = [] := by decide +kernel
  have hnoFor : ∀ t ∈ callOrFail, t.kind ≠ .kwFor := by decide
  obtain ⟨-, hpresent, hformed⟩ := parse_sound callOrFail hread
  exact ⟨hread, hnoFor, hpresent, hformed hnoFor⟩

end Tree

end Lox
