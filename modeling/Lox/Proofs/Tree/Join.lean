import Lox.Proofs.Tree.Lines
import Lox.Proofs.Tree.Soundness

/-!
# Programs in a row

A program that is read without complaint is read in the same way when other tokens follow it, and when
it stands on other lines.

## Design notes

What a reader does next may depend on the token after the last one it takes. A statement looks at most
for an `else` there. An expression may go on with an operator, but in a program some token of the same
statement always follows it: so it is enough that the tokens do not end with the expression.
-/

namespace Lox.Tree

open Outcome Reader Grammar

variable {α β α' β' : Type} {f : Nat → Nat} {needs last : Bool} {value : α → β}

variable {bound bound' steps : Nat} {x : Reader Stmt} {c c' : Cursor} {ss : List Stmt}

/-- Where `x` succeeds without complaint, `y` reads the same tokens on other lines, and whatever
follows them. With `needs`, `x` succeeds only on some tokens; with `last`, the tokens may end with
those that `x` takes, provided that what follows does not start with `else`. -/
def Carries (f : Nat → Nat) (needs last : Bool) (value : α → β) (x : Reader α) (y : Reader β) :
    Prop :=
  ∀ c a c', x c = .ok a c' → c'.complaints = [] →
    c.complaints = [] ∧ (c.rest = [] → needs = false ∧ c'.rest = []) ∧
      ∀ more, (c'.rest = [] → last = true ∧ Lacks [.kwElse] more) →
        y ⟨c.rest.map (Token.relined f) ++ more, []⟩ =
          .ok (value a) ⟨c'.rest.map (Token.relined f) ++ more, []⟩

namespace Carries

variable {x : Reader α} {y : Reader β} {k : α → Reader α'} {k' : β → Reader β'} {value' : α' → β'}

variable {last₁ : Bool}

theorem forgetNeeds (h : Carries f needs last value x y) : Carries f false last value x y := by
  intro c a c' hx hc
  obtain ⟨hstart, hempty, hy⟩ := h c a c' hx hc
  exact ⟨hstart, fun hr => ⟨rfl, (hempty hr).2⟩, hy⟩

theorem weaken (h : Carries f needs last value x y) : Carries f false false value x y := by
  intro c a c' hx hc
  obtain ⟨hstart, hempty, hy⟩ := h.forgetNeeds c a c' hx hc
  exact ⟨hstart, hempty, fun more hm => hy more fun hr => absurd (hm hr).1 Bool.false_ne_true⟩

theorem never (h : ∀ c a c', x c = .ok a c' → c'.complaints ≠ []) :
    Carries f needs last value x y :=
  fun c a c' hx hc => absurd hc (h c a c' hx)

theorem pure {a : α} {b : β} (h : b = value a) :
    Carries f false true value (Pure.pure a) (Pure.pure b) := by
  intro c a' c' hx hc
  obtain ⟨rfl, rfl⟩ := pure_eq_ok.1 hx
  exact ⟨hc, fun hr => ⟨rfl, hr⟩, fun more _ => h ▸ rfl⟩

/-- Readers in a row: what one of them needs and what may be last carries over, if the tokens end with
those of the first only where the second and what follows allow it. -/
theorem sequence {needs₁ needs₂ : Bool} (hx : Carries f needs₁ last₁ value x y)
    (hk : ∀ a, Carries f needs₂ last value' (k a) (k' (value a)))
    (h : needs₂ = true ∨ last₁ = true ∨ last = false) :
    Carries f (needs₁ || needs₂) last value' (x >>= k) (y >>= k') := by
  intro c b c' hrun hc
  obtain ⟨a, c₁, hx₁, hk₁⟩ := bind_eq_ok.1 hrun
  obtain ⟨hc₁, hempty₂, hy₂⟩ := hk a c₁ b c' hk₁ hc
  obtain ⟨hstart, hempty₁, hy₁⟩ := hx c a c₁ hx₁ hc₁
  refine ⟨hstart, fun hr => ?_, fun more hm => ?_⟩
  · obtain ⟨hn₁, hr₁⟩ := hempty₁ hr
    obtain ⟨hn₂, hr₂⟩ := hempty₂ hr₁
    exact ⟨by simp [hn₁, hn₂], hr₂⟩
  · have hfirst := hy₁ more fun hr₁ => by
      obtain ⟨hn₂, hr₂⟩ := hempty₂ hr₁
      obtain ⟨hlast, hmore⟩ := hm hr₂
      exact ⟨by simpa [hn₂, hlast] using h, hmore⟩
    rw [bind_of_ok hfirst]
    exact hy₂ more hm

theorem bind (hx : Carries f needs last₁ value x y)
    (hk : ∀ a, Carries f false false value' (k a) (k' (value a))) :
    Carries f needs false value' (x >>= k) (y >>= k') :=
  Bool.or_false needs ▸ hx.sequence hk (.inr (.inr rfl))

theorem bind_needs {needs₁ : Bool} (hx : Carries f needs₁ last₁ value x y)
    (hk : ∀ a, Carries f true last value' (k a) (k' (value a))) :
    Carries f true last value' (x >>= k) (y >>= k') :=
  Bool.or_true needs₁ ▸ hx.sequence hk (.inl rfl)

theorem bind_last (hx : Carries f needs true value x y)
    (hk : ∀ a, Carries f false last value' (k a) (k' (value a))) :
    Carries f needs last value' (x >>= k) (y >>= k') :=
  Bool.or_false needs ▸ hx.sequence hk (.inr (.inl rfl))

theorem map {g : α → α'} {g' : β → β'} (hx : Carries f needs last value x y)
    (h : ∀ a, g' (value a) = value' (g a)) :
    Carries f needs last value' (g <$> x) (g' <$> y) := by
  intro c b c' hrun hc
  change EStateM.map g x c = .ok b c' at hrun
  unfold EStateM.map at hrun
  cases hx₁ : x c with
  | error stop c₁ =>
    rw [hx₁] at hrun
    cases hrun
  | ok a c₁ =>
    rw [hx₁] at hrun
    cases hrun
    obtain ⟨hstart, hempty, hy⟩ := hx c a c' hx₁ hc
    refine ⟨hstart, hempty, fun more hm => ?_⟩
    change EStateM.map g' y _ = _
    unfold EStateM.map
    rw [hy more hm, ← h a]

theorem present (hx : Carries f needs last value x y) :
    Carries f needs last (Option.map value) (some <$> x) (some <$> y) :=
  hx.map fun _ => rfl

theorem accept (kinds : List Token.Kind) :
    Carries f false false (Option.map (Token.relined f)) (accept? kinds) (accept? kinds) := by
  intro c t? c' hx hc
  obtain ⟨ts, cs⟩ := c
  obtain ⟨t, mid, rfl, ht⟩ | hl := Gives.taken_or_lacks kinds ts
  · rw [Reads.accept ht cs] at hx
    cases hx
    exact ⟨hc, nofun, fun more _ => Reads.accept (show (t.relined f).kind ∈ kinds from ht) []⟩
  · rw [Reads.pass hl cs] at hx
    cases hx
    refine ⟨hc, fun hr => ⟨rfl, hr⟩, fun more hm => ?_⟩
    cases ts with
    | nil => exact absurd (hm rfl).1 (by simp)
    | cons t ts =>
      refine Reads.pass ?_ []
      exact .cons (show (t.relined f).kind ∉ kinds from hl t rfl)

theorem acceptElse :
    Carries f false true (Option.map (Token.relined f)) (accept? [.kwElse]) (accept? [.kwElse]) := by
  intro c t? c' hx hc
  obtain ⟨hstart, hempty, hy⟩ := Carries.accept (f := f) [.kwElse] c t? c' hx hc
  refine ⟨hstart, hempty, fun more hm => ?_⟩
  cases hr : c'.rest with
  | cons t ts =>
    rw [← hr]
    exact hy more fun h => by simp [hr] at h
  | nil =>
    obtain ⟨ts, cs⟩ := c
    obtain ⟨t, mid, rfl, ht⟩ | hl := Gives.taken_or_lacks [Token.Kind.kwElse] ts
    · rw [Reads.accept ht cs] at hx
      cases hx
      cases hr
      exact Reads.accept (show (t.relined f).kind ∈ _ from ht) []
    · rw [Reads.pass hl cs] at hx
      cases hx
      cases hr
      exact Reads.pass (hm rfl).2 []

/-- A token of one of some kinds starts what is read. -/
theorem accept_start {kinds : List Token.Kind} {k : Option Token → Reader α'}
    {k' : Option Token → Reader β'} (hnone : ∀ c a c', k none c ≠ .ok a c')
    (hsome : ∀ t, Carries f false last value' (k (some t)) (k' (some (t.relined f)))) :
    Carries f true last value' (accept? kinds >>= k) (accept? kinds >>= k') := by
  intro c a c' hrun hc
  obtain ⟨ts, cs⟩ := c
  obtain ⟨t, mid, rfl, ht⟩ | hl := Gives.taken_or_lacks kinds ts
  · rw [bind_of_ok (Reads.accept ht cs)] at hrun
    obtain ⟨hstart, -, hy⟩ := hsome t ⟨mid, cs⟩ a c' hrun hc
    refine ⟨hstart, nofun, fun more hm => ?_⟩
    have haccept : Reads (accept? kinds) (t.relined f :: (mid.map (Token.relined f) ++ more))
        (some (t.relined f)) (mid.map (Token.relined f) ++ more) := .accept ht
    exact (bind_of_ok (haccept [])).trans (hy more hm)
  · rw [bind_of_ok (Reads.pass hl cs)] at hrun
    exact absurd hrun (hnone _ a c')

theorem expect (kind : Token.Kind) (flaw : Flaw) :
    Carries f true true (Token.relined f) (Reader.expect kind flaw) (Reader.expect kind flaw) := by
  intro c t c' hx hc
  obtain ⟨ts, cs⟩ := c
  obtain ⟨u, mid, rfl, hu⟩ | hl := Gives.taken_or_lacks [kind] ts
  · have hkind := List.mem_singleton.1 hu
    rw [Reads.expect hkind cs] at hx
    cases hx
    exact ⟨hc, nofun, fun more _ => Reads.expect (show (t.relined f).kind = kind from hkind) []⟩
  · have hrefuse : Reader.expect kind flaw ⟨ts, cs⟩ = .error (.refused ⟨ts.head?, flaw⟩) ⟨ts, cs⟩ :=
      bind_of_ok (Reads.pass hl cs)
    rw [hrefuse] at hx
    cases hx

theorem next (kind : Token.Kind) : Carries f false false id (isNext kind) (isNext kind) := by
  intro c b c' hx hc
  cases hx
  refine ⟨hc, fun hr => ⟨rfl, hr⟩, fun more hm => ?_⟩
  obtain ⟨_ | ⟨t, ts⟩, cs⟩ := c
  · exact absurd (hm rfl).1 (by simp)
  · rfl

theorem atEnd : Carries f false false id Reader.atEnd Reader.atEnd := by
  intro c b c' hx hc
  cases hx
  refine ⟨hc, fun hr => ⟨rfl, hr⟩, fun more hm => ?_⟩
  obtain ⟨_ | ⟨t, ts⟩, cs⟩ := c
  · exact absurd (hm rfl).1 (by simp)
  · rfl

theorem limit (count : Nat) : Carries f false true id (Reader.limit count) (Reader.limit count) := by
  unfold Reader.limit
  by_cases h : 255 ≤ count
  · rw [if_pos h]
    refine .never fun c a c' hx => ?_
    cases hx
    simp
  · rw [if_neg h]
    exact .pure rfl

end Carries

/-! ### Lists -/

theorem carries_joinLeft {kinds : List Token.Kind} {join : Expr → Token → Expr → Expr}
    (hjoin : ∀ left op right,
      join (left.relined f) (op.relined f) (right.relined f) = (join left op right).relined f)
    {operand operand' : Reader Expr} (ho : Carries f true false (Expr.relined f) operand operand')
    (hb : bound ≤ bound') (left : Expr) :
    Carries f false false (Expr.relined f) (joinLeft kinds join operand bound left)
      (joinLeft kinds join operand' bound' (left.relined f)) := by
  induction bound generalizing bound' left with
  | zero => exact .never fun c a c' hx => by cases hx
  | succ bound ih =>
    obtain ⟨bound', rfl⟩ : ∃ n, bound' = n + 1 := ⟨bound' - 1, by omega⟩
    have hb := Nat.le_of_succ_le_succ hb
    refine (Carries.accept kinds).bind fun op? => ?_
    cases op? with
    | none => exact (Carries.pure rfl).weaken
    | some op =>
      refine (ho.bind fun right => ?_).weaken
      rw [hjoin]
      exact ih hb (join left op right)

theorem carries_level {kinds : List Token.Kind} {join : Expr → Token → Expr → Expr}
    (hjoin : ∀ left op right,
      join (left.relined f) (op.relined f) (right.relined f) = (join left op right).relined f)
    {operand operand' : Reader Expr} (ho : Carries f true false (Expr.relined f) operand operand')
    (hb : bound ≤ bound') :
    Carries f true false (Expr.relined f) (level bound kinds join operand)
      (level bound' kinds join operand') :=
  ho.bind fun left => carries_joinLeft hjoin ho hb left

theorem carries_params (hb : bound ≤ bound') (count : Nat) :
    Carries f true false (List.map (Token.relined f)) (params bound count) (params bound' count) := by
  induction bound generalizing bound' count with
  | zero => exact .never fun c a c' hx => by cases hx
  | succ bound ih =>
    obtain ⟨bound', rfl⟩ : ∃ n, bound' = n + 1 := ⟨bound' - 1, by omega⟩
    have hb := Nat.le_of_succ_le_succ hb
    refine (Carries.limit count).bind_needs fun _ => (Carries.expect _ _).bind fun p => ?_
    refine (Carries.accept _).bind fun comma? => ?_
    cases comma? with
    | none => exact (Carries.pure rfl).weaken
    | some _ =>
      refine ((ih hb _).bind fun ps => ?_).weaken
      exact (Carries.pure rfl).weaken

theorem carries_paramList (hb : bound ≤ bound') :
    Carries f false false (List.map (Token.relined f)) (paramList bound) (paramList bound') := by
  refine (Carries.next _).bind fun closed => ?_
  cases closed with
  | true => exact (Carries.pure rfl).weaken
  | false => exact (carries_params hb 0).weaken

theorem carries_arguments {x y : Reader Expr} (hx : Carries f true false (Expr.relined f) x y)
    (hb : bound ≤ bound') (count : Nat) :
    Carries f true false (Expr.relinedAll f) (arguments x bound count)
      (arguments y bound' count) := by
  induction bound generalizing bound' count with
  | zero => exact .never fun c a c' hx => by cases hx
  | succ bound ih =>
    obtain ⟨bound', rfl⟩ : ∃ n, bound' = n + 1 := ⟨bound' - 1, by omega⟩
    have hb := Nat.le_of_succ_le_succ hb
    refine (Carries.limit count).bind_needs fun _ => hx.bind fun e => ?_
    refine (Carries.accept _).bind fun comma? => ?_
    cases comma? with
    | none => exact (Carries.pure rfl).weaken
    | some _ =>
      refine ((ih hb _).bind fun es => ?_).weaken
      exact (Carries.pure rfl).weaken

theorem carries_declarations {y : Reader Stmt} (hx : Carries f true true (Stmt.relined f) x y)
    (hb : bound ≤ bound') :
    Carries f false false (Stmt.relinedAll f) (declarations x bound) (declarations y bound') := by
  induction bound generalizing bound' with
  | zero => exact .never fun c a c' hx => by cases hx
  | succ bound ih =>
    obtain ⟨bound', rfl⟩ : ∃ n, bound' = n + 1 := ⟨bound' - 1, by omega⟩
    have hb := Nat.le_of_succ_le_succ hb
    refine (Carries.next _).bind fun closed => Carries.atEnd.bind fun ended => ?_
    by_cases h : (closed || ended) = true
    · simp only [id_eq, h, if_true]
      exact (Carries.pure rfl).weaken
    · simp only [id_eq, h]
      refine (hx.bind fun s => (ih hb).bind fun ss => ?_).weaken
      exact (Carries.pure rfl).weaken

/-! ### Rules -/

/-- The rules of one grammar are carried by those of another one. -/
structure Carried (f : Nat → Nat) (g g' : Grammar) : Prop where
  expression : Carries f true false (Expr.relined f) g.expression g'.expression
  unary : Carries f true false (Expr.relined f) g.unary g'.unary
  statement : Carries f true true (Stmt.relined f) g.statement g'.statement
  declaration : Carries f true true (Stmt.relined f) g.declaration g'.declaration

section Rules

variable {g g' : Grammar} (hg : Carried f g g') {bound bound' : Nat} (hb : bound ≤ bound')

include hg hb

theorem carries_block :
    Carries f true true (Stmt.relinedAll f) (g.block bound) (g'.block bound') :=
  (carries_declarations hg.declaration hb).bind_needs fun _ =>
    (Carries.expect _ _).bind_last fun _ => .pure rfl

theorem carries_lambda : Carries f true true (Expr.relined f) (g.lambda bound) (g'.lambda bound') := by
  refine (Carries.expect _ _).bind_needs fun _ => (carries_paramList hb).bind_needs fun ps => ?_
  refine (Carries.expect _ _).bind_needs fun _ => (Carries.expect _ _).bind_needs fun _ => ?_
  exact (carries_block hg hb).bind_last fun body => .pure rfl

theorem carries_primary :
    Carries f true false (Expr.relined f) (g.primary bound) (g'.primary bound') := by
  refine .accept_start nofun fun t => ?_
  have hpure : ∀ {e e' : Expr}, e' = e.relined f →
      Carries f false false (Expr.relined f) (pure e) (pure e') := fun h => (Carries.pure h).weaken
  dsimp only
  rw [Token.kind_relined]
  split
  · exact hpure rfl
  · exact hpure rfl
  · exact hpure rfl
  · refine (Carries.expect _ _).weaken.bind fun _ => (Carries.expect _ _).weaken.bind fun method => ?_
    exact hpure rfl
  · exact hpure rfl
  · exact hpure rfl
  · refine hg.expression.weaken.bind fun e => (Carries.expect _ _).weaken.bind fun _ => ?_
    exact hpure rfl
  · exact (carries_lambda hg hb).weaken
  · exact hpure rfl

theorem carries_finishCall (callee : Expr) :
    Carries f true true (Expr.relined f) (g.finishCall bound callee)
      (g'.finishCall bound' (callee.relined f)) := by
  have hclose : ∀ args, Carries f true true (Expr.relined f)
      (do let paren ← Reader.expect .rightParen .argumentsClose
          return .call callee paren args)
      (do let paren ← Reader.expect .rightParen .argumentsClose
          return .call (callee.relined f) paren (Expr.relinedAll f args)) :=
    fun args => (Carries.expect _ _).bind_last fun paren => .pure rfl
  refine (Carries.next _).bind_needs fun closed => ?_
  cases closed with
  | true => exact hclose []
  | false => exact (carries_arguments hg.expression hb 0).bind_needs hclose

theorem carries_postfixes {steps steps' : Nat} (hs : steps ≤ steps') (e : Expr) :
    Carries f false false (Expr.relined f) (g.postfixes bound steps e)
      (g'.postfixes bound' steps' (e.relined f)) := by
  induction steps generalizing steps' e with
  | zero => exact .never fun c a c' hx => by cases hx
  | succ steps ih =>
    obtain ⟨steps', rfl⟩ : ∃ n, steps' = n + 1 := ⟨steps' - 1, by omega⟩
    have hs := Nat.le_of_succ_le_succ hs
    refine (Carries.accept _).bind fun t? => ?_
    cases t? with
    | none => exact (Carries.pure rfl).weaken
    | some t =>
      dsimp only [Option.map_some]
      rw [Token.kind_relined]
      split
      · exact (carries_finishCall hg hb e).weaken.bind fun e' => ih hs e'
      · exact (Carries.expect _ _).weaken.bind fun name => ih hs (.get e name)

theorem carries_call : Carries f true false (Expr.relined f) (g.call bound) (g'.call bound') :=
  (carries_primary hg hb).bind fun e => carries_postfixes hg hb hb e

theorem carries_unaryRule :
    Carries f true false (Expr.relined f) (g.unaryRule bound) (g'.unaryRule bound') := by
  refine (Carries.accept _).bind_needs fun op? => ?_
  cases op? with
  | none => exact carries_call hg hb
  | some op => exact hg.unary.bind fun right => (Carries.pure rfl).weaken

theorem carries_disjunction :
    Carries f true false (Expr.relined f) (g.disjunction bound) (g'.disjunction bound') := by
  have hbinary : ∀ left op right, Expr.binary (left.relined f) (op.relined f) (right.relined f) =
      (Expr.binary left op right).relined f := fun _ _ _ => rfl
  have hlogical : ∀ left op right, Expr.logical (left.relined f) (op.relined f) (right.relined f) =
      (Expr.logical left op right).relined f := fun _ _ _ => rfl
  have hfactor : Carries f true false (Expr.relined f) (g.factor bound) (g'.factor bound') :=
    carries_level hbinary (carries_unaryRule hg hb) hb
  have hterm : Carries f true false (Expr.relined f) (g.term bound) (g'.term bound') :=
    carries_level hbinary hfactor hb
  have hcomparison :
      Carries f true false (Expr.relined f) (g.comparison bound) (g'.comparison bound') :=
    carries_level hbinary hterm hb
  have hequality : Carries f true false (Expr.relined f) (g.equality bound) (g'.equality bound') :=
    carries_level hbinary hcomparison hb
  have hconjunction :
      Carries f true false (Expr.relined f) (g.conjunction bound) (g'.conjunction bound') :=
    carries_level hlogical hequality hb
  exact carries_level hlogical hconjunction hb

theorem carries_assignment :
    Carries f true false (Expr.relined f) (g.assignment bound) (g'.assignment bound') := by
  refine (carries_disjunction hg hb).bind fun target => (Carries.accept _).bind fun equals? => ?_
  cases equals? with
  | none => exact (Carries.pure rfl).weaken
  | some equals =>
    refine (hg.expression.bind fun value => ?_).weaken
    cases target with
    | «variable» name address => exact (Carries.pure rfl).weaken
    | get object name => exact (Carries.pure rfl).weaken
    | _ =>
      -- An invalid target leaves a complaint.
      refine .never fun c a c' hx => ?_
      cases hx
      simp

/-! ### Statements -/

theorem carries_expressionStmt :
    Carries f true true (Stmt.relined f) (g.expressionStmt bound) (g'.expressionStmt bound') := by
  refine (carries_assignment hg hb).bind_needs fun e => ?_
  exact (Carries.expect _ _).bind_last fun _ => .pure rfl

omit hb in
theorem carries_varDecl : Carries f true true (Stmt.relined f) g.varDecl g'.varDecl := by
  refine (Carries.expect _ _).bind_needs fun name => (Carries.accept _).bind_needs fun equal? => ?_
  cases equal? with
  | none => exact (Carries.expect _ _).bind_last fun _ => .pure rfl
  | some _ =>
    refine hg.expression.present.bind_needs fun init? => (Carries.expect _ _).bind_last fun _ => ?_
    cases init? <;> exact .pure rfl

omit hb in
theorem carries_condition (opening : Flaw) :
    Carries f true true (Expr.relined f) (g.condition opening) (g'.condition opening) := by
  refine (Carries.expect _ _).bind_needs fun _ => hg.expression.bind_needs fun e => ?_
  exact (Carries.expect _ _).bind_last fun _ => .pure rfl

omit hb in
theorem carries_ifStmt : Carries f true true (Stmt.relined f) g.ifStmt g'.ifStmt := by
  refine (carries_condition hg _).bind_needs fun c => hg.statement.bind_last fun onTrue => ?_
  refine Carries.acceptElse.bind_last fun else? => ?_
  cases else? with
  | none => exact .pure rfl
  | some _ =>
    refine (hg.statement.bind_last fun onFalse => ?_).forgetNeeds
    exact .pure rfl

omit hb in
theorem carries_whileStmt : Carries f true true (Stmt.relined f) g.whileStmt g'.whileStmt :=
  (carries_condition hg _).bind_needs fun _ => hg.statement.bind_last fun _ => .pure rfl

theorem carries_forInit :
    Carries f false false (Option.map (Stmt.relined f)) (g.forInit bound) (g'.forInit bound') := by
  refine (Carries.accept _).bind fun t? => ?_
  cases t? with
  | none => exact (carries_expressionStmt hg hb).present.weaken
  | some t =>
    dsimp only [Option.map_some]
    rw [Token.kind_relined]
    split
    · exact (Carries.pure rfl).weaken
    · exact (carries_varDecl hg).present.weaken

omit hb in
theorem carries_optional (stop : Token.Kind) :
    Carries f false false (Option.map (Expr.relined f)) (g.optional stop) (g'.optional stop) := by
  refine (Carries.next _).bind fun absent => ?_
  cases absent with
  | true => exact (Carries.pure rfl).weaken
  | false => exact hg.expression.present.weaken

omit hg hb in
theorem relined_desugarFor (init? : Option Stmt) (condition? increment? : Option Expr) (body : Stmt) :
    desugarFor (init?.map (Stmt.relined f)) (condition?.map (Expr.relined f))
        (increment?.map (Expr.relined f)) (body.relined f) =
      (desugarFor init? condition? increment? body).relined f := by
  cases init? <;> cases condition? <;> cases increment? <;> rfl

theorem carries_forStmt :
    Carries f true true (Stmt.relined f) (g.forStmt bound) (g'.forStmt bound') := by
  refine (Carries.expect _ _).bind_needs fun _ => (carries_forInit hg hb).bind_needs fun init? => ?_
  refine (carries_optional hg _).bind_needs fun condition? => ?_
  refine (Carries.expect _ _).bind_needs fun _ => ?_
  refine (carries_optional hg _).bind_needs fun increment? => ?_
  refine (Carries.expect _ _).bind_needs fun _ => hg.statement.bind_last fun body => ?_
  exact .pure (relined_desugarFor init? condition? increment? body)

theorem carries_statementRule :
    Carries f true true (Stmt.relined f) (g.statementRule bound) (g'.statementRule bound') := by
  refine (Carries.accept _).bind_needs fun t? => ?_
  cases t? with
  | none => exact carries_expressionStmt hg hb
  | some t =>
    dsimp only [Option.map_some]
    rw [Token.kind_relined]
    split
    · refine hg.expression.bind_needs fun e => (Carries.expect _ _).bind_last fun _ => ?_
      exact .pure rfl
    · exact (carries_block hg hb).bind_last fun body => .pure rfl
    · exact carries_ifStmt hg
    · exact carries_whileStmt hg
    · exact carries_forStmt hg hb
    · exact (Carries.expect _ _).bind_last fun _ => .pure rfl
    · refine (carries_optional hg _).bind_needs fun value? => ?_
      refine (Carries.expect _ _).bind_last fun _ => ?_
      cases value? <;> exact .pure rfl

/-! ### Declarations -/

theorem carries_function (role : Role) (isStatic : Bool) :
    Carries f true true (Function.relined f) (g.function bound role isStatic)
      (g'.function bound' role isStatic) := by
  refine (Carries.expect _ _).bind_needs fun name => (Carries.next _).bind_needs fun isGetter => ?_
  have hbody : ∀ ps : List Token, Carries f true true (Function.relined f)
      (do let _ ← Reader.expect .leftBrace (.functionBody role)
          return ⟨name, ps, ← g.block bound, isStatic, isGetter⟩)
      (do let _ ← Reader.expect .leftBrace (.functionBody role)
          return ⟨name.relined f, ps.map (Token.relined f), ← g'.block bound', isStatic, isGetter⟩) :=
    fun ps => (Carries.expect _ _).bind_needs fun _ =>
      (carries_block hg hb).bind_last fun body => .pure rfl
  cases isGetter with
  | true => exact hbody []
  | false =>
    refine (Carries.expect _ _).bind_needs fun _ => (carries_paramList hb).bind_needs fun ps => ?_
    exact (Carries.expect _ _).bind_needs fun _ => hbody ps

theorem carries_methods {steps steps' : Nat} (hs : steps ≤ steps') :
    Carries f false false (Function.relinedAll f) (g.methods bound steps)
      (g'.methods bound' steps') := by
  induction steps generalizing steps' with
  | zero => exact .never fun c a c' hx => by cases hx
  | succ steps ih =>
    obtain ⟨steps', rfl⟩ : ∃ n, steps' = n + 1 := ⟨steps' - 1, by omega⟩
    have hs := Nat.le_of_succ_le_succ hs
    refine (Carries.next _).bind fun closed => Carries.atEnd.bind fun ended => ?_
    by_cases h : (closed || ended) = true
    · simp only [id_eq, h, if_true]
      exact (Carries.pure rfl).weaken
    · simp only [id_eq, h]
      refine (Carries.accept _).bind fun static? => ?_
      rw [Option.isSome_map]
      refine ((carries_function hg hb _ _).bind fun m => (ih hs).bind fun ms => ?_).weaken
      exact (Carries.pure rfl).weaken

theorem carries_classDecl :
    Carries f true true (Stmt.relined f) (g.classDecl bound) (g'.classDecl bound') := by
  refine (Carries.expect _ _).bind_needs fun name => (Carries.accept _).bind_needs fun less? => ?_
  have hbody : ∀ superclass? : Option (Token × Address), Carries f true true (Stmt.relined f)
      (do let _ ← Reader.expect .leftBrace .classOpen
          let ms ← g.methods bound bound
          let _ ← Reader.expect .rightBrace .classClose
          return .classDecl name superclass? ms)
      (do let _ ← Reader.expect .leftBrace .classOpen
          let ms ← g'.methods bound' bound'
          let _ ← Reader.expect .rightBrace .classClose
          return .classDecl (name.relined f)
            (superclass?.map fun parent => (parent.1.relined f, parent.2)) ms) := by
    intro superclass?
    refine (Carries.expect _ _).bind_needs fun _ => (carries_methods hg hb hb).bind_needs fun ms => ?_
    exact (Carries.expect _ _).bind_last fun _ => .pure rfl
  cases less? with
  | none => exact hbody none
  | some _ => exact (Carries.expect _ _).bind_needs fun parent => hbody (some (parent, .free))

theorem carries_declared :
    Carries f true true (Stmt.relined f) (g.declared bound) (g'.declared bound') := by
  refine (Carries.accept _).bind_needs fun t? => ?_
  cases t? with
  | none => exact carries_statementRule hg hb
  | some t =>
    dsimp only [Option.map_some]
    rw [Token.kind_relined]
    split
    · exact carries_classDecl hg hb
    · exact (carries_function hg hb _ _).bind_last fun d => .pure rfl
    · exact carries_varDecl hg

theorem carries_declarationRule :
    Carries f true true (Stmt.relined f) (g.declarationRule bound) (g'.declarationRule bound') := by
  intro c s c' hx hc
  unfold declarationRule at hx
  cases hd : g.declared bound c with
  | ok s' c₁ =>
    rw [hd] at hx
    cases hx
    obtain ⟨hstart, hempty, hy⟩ := carries_declared hg hb c s c' hd hc
    refine ⟨hstart, hempty, fun more hm => ?_⟩
    unfold declarationRule
    rw [hy more hm]
  | error stop c₁ =>
    rw [hd] at hx
    cases stop with
    | refused complaint =>
      cases hx
      simp at hc
    | tooDeep => cases hx

theorem Carried.next : Carried f (g.next bound) (g'.next bound') where
  expression := carries_assignment hg hb
  unary := carries_unaryRule hg hb
  statement := carries_statementRule hg hb
  declaration := carries_declarationRule hg hb

end Rules

theorem carried_grammar {n n' : Nat} (h : n ≤ n') : Carried f (grammar n) (grammar n') := by
  induction n generalizing n' with
  | zero => exact ⟨.never nofun, .never nofun, .never nofun, .never nofun⟩
  | succ n ih =>
    obtain ⟨n', rfl⟩ : ∃ k, n' = k + 1 := ⟨n' - 1, by omega⟩
    exact (ih (Nat.le_of_succ_le_succ h)).next h

/-! ### Programs -/

theorem program_succ (x : Reader Stmt) (steps : Nat) (c : Cursor) :
    program x (steps + 1) c = if c.rest.isEmpty then .ok [] c else
      (do let s ← x
          return s :: (← program x steps)) c := by
  change (if c.rest.isEmpty = true then _ else _ : Reader _) c = _
  split <;> rfl

theorem rest_of_program (h : program x steps c = .ok ss c') : c'.rest = [] := by
  induction steps generalizing c ss with
  | zero => cases h
  | succ steps ih =>
    rw [program_succ] at h
    split at h
    · next hr =>
      cases h
      exact List.isEmpty_iff.1 hr
    · obtain ⟨s, c₁, -, h⟩ := bind_eq_ok.1 h
      obtain ⟨ss', c₂, hss, h⟩ := bind_eq_ok.1 h
      obtain ⟨-, rfl⟩ := pure_eq_ok.1 h
      exact ih hss

/-- Any token list is read to the end. -/
theorem program_eq (ts : List Token) :
    program (grammar (ts.length + 1)).declaration (ts.length + 1) ⟨ts, []⟩ =
      .ok (parse ts).statements ⟨[], (parse ts).complaints⟩ := by
  have hgives := gives_program (sound_grammar (ts.length + 1)) (Nat.lt_succ_self ts.length)
    (Nat.lt_succ_self ts.length)
  unfold parse
  dsimp only
  cases hrun : program (grammar (ts.length + 1)).declaration (ts.length + 1) ⟨ts, []⟩ with
  | ok ss c =>
    obtain ⟨rest, complaints⟩ := c
    obtain rfl : rest = [] := rest_of_program hrun
    rfl
  | error stop c =>
    cases stop with
    | refused complaint =>
      exact absurd hrun (program_ne_refused (fun _ _ _ => declarationRule_ne_refused) _)
    | tooDeep => exact (hgives.tooDeep hrun).elim

theorem program_of_complaints {ts : List Token} (h : (parse ts).complaints = []) :
    program (grammar (ts.length + 1)).declaration (ts.length + 1) ⟨ts, []⟩ =
      .ok (parse ts).statements ⟨[], []⟩ ∧
    Stmt.allOf Node.isPresent (parse ts).statements = true := by
  have hgives := gives_program (sound_grammar (ts.length + 1)) (Nat.lt_succ_self ts.length)
    (Nat.lt_succ_self ts.length)
  have hrun := program_eq ts
  rw [h] at hrun
  obtain ⟨new, hnew, -, hpost⟩ := hgives.ok hrun
  exact ⟨hrun, (hpost hnew.symm).2.present⟩

theorem program_mono {steps' : Nat} (hs : steps ≤ steps') (h : program x steps c = .ok ss c') :
    program x steps' c = .ok ss c' := by
  induction steps generalizing steps' c c' ss with
  | zero => cases h
  | succ steps ih =>
    obtain ⟨steps', rfl⟩ : ∃ n, steps' = n + 1 := ⟨steps' - 1, by omega⟩
    rw [program_succ] at h ⊢
    split at h
    · next hr => rw [if_pos hr, h]
    · next hr =>
      rw [if_neg hr]
      obtain ⟨s, c₁, hs₁, h⟩ := bind_eq_ok.1 h
      obtain ⟨ss', c₂, hss, h⟩ := bind_eq_ok.1 h
      rw [bind_of_ok hs₁, bind_of_ok (ih (Nat.le_of_succ_le_succ hs) hss), h]

theorem program_append {y : Reader Stmt} (hx : Carries f true true (Stmt.relined f) x y)
    {more : List Token} {ss' : List Stmt} {steps' total : Nat}
    (h : program x steps c = .ok ss ⟨[], []⟩) (h' : program y steps' ⟨more, []⟩ = .ok ss' c')
    (hm : Lacks [.kwElse] more) (ht : steps + steps' ≤ total + 1) :
    c.complaints = [] ∧ program y total ⟨c.rest.map (Token.relined f) ++ more, []⟩ =
      .ok (Stmt.relinedAll f ss ++ ss') c' := by
  induction steps generalizing c ss total with
  | zero => cases h
  | succ steps ih =>
    rw [program_succ] at h
    split at h
    · cases h
      exact ⟨rfl, program_mono (by omega) h'⟩
    · next hr =>
      obtain ⟨s, c₁, hs, h⟩ := bind_eq_ok.1 h
      obtain ⟨ss₁, c₂, hss, h⟩ := bind_eq_ok.1 h
      obtain ⟨rfl, rfl⟩ := pure_eq_ok.1 h
      have hsteps' : steps' ≠ 0 := by
        rintro rfl
        cases h'
      obtain ⟨total, rfl⟩ : ∃ n, total = n + 1 := ⟨total - 1, by omega⟩
      obtain ⟨hc₁, hrest⟩ := ih hss (show steps + steps' ≤ total + 1 by omega)
      obtain ⟨hc, -, hy⟩ := hx c s c₁ hs hc₁
      have hfirst := hy more fun _ => ⟨rfl, hm⟩
      have hne : (c.rest.map (Token.relined f) ++ more).isEmpty ≠ true := by
        cases hcr : c.rest with
        | nil => simp [hcr] at hr
        | cons t ts => simp
      refine ⟨hc, ?_⟩
      rw [program_succ, if_neg hne, bind_of_ok hfirst, bind_of_ok hrest]
      rfl

/-- Two programs that are read without complaint are read in a row, the second one on other lines. It
must not start with `else`, which would continue the first. -/
theorem parse_append {ts ts' : List Token} (h : (parse ts).complaints = [])
    (h' : (parse ts').complaints = []) (he : Lacks [.kwElse] ts') (f : Nat → Nat) :
    parse (ts ++ ts'.map (Token.relined f)) =
      ⟨(parse ts).statements ++ Stmt.relinedAll f (parse ts').statements, []⟩ := by
  have hlength : (ts ++ ts'.map (Token.relined f)).length + 1 = ts.length + ts'.length + 1 := by
    simp
  have hfirst := carried_grammar (f := id) (show ts.length + 1 ≤ ts.length + ts'.length + 1 by omega)
  have hsecond := carried_grammar (f := f) (show ts'.length + 1 ≤ ts.length + ts'.length + 1 by omega)
  have hempty : program (grammar (ts.length + ts'.length + 1)).declaration 1 ⟨[], []⟩ =
      .ok [] ⟨[], []⟩ := rfl
  have hmore := (program_append hsecond.declaration (program_of_complaints h').1 hempty .nil
    (Nat.le_refl (ts'.length + 1 + 1))).2
  have hlacks : Lacks [.kwElse] (ts'.map (Token.relined f) ++ []) := by
    cases ts' with
    | nil => exact .nil
    | cons t ts' => exact .cons (he t rfl)
  have hall := (program_append hfirst.declaration (program_of_complaints h).1 hmore hlacks
    (show ts.length + 1 + (ts'.length + 1) ≤ ts.length + ts'.length + 1 + 1 by omega)).2
  rw [Token.relined_id, List.map_id, List.append_nil, List.append_nil, Stmt.relinedAll_id] at hall
  rw [parse, hlength, hall]

end Lox.Tree
