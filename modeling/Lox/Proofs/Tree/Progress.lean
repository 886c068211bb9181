import Lox.Proofs.Tree.Join

/-!
# Reading any token list

Whatever tokens are read, well formed or not, every rule comes to an end at a place in the list, every
declaration consumes a token, and the bound on nesting never shows. So what is read after a program
without complaint is read as if it stood alone.

## Design notes

A rule with a bound and the same rule with a greater one are compared in `Extends`, rule by rule. That
the bound is not reached on fewer tokens is known from `Sound`, so that the two are equal there.
-/

namespace Lox.Tree

open Outcome Reader Grammar
open Token (mark)

variable {α β : Type}

variable {bound bound' : Nat} {y : Reader Stmt} {ts : List Token}

def left : EStateM.Result Stop Cursor α → List Token
  | .ok _ c => c.rest
  | .error _ c => c.rest

/-- The second reader ends as the first does, with the last of the tokens left, unless the first
reaches the bound on nesting. -/
def Extends (x y : Reader α) : Prop :=
  ∀ c, (∃ c', x c = .error .tooDeep c') ∨ y c = x c ∧ left (x c) <:+ c.rest

namespace Extends

variable {x y : Reader α} {f g : α → Reader β}

theorem tooDeep (y : Reader α) : Extends (throw .tooDeep) y := fun c => .inl ⟨c, rfl⟩

theorem same (h : ∀ c, left (x c) <:+ c.rest) : Extends x x := fun c => .inr ⟨rfl, h c⟩

theorem pure (a : α) : Extends (Pure.pure a) (Pure.pure a) := same fun _ => List.suffix_rfl

theorem refuse (flaw : Flaw) : Extends (Reader.refuse flaw : Reader α) (Reader.refuse flaw) :=
  same fun _ => List.suffix_rfl

theorem bind (hx : Extends x y) (hf : ∀ a, Extends (f a) (g a)) :
    Extends (x >>= f) (y >>= g) := by
  intro c
  obtain ⟨c', hc'⟩ | ⟨hy, hrest⟩ := hx c
  · exact .inl ⟨c', bind_of_error hc'⟩
  · cases hrun : x c with
    | error stop c₁ =>
      rw [hrun] at hy hrest
      rw [bind_of_error hrun, bind_of_error hy]
      exact .inr ⟨rfl, hrest⟩
    | ok a c₁ =>
      rw [hrun] at hy hrest
      rw [bind_of_ok hrun, bind_of_ok hy]
      exact (hf a c₁).imp_right fun h => ⟨h.1, h.2.trans hrest⟩

theorem map (h : α → β) (hx : Extends x y) : Extends (h <$> x) (h <$> y) := by
  rw [map_eq_pure_bind, map_eq_pure_bind]
  exact hx.bind fun a => pure (h a)

theorem accept (kinds : List Token.Kind) : Extends (accept? kinds) (accept? kinds) := by
  refine same fun ⟨ts, cs⟩ => ?_
  obtain ⟨t, mid, rfl, ht⟩ | hl := Gives.taken_or_lacks kinds ts
  · rw [Reads.accept ht cs]
    exact List.suffix_cons t mid
  · rw [Reads.pass hl cs]
    exact List.suffix_rfl

theorem expect (kind : Token.Kind) (flaw : Flaw) :
    Extends (Reader.expect kind flaw) (Reader.expect kind flaw) := by
  refine (accept [kind]).bind fun t? => ?_
  cases t? with
  | none => exact refuse flaw
  | some t => exact pure t

theorem next (kind : Token.Kind) : Extends (isNext kind) (isNext kind) :=
  same fun _ => List.suffix_rfl

theorem atEnd : Extends Reader.atEnd Reader.atEnd := same fun _ => List.suffix_rfl

theorem complain (token? : Option Token) (flaw : Flaw) :
    Extends (Reader.complain token? flaw) (Reader.complain token? flaw) :=
  same fun _ => List.suffix_rfl

theorem limit (count : Nat) : Extends (Reader.limit count) (Reader.limit count) := by
  unfold Reader.limit
  split
  · exact same fun _ => List.suffix_rfl
  · exact pure ()

end Extends

/-! ### Lists -/

theorem extends_joinLeft {kinds : List Token.Kind} {join : Expr → Token → Expr → Expr}
    {operand operand' : Reader Expr} (ho : Extends operand operand')
    (hb : bound ≤ bound') (e : Expr) :
    Extends (joinLeft kinds join operand bound e) (joinLeft kinds join operand' bound' e) := by
  induction bound generalizing bound' e with
  | zero => exact .tooDeep _
  | succ bound ih =>
    obtain ⟨bound', rfl⟩ : ∃ n, bound' = n + 1 := ⟨bound' - 1, by omega⟩
    refine (Extends.accept kinds).bind fun op? => ?_
    cases op? with
    | none => exact .pure e
    | some op => exact ho.bind fun right => ih (Nat.le_of_succ_le_succ hb) (join e op right)

theorem extends_level {kinds : List Token.Kind} {join : Expr → Token → Expr → Expr}
    {operand operand' : Reader Expr} (ho : Extends operand operand')
    (hb : bound ≤ bound') :
    Extends (level bound kinds join operand) (level bound' kinds join operand') :=
  ho.bind fun e => extends_joinLeft ho hb e

theorem extends_params (hb : bound ≤ bound') (count : Nat) :
    Extends (params bound count) (params bound' count) := by
  induction bound generalizing bound' count with
  | zero => exact .tooDeep _
  | succ bound ih =>
    obtain ⟨bound', rfl⟩ : ∃ n, bound' = n + 1 := ⟨bound' - 1, by omega⟩
    refine (Extends.limit count).bind fun _ => (Extends.expect _ _).bind fun p => ?_
    refine (Extends.accept _).bind fun comma? => ?_
    cases comma? with
    | none => exact .pure [p]
    | some _ => exact (ih (Nat.le_of_succ_le_succ hb) (count + 1)).bind fun ps => .pure (p :: ps)

theorem extends_paramList (hb : bound ≤ bound') : Extends (paramList bound) (paramList bound') := by
  refine (Extends.next _).bind fun closed => ?_
  cases closed with
  | true => exact .pure []
  | false => exact extends_params hb 0

theorem extends_arguments {x y : Reader Expr} (hx : Extends x y) (hb : bound ≤ bound') (count : Nat) :
    Extends (arguments x bound count) (arguments y bound' count) := by
  induction bound generalizing bound' count with
  | zero => exact .tooDeep _
  | succ bound ih =>
    obtain ⟨bound', rfl⟩ : ∃ n, bound' = n + 1 := ⟨bound' - 1, by omega⟩
    refine (Extends.limit count).bind fun _ => hx.bind fun e => ?_
    refine (Extends.accept _).bind fun comma? => ?_
    cases comma? with
    | none => exact .pure [e]
    | some _ => exact (ih (Nat.le_of_succ_le_succ hb) (count + 1)).bind fun es => .pure (e :: es)

theorem extends_declarations {x : Reader Stmt} (hx : Extends x y) (hb : bound ≤ bound') :
    Extends (declarations x bound) (declarations y bound') := by
  induction bound generalizing bound' with
  | zero => exact .tooDeep _
  | succ bound ih =>
    obtain ⟨bound', rfl⟩ : ∃ n, bound' = n + 1 := ⟨bound' - 1, by omega⟩
    refine (Extends.next _).bind fun closed => Extends.atEnd.bind fun ended => ?_
    cases closed || ended with
    | true => exact .pure []
    | false =>
      exact hx.bind fun s => (ih (Nat.le_of_succ_le_succ hb)).bind fun ss => .pure (s :: ss)

theorem extends_program {x : Reader Stmt} (hx : Extends x y) {steps steps' : Nat} (hs : steps ≤ steps') :
    Extends (program x steps) (program y steps') := by
  induction steps generalizing steps' with
  | zero => exact .tooDeep _
  | succ steps ih =>
    obtain ⟨steps', rfl⟩ : ∃ n, steps' = n + 1 := ⟨steps' - 1, by omega⟩
    refine Extends.atEnd.bind fun ended => ?_
    cases ended with
    | true => exact .pure []
    | false =>
      exact hx.bind fun s => (ih (Nat.le_of_succ_le_succ hs)).bind fun ss => .pure (s :: ss)

/-! ### Rules -/

/-- The rules of one grammar are extended by those of another one. -/
structure Extended (g g' : Grammar) : Prop where
  expression : Extends g.expression g'.expression
  unary : Extends g.unary g'.unary
  statement : Extends g.statement g'.statement
  declaration : Extends g.declaration g'.declaration

section Rules

variable {g g' : Grammar} (hg : Extended g g') {bound bound' : Nat} (hb : bound ≤ bound')

include hg hb

theorem extends_block : Extends (g.block bound) (g'.block bound') :=
  (extends_declarations hg.declaration hb).bind fun body =>
    (Extends.expect _ _).bind fun _ => .pure body

theorem extends_lambda : Extends (g.lambda bound) (g'.lambda bound') := by
  refine (Extends.expect _ _).bind fun _ => (extends_paramList hb).bind fun ps => ?_
  refine (Extends.expect _ _).bind fun _ => (Extends.expect _ _).bind fun _ => ?_
  exact (extends_block hg hb).bind fun body => .pure _

theorem extends_primary : Extends (g.primary bound) (g'.primary bound') := by
  refine (Extends.accept _).bind fun t? => ?_
  cases t? with
  | none => exact .refuse _
  | some t =>
    dsimp only
    split
    · exact .pure _
    · exact .pure _
    · exact .pure _
    · exact (Extends.expect _ _).bind fun _ => (Extends.expect _ _).bind fun _ => .pure _
    · exact .pure _
    · exact .pure _
    · exact hg.expression.bind fun _ => (Extends.expect _ _).bind fun _ => .pure _
    · exact extends_lambda hg hb
    · exact .pure _

theorem extends_finishCall (callee : Expr) :
    Extends (g.finishCall bound callee) (g'.finishCall bound' callee) := by
  refine (Extends.next _).bind fun closed => ?_
  have hclose : ∀ args : List Expr, Extends
      (do let paren ← Reader.expect .rightParen .argumentsClose
          return Expr.call callee paren args)
      (do let paren ← Reader.expect .rightParen .argumentsClose
          return Expr.call callee paren args) :=
    fun args => (Extends.expect _ _).bind fun paren => .pure _
  cases closed with
  | true => exact hclose []
  | false => exact (extends_arguments hg.expression hb 0).bind hclose

theorem extends_postfixes {steps steps' : Nat} (hs : steps ≤ steps') (e : Expr) :
    Extends (g.postfixes bound steps e) (g'.postfixes bound' steps' e) := by
  induction steps generalizing steps' e with
  | zero => exact .tooDeep _
  | succ steps ih =>
    obtain ⟨steps', rfl⟩ : ∃ n, steps' = n + 1 := ⟨steps' - 1, by omega⟩
    have hs := Nat.le_of_succ_le_succ hs
    refine (Extends.accept _).bind fun t? => ?_
    cases t? with
    | none => exact .pure e
    | some t =>
      dsimp only
      split
      · exact (extends_finishCall hg hb e).bind fun e' => ih hs e'
      · exact (Extends.expect _ _).bind fun name => ih hs (.get e name)

theorem extends_unaryRule : Extends (g.unaryRule bound) (g'.unaryRule bound') := by
  refine (Extends.accept _).bind fun op? => ?_
  cases op? with
  | some op => exact hg.unary.bind fun right => .pure _
  | none => exact (extends_primary hg hb).bind fun e => extends_postfixes hg hb hb e

theorem extends_disjunction : Extends (g.disjunction bound) (g'.disjunction bound') :=
  extends_level (extends_level (extends_level (extends_level (extends_level (extends_level
    (extends_unaryRule hg hb) hb) hb) hb) hb) hb) hb

theorem extends_assignment : Extends (g.assignment bound) (g'.assignment bound') := by
  refine (extends_disjunction hg hb).bind fun target => (Extends.accept _).bind fun equals? => ?_
  cases equals? with
  | none => exact .pure target
  | some equals =>
    refine hg.expression.bind fun value => ?_
    split
    · exact .pure _
    · exact .pure _
    · exact (Extends.complain _ _).bind fun _ => .pure target

/-! ### Statements -/

theorem extends_expressionStmt : Extends (g.expressionStmt bound) (g'.expressionStmt bound') :=
  (extends_assignment hg hb).bind fun _ => (Extends.expect _ _).bind fun _ => .pure _

omit hb in
theorem extends_varDecl : Extends g.varDecl g'.varDecl := by
  refine (Extends.expect _ _).bind fun name => (Extends.accept _).bind fun equal? => ?_
  have hend : ∀ init? : Option Expr, Extends
      (do let _ ← Reader.expect .semicolon .variableEnd
          return Stmt.varDecl name init?)
      (do let _ ← Reader.expect .semicolon .variableEnd
          return Stmt.varDecl name init?) :=
    fun init? => (Extends.expect _ _).bind fun _ => .pure _
  cases equal? with
  | none => exact hend none
  | some _ => exact (hg.expression.map some).bind hend

omit hb in
theorem extends_condition (opening : Flaw) :
    Extends (g.condition opening) (g'.condition opening) :=
  (Extends.expect _ _).bind fun _ => hg.expression.bind fun e =>
    (Extends.expect _ _).bind fun _ => .pure e

omit hb in
theorem extends_ifStmt : Extends g.ifStmt g'.ifStmt := by
  refine (extends_condition hg _).bind fun c => hg.statement.bind fun onTrue => ?_
  refine (Extends.accept _).bind fun else? => ?_
  cases else? with
  | none => exact .pure _
  | some _ => exact hg.statement.bind fun onFalse => .pure _

omit hb in
theorem extends_whileStmt : Extends g.whileStmt g'.whileStmt :=
  (extends_condition hg _).bind fun _ => hg.statement.bind fun _ => .pure _

theorem extends_forInit : Extends (g.forInit bound) (g'.forInit bound') := by
  refine (Extends.accept _).bind fun t? => ?_
  cases t? with
  | none => exact (extends_expressionStmt hg hb).map some
  | some t =>
    dsimp only
    split
    · exact .pure none
    · exact (extends_varDecl hg).map some

omit hb in
theorem extends_optional (stop : Token.Kind) : Extends (g.optional stop) (g'.optional stop) := by
  refine (Extends.next _).bind fun absent => ?_
  cases absent with
  | true => exact .pure none
  | false => exact hg.expression.map some

theorem extends_forStmt : Extends (g.forStmt bound) (g'.forStmt bound') := by
  refine (Extends.expect _ _).bind fun _ => (extends_forInit hg hb).bind fun init? => ?_
  refine (extends_optional hg _).bind fun condition? => (Extends.expect _ _).bind fun _ => ?_
  refine (extends_optional hg _).bind fun increment? => (Extends.expect _ _).bind fun _ => ?_
  exact hg.statement.bind fun body => .pure (desugarFor init? condition? increment? body)

theorem extends_statementRule : Extends (g.statementRule bound) (g'.statementRule bound') := by
  refine (Extends.accept _).bind fun t? => ?_
  cases t? with
  | none => exact extends_expressionStmt hg hb
  | some t =>
    dsimp only
    split
    · exact hg.expression.bind fun e => (Extends.expect _ _).bind fun _ => .pure _
    · exact (extends_block hg hb).bind fun body => .pure _
    · exact extends_ifStmt hg
    · exact extends_whileStmt hg
    · exact extends_forStmt hg hb
    · exact (Extends.expect _ _).bind fun _ => .pure _
    · exact (extends_optional hg _).bind fun value? =>
        (Extends.expect _ _).bind fun _ => .pure _

/-! ### Declarations -/

theorem extends_function (role : Role) (isStatic : Bool) :
    Extends (g.function bound role isStatic) (g'.function bound' role isStatic) := by
  refine (Extends.expect _ _).bind fun name => (Extends.next _).bind fun isGetter => ?_
  have hbody : ∀ ps : List Token, Extends
      (do let _ ← Reader.expect .leftBrace (.functionBody role)
          return (⟨name, ps, ← g.block bound, isStatic, isGetter⟩ : Function))
      (do let _ ← Reader.expect .leftBrace (.functionBody role)
          return (⟨name, ps, ← g'.block bound', isStatic, isGetter⟩ : Function)) :=
    fun ps => (Extends.expect _ _).bind fun _ => (extends_block hg hb).bind fun _ => .pure _
  cases isGetter with
  | true => exact hbody []
  | false =>
    refine (Extends.expect _ _).bind fun _ => (extends_paramList hb).bind fun ps => ?_
    exact (Extends.expect _ _).bind fun _ => hbody ps

theorem extends_methods {steps steps' : Nat} (hs : steps ≤ steps') :
    Extends (g.methods bound steps) (g'.methods bound' steps') := by
  induction steps generalizing steps' with
  | zero => exact .tooDeep _
  | succ steps ih =>
    obtain ⟨steps', rfl⟩ : ∃ n, steps' = n + 1 := ⟨steps' - 1, by omega⟩
    refine (Extends.next _).bind fun closed => Extends.atEnd.bind fun ended => ?_
    cases closed || ended with
    | true => exact .pure []
    | false =>
      refine (Extends.accept _).bind fun static? => ?_
      refine (extends_function hg hb .method static?.isSome).bind fun m => ?_
      exact (ih (Nat.le_of_succ_le_succ hs)).bind fun ms => .pure (m :: ms)

theorem extends_classDecl : Extends (g.classDecl bound) (g'.classDecl bound') := by
  refine (Extends.expect _ _).bind fun name => (Extends.accept _).bind fun less? => ?_
  have hbody : ∀ superclass? : Option (Token × Address), Extends
      (do let _ ← Reader.expect .leftBrace .classOpen
          let ms ← g.methods bound bound
          let _ ← Reader.expect .rightBrace .classClose
          return Stmt.classDecl name superclass? ms)
      (do let _ ← Reader.expect .leftBrace .classOpen
          let ms ← g'.methods bound' bound'
          let _ ← Reader.expect .rightBrace .classClose
          return Stmt.classDecl name superclass? ms) := by
    intro superclass?
    refine (Extends.expect _ _).bind fun _ => (extends_methods hg hb hb).bind fun ms => ?_
    exact (Extends.expect _ _).bind fun _ => .pure _
  cases less? with
  | none => exact hbody none
  | some _ => exact (Extends.expect _ _).bind fun parent => hbody (some (parent, .free))

theorem extends_declared : Extends (g.declared bound) (g'.declared bound') := by
  refine (Extends.accept _).bind fun t? => ?_
  cases t? with
  | none => exact extends_statementRule hg hb
  | some t =>
    dsimp only
    split
    · exact extends_classDecl hg hb
    · exact (extends_function hg hb .function false).bind fun d => .pure _
    · exact extends_varDecl hg

omit hg hb in
theorem resume_suffix (last : Token) (ts : List Token) : resume last ts <:+ ts := by
  induction ts generalizing last with
  | nil => exact List.suffix_rfl
  | cons t ts ih =>
    unfold resume
    split
    · exact List.suffix_rfl
    · exact (ih t).trans (List.suffix_cons t ts)

omit hg hb in
theorem recover_suffix (ts : List Token) : recover ts <:+ ts := by
  cases ts with
  | nil => exact List.suffix_rfl
  | cons t ts => exact (resume_suffix t ts).trans (List.suffix_cons t ts)

theorem extends_declarationRule :
    Extends (g.declarationRule bound) (g'.declarationRule bound') := by
  intro c
  unfold declarationRule
  obtain ⟨c', hc'⟩ | ⟨hy, hrest⟩ := extends_declared hg hb c
  · exact .inl ⟨c', by rw [hc']⟩
  · rw [hy]
    refine .inr ⟨rfl, ?_⟩
    cases hrun : g.declared bound c with
    | ok s c₁ =>
      rw [hrun] at hrest
      exact hrest
    | error stop c₁ =>
      rw [hrun] at hrest
      cases stop with
      | refused complaint => exact (recover_suffix c₁.rest).trans hrest
      | tooDeep => exact hrest

theorem Extended.next : Extended (g.next bound) (g'.next bound') where
  expression := extends_assignment hg hb
  unary := extends_unaryRule hg hb
  statement := extends_statementRule hg hb
  declaration := extends_declarationRule hg hb

end Rules

theorem extended_grammar {n n' : Nat} (h : n ≤ n') : Extended (grammar n) (grammar n') := by
  induction n generalizing n' with
  | zero => exact ⟨.tooDeep _, .tooDeep _, .tooDeep _, .tooDeep _⟩
  | succ n ih =>
    obtain ⟨n', rfl⟩ : ∃ k, n' = k + 1 := ⟨n' - 1, by omega⟩
    exact (ih (Nat.le_of_succ_le_succ h)).next h

/-! ### Rules without a bound -/

/-- A reader for every depth, of which a greater one changes nothing, and one that is greater than the
number of tokens is not reached. -/
structure Deepens (x : Nat → Reader α) : Prop where
  extends_of_le : ∀ {n n' : Nat}, n ≤ n' → Extends (x n) (x n')
  settles : ∀ {n : Nat} {c c' : Cursor}, c.rest.length < n → x n c ≠ .error .tooDeep c'

/-- The reader that may go as deep as there are tokens. -/
def closed (x : Nat → Reader α) : Reader α := fun c => x (c.rest.length + 1) c

/-- The reader ends with a result or a refusal, wherever in the list it starts, and what is left are
the tokens from a place on that is not before. -/
def StaysIn (ts : List Token) (x : Reader α) : Prop :=
  ∀ i cs, i ≤ ts.length → ∃ j cs', i ≤ j ∧ j ≤ ts.length ∧
    ((∃ a, x ⟨ts.drop i, cs⟩ = .ok a ⟨ts.drop j, cs'⟩) ∨
      ∃ complaint, x ⟨ts.drop i, cs⟩ = .error (.refused complaint) ⟨ts.drop j, cs'⟩)

theorem exists_drop_of_suffix {rest : List Token} {i : Nat} (hi : i ≤ ts.length)
    (h : rest <:+ ts.drop i) : ∃ j, i ≤ j ∧ j ≤ ts.length ∧ rest = ts.drop j := by
  obtain ⟨taken, htaken⟩ := h
  have hlength := congrArg List.length htaken
  rw [List.length_append, List.length_drop] at hlength
  refine ⟨i + taken.length, Nat.le_add_right _ _, by omega, ?_⟩
  rw [← List.drop_drop, ← htaken, List.drop_left]

namespace Deepens

variable {x : Nat → Reader α} (h : Deepens x)

include h

theorem eq_closed {n : Nat} {c : Cursor} (hn : c.rest.length < n) : x n c = closed x c := by
  obtain ⟨c', hc'⟩ | ⟨heq, -⟩ := h.extends_of_le (Nat.succ_le_of_lt hn) c
  · exact absurd hc' (h.settles (Nat.lt_succ_self _))
  · exact heq

theorem extends_closed (n : Nat) : Extends (x n) (closed x) := by
  intro c
  obtain hn | hn := Nat.lt_or_ge c.rest.length n
  · exact (h.extends_of_le (Nat.le_refl n) c).imp_right fun hr => ⟨(h.eq_closed hn).symm, hr.2⟩
  · exact h.extends_of_le (Nat.le_succ_of_le hn) c

theorem staysIn (ts : List Token) : StaysIn ts (closed x) := by
  intro i cs hi
  obtain ⟨c', hc'⟩ | ⟨-, hrest⟩ :=
    h.extends_of_le (Nat.le_refl ((ts.drop i).length + 1)) ⟨ts.drop i, cs⟩
  · exact absurd hc' (h.settles (Nat.lt_succ_self _))
  change left (closed x ⟨ts.drop i, cs⟩) <:+ ts.drop i at hrest
  obtain ⟨j, hij, hj, hleft⟩ := exists_drop_of_suffix hi hrest
  cases hrun : closed x ⟨ts.drop i, cs⟩ with
  | ok a c =>
    obtain ⟨rest, cs'⟩ := c
    rw [hrun] at hleft
    obtain rfl : rest = ts.drop j := hleft
    exact ⟨j, cs', hij, hj, .inl ⟨a, rfl⟩⟩
  | error stop c =>
    obtain ⟨rest, cs'⟩ := c
    rw [hrun] at hleft
    obtain rfl : rest = ts.drop j := hleft
    cases stop with
    | refused complaint => exact ⟨j, cs', hij, hj, .inr ⟨complaint, rfl⟩⟩
    | tooDeep => exact absurd hrun (h.settles (Nat.lt_succ_self _))

end Deepens

theorem deepens_expression : Deepens fun n => (grammar n).expression where
  extends_of_le h := (extended_grammar h).expression
  settles h := ((sound_grammar _).expression _ h).tooDeep

theorem deepens_unary : Deepens fun n => (grammar n).unary where
  extends_of_le h := (extended_grammar h).unary
  settles h := ((sound_grammar _).unary _ h).tooDeep

theorem deepens_statement : Deepens fun n => (grammar n).statement where
  extends_of_le h := (extended_grammar h).statement
  settles h := ((sound_grammar _).statement _ h).tooDeep

theorem declaration_ne_tooDeep {n : Nat} {c c' : Cursor} (h : c.rest.length < n) :
    (grammar n).declaration c ≠ .error .tooDeep c' := by
  cases n with
  | zero => exact absurd h (Nat.not_lt_zero _)
  | succ n =>
    have hgives := gives_declared (sound_grammar n) (Nat.le_of_lt_succ h) (Nat.lt_succ_self n)
    change declarationRule (grammar n) (n + 1) c ≠ _
    unfold declarationRule
    split
    · exact nofun
    · exact hgives.tooDeep

theorem deepens_declaration : Deepens fun n => (grammar n).declaration where
  extends_of_le h := (extended_grammar h).declaration
  settles := declaration_ne_tooDeep

/-- The rules with as many levels of nesting as there are tokens. -/
def unbounded : Grammar where
  expression := closed fun n => (grammar n).expression
  unary := closed fun n => (grammar n).unary
  statement := closed fun n => (grammar n).statement
  declaration := closed fun n => (grammar n).declaration

theorem extended_unbounded (n : Nat) : Extended (grammar n) unbounded where
  expression := deepens_expression.extends_closed n
  unary := deepens_unary.extends_closed n
  statement := deepens_statement.extends_closed n
  declaration := deepens_declaration.extends_closed n

/-- The rules of two grammars end alike at a cursor. -/
structure AgreeAt (g g' : Grammar) (c : Cursor) : Prop where
  expression : g.expression c = g'.expression c
  unary : g.unary c = g'.unary c
  statement : g.statement c = g'.statement c
  declaration : g.declaration c = g'.declaration c

theorem unbounded_next {c : Cursor} (h : c.rest.length < bound) :
    AgreeAt (unbounded.next bound) unbounded c := by
  have hnext := (extended_unbounded c.rest.length).next (Nat.succ_le_of_lt h)
  have hlt := Nat.lt_succ_self c.rest.length
  constructor
  · exact ((hnext.expression c).resolve_left fun ⟨_, he⟩ => deepens_expression.settles hlt he).1
  · exact ((hnext.unary c).resolve_left fun ⟨_, he⟩ => deepens_unary.settles hlt he).1
  · exact ((hnext.statement c).resolve_left fun ⟨_, he⟩ => deepens_statement.settles hlt he).1
  · exact ((hnext.declaration c).resolve_left fun ⟨_, he⟩ => deepens_declaration.settles hlt he).1

/-! ### Programs -/

/-- A program is read in the same way with any greater bounds. -/
theorem program_of_extends {steps : Nat} (hy : Extends (grammar (ts.length + 1)).declaration y)
    (hs : ts.length < steps) :
    program y steps ⟨ts, []⟩ = .ok (parse ts).statements ⟨[], (parse ts).complaints⟩ := by
  have hrun := program_eq ts
  obtain ⟨c', hc'⟩ | ⟨heq, -⟩ := extends_program hy (Nat.succ_le_of_lt hs) ⟨ts, []⟩
  · rw [hrun] at hc'
    cases hc'
  · rw [heq, hrun]

/-- A declaration consumes a token where there is one. -/
theorem declaration_progress {i : Nat} (cs : List Complaint) (hi : i < ts.length) :
    ∃ s j new, i < j ∧ j ≤ ts.length ∧
      unbounded.declaration ⟨ts.drop i, cs⟩ = .ok s ⟨ts.drop j, cs ++ new⟩ := by
  have hne : ts.drop i ≠ [] := by
    rw [Ne, List.drop_eq_nil_iff]
    omega
  have hgives := (sound_grammar ((ts.drop i).length + 1)).declaration (ts.drop i)
    (Nat.lt_succ_self _) hne
  obtain ⟨j, cs', hij, hj, ⟨s, hrun⟩ | ⟨complaint, hrun⟩⟩ :=
    deepens_declaration.staysIn ts i cs (Nat.le_of_lt hi)
  · obtain ⟨new, rfl, hlength, -⟩ := hgives.ok hrun
    rw [List.length_drop, List.length_drop] at hlength
    exact ⟨s, j, new, by omega, hj, hrun⟩
  · exact absurd hrun declarationRule_ne_refused

/-- Any token list is read to its end, and no refusal is left over. Wherever in the list a rule
starts, it ends at a place of the list; a declaration that starts before the end always has a result,
and the place at which it ends is later. The rules are those without a bound on nesting: they refer to
themselves, and no list in them is longer than there are tokens. -/
theorem parse_progress (ts : List Token) :
    (∀ steps, ts.length < steps → program unbounded.declaration steps ⟨ts, []⟩ =
      .ok (parse ts).statements ⟨[], (parse ts).complaints⟩) ∧
    (∀ i cs, i < ts.length → ∃ s j new, i < j ∧ j ≤ ts.length ∧
      unbounded.declaration ⟨ts.drop i, cs⟩ = .ok s ⟨ts.drop j, cs ++ new⟩) ∧
    (StaysIn ts unbounded.expression ∧ StaysIn ts unbounded.unary ∧
      StaysIn ts unbounded.statement ∧ StaysIn ts unbounded.declaration) ∧
    ∀ bound c, c.rest.length < bound → AgreeAt (unbounded.next bound) unbounded c := by
  refine ⟨fun steps hs => ?_, fun i cs hi => declaration_progress cs hi, ⟨?_, ?_, ?_, ?_⟩,
    fun bound c h => unbounded_next h⟩
  · exact program_of_extends (extended_unbounded _).declaration hs
  · exact deepens_expression.staysIn ts
  · exact deepens_unary.staysIn ts
  · exact deepens_statement.staysIn ts
  · exact deepens_declaration.staysIn ts

/-- A refusal in a block that is not closed: the declaration goes on at the end, and the block is refused
there. -/
example : parse [mark .leftBrace, mark .kwVar, mark .rightParen, mark .semicolon] =
    ⟨[.gap], [⟨some (mark .rightParen), .variableName⟩, ⟨none, .blockClose⟩]⟩ := by
  rfl

/-- After a program that is read without complaint, any tokens are read as if they stood alone, with
their own complaints. They must not start with `else`, which would continue the program. -/
theorem parse_append_any {ts ts' : List Token} (h : (parse ts).complaints = [])
    (he : ∀ t ∈ ts'.head?, t.kind ≠ .kwElse) :
    parse (ts ++ ts') =
      ⟨(parse ts).statements ++ (parse ts').statements, (parse ts').complaints⟩ := by
  have hlength : (ts ++ ts').length + 1 = ts.length + ts'.length + 1 := by simp
  have hfirst := carried_grammar (f := id) (show ts.length + 1 ≤ ts.length + ts'.length + 1 by omega)
  have hsecond := extended_grammar (show ts'.length + 1 ≤ ts.length + ts'.length + 1 by omega)
  have hmore := program_of_extends hsecond.declaration (Nat.lt_succ_self ts'.length)
  have hlacks : Lacks [.kwElse] ts' := fun t ht hmem => he t ht (List.mem_singleton.1 hmem)
  have hall := (program_append hfirst.declaration (program_of_complaints h).1 hmore hlacks
    (show ts.length + 1 + (ts'.length + 1) ≤ ts.length + ts'.length + 1 + 1 by omega)).2
  rw [Token.relined_id, List.map_id, Stmt.relinedAll_id] at hall
  rw [parse, hlength, hall]

/-- A conditional that an `else` could continue. -/
def openConditional : List Token :=
  [mark .kwIf, mark .leftParen, .ident "a" 1, mark .rightParen, mark .kwPrint, mark .kwNil,
    mark .semicolon]

def namelessVariable : List Token :=
  [mark .kwVar, mark .equal, mark .kwNil, mark .semicolon, mark .kwPrint, mark .kwNil, mark .semicolon]

theorem parse_append_any_nameless : (parse openConditional).complaints = [] ∧
    (∀ t ∈ namelessVariable.head?, t.kind ≠ .kwElse) ∧
    parse namelessVariable =
      ⟨[.gap, .print (.literal .nil)], [⟨some (mark .equal), .variableName⟩]⟩ ∧
    parse (openConditional ++ namelessVariable) =
      ⟨(parse openConditional).statements ++ (parse namelessVariable).statements,
        (parse namelessVariable).complaints⟩ := by
  have hread : (parse openConditional).complaints = [] := by decide +kernel
  have hstart : ∀ t ∈ namelessVariable.head?, t.kind ≠ .kwElse := by decide
  exact ⟨hread, hstart, rfl, parse_append_any hread hstart⟩

end Lox.Tree
