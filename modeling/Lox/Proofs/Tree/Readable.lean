import Lox.Proofs.Nested
import Lox.Proofs.Outcome
import Lox.Tree.Parse

/-!
# The forms that reading yields

Whatever tokens are read, declarations stand in statement lists only, getters have no parameters,
and no node names a method of the superclass. The variables of a tree are called by names that are
among the tokens.
-/

namespace Lox

/-- Whether a node is readable and the variable it is about, if there is one, is called by a good
name. -/
def Node.isNamed (good : Token → Bool) (node : Node) : Bool := node.isReadable && node.name?.all good

def Node.words : Node → List (Token.Kind × Token)
  | .expr (.variable name _) => [(.identifier, name)]
  | .expr (.assign name _ _) => [(.identifier, name)]
  | .expr (.lambda params _) => params.map (.identifier, ·)
  | .expr (.this keyword _) => [(.kwThis, keyword)]
  | .expr (.inner keyword _ _) => [(.kwInner, keyword)]
  | .stmt (.varDecl name _) => [(.identifier, name)]
  | .stmt (.funDecl f) => (.identifier, f.name) :: f.params.map (.identifier, ·)
  | .stmt (.classDecl name superclass? methods) =>
    (.identifier, name) :: (superclass?.toList.map fun entry => (.identifier, entry.1)) ++
      methods.flatMap fun f => f.params.map (.identifier, ·)
  | _ => []

def Token.isWord (good : Token → Bool) (word : Token.Kind × Token) : Bool :=
  word.2.kind = word.1 && good word.2

def Node.isWorded (good : Token → Bool) (node : Node) : Bool :=
  node.isReadable && node.words.all (Token.isWord good)

/-- Whether the operator or keyword of a node is a good token of the right kind, and its variable has no
address yet. -/
def Node.isSigned (good : Token → Bool) : Node → Bool
  | .expr (.unary op _) => [.bang, .minus].contains op.kind && good op
  | .expr (.binary _ op _) =>
    [.slash, .star, .minus, .plus, .greater, .greaterEqual, .less, .lessEqual, .bangEqual,
      .equalEqual].contains op.kind && good op
  | .expr (.logical _ op _) => [.kwAnd, .kwOr].contains op.kind && good op
  | .expr (.variable _ address) | .expr (.assign _ address _) => address = .free
  | .expr (.call _ paren _) => Token.isWord good (.rightParen, paren)
  | .stmt (.breakStmt keyword) => Token.isWord good (.kwBreak, keyword)
  | .stmt (.returnStmt keyword _) => Token.isWord good (.kwReturn, keyword)
  | _ => true

def Node.isBuilt (good : Token → Bool) (node : Node) : Bool := node.isWorded good && node.isSigned good

namespace Tree

open Outcome Reader Grammar

variable {good : Token → Bool}

variable {kinds : List Token.Kind} {e : Expr} {tokens : List Token}

/-- The reader leaves good tokens behind if it starts with good ones, and then every result has a
property. -/
def Yields {α : Type} (good : Token → Bool) (x : Reader α) (p : α → Prop) : Prop :=
  ∀ c, (∀ t ∈ c.rest, good t = true) →
    match x c with
    | .ok a c' => (∀ t ∈ c'.rest, good t = true) ∧ p a
    | .error _ c' => ∀ t ∈ c'.rest, good t = true

namespace Yields

variable {α β : Type} {x : Reader α} {f : α → Reader β} {p : α → Prop} {q : β → Prop}

variable {flaw : Flaw}

theorem ok (h : Yields good x p) {c c' : Cursor} {a : α} (hc : ∀ t ∈ c.rest, good t = true)
    (hx : x c = .ok a c') : (∀ t ∈ c'.rest, good t = true) ∧ p a := by
  have hr := h c hc
  rwa [hx] at hr

theorem error (h : Yields good x p) {c c' : Cursor} {e : Stop} (hc : ∀ t ∈ c.rest, good t = true)
    (hx : x c = .error e c') : ∀ t ∈ c'.rest, good t = true := by
  have hr := h c hc
  rwa [hx] at hr

theorem pure {a : α} (h : p a) : Yields good (Pure.pure a) p := fun _ hc => ⟨hc, h⟩

theorem bind (hx : Yields good x p) (hf : ∀ a, p a → Yields good (f a) q) :
    Yields good (x >>= f) q := by
  intro c hc
  cases hr : x c with
  | ok a c' =>
    obtain ⟨hc', ha⟩ := hx.ok hc hr
    rw [bind_of_ok hr]
    exact hf a ha c' hc'
  | error e c' =>
    rw [bind_of_error hr]
    exact hx.error hc hr

theorem map {g : α → β} (hx : Yields good x p) (hg : ∀ a, p a → q (g a)) :
    Yields good (g <$> x) q := by
  rw [map_eq_pure_bind]
  exact hx.bind fun a ha => .pure (hg a ha)

theorem throw {e : Stop} : Yields good (MonadExcept.throw e : Reader α) p := fun _ hc => hc

theorem refuse : Yields good (Reader.refuse flaw : Reader α) p := fun _ hc => hc

theorem mono {p' : α → Prop} (h : Yields good x p) (hp : ∀ a, p a → p' a) : Yields good x p' := by
  intro c hc
  cases hr : x c with
  | ok a c' => exact ⟨(h.ok hc hr).1, hp a (h.ok hc hr).2⟩
  | error e c' => exact h.error hc hr

/-! #### Readers of single tokens -/

theorem accept (kinds : List Token.Kind) :
    Yields good (accept? kinds) fun t? => ∀ t ∈ t?, t.kind ∈ kinds ∧ good t = true := by
  rintro ⟨rest, complaints⟩ hc
  cases rest with
  | nil => exact ⟨hc, by simp⟩
  | cons t rest =>
    have hrest : ∀ u ∈ rest, good u = true := fun u hu => hc u (List.mem_cons_of_mem _ hu)
    by_cases hk : kinds.contains t.kind = true
    · have hr : accept? kinds ⟨t :: rest, complaints⟩ = .ok (some t) ⟨rest, complaints⟩ := by
        change (if kinds.contains t.kind = true then _ else _ : Reader _) _ = _
        rw [if_pos hk]
        rfl
      rw [hr]
      refine ⟨hrest, ?_⟩
      rintro _ ⟨⟩
      exact ⟨by simpa using hk, hc t (by simp)⟩
    · have hr : accept? kinds ⟨t :: rest, complaints⟩ = .ok none ⟨t :: rest, complaints⟩ := by
        change (if kinds.contains t.kind = true then _ else _ : Reader _) _ = _
        rw [if_neg hk]
        rfl
      rw [hr]
      exact ⟨hc, by simp⟩

theorem expect (kind : Token.Kind) (flaw : Flaw) :
    Yields good (Reader.expect kind flaw) fun t => t.kind = kind ∧ good t = true := by
  refine (accept [kind]).bind fun t? ht => ?_
  cases t? with
  | none => exact refuse
  | some t => exact pure ⟨by simpa using (ht t rfl).1, (ht t rfl).2⟩

/-- A reader that goes on after a token whose place is known. -/
theorem expecting {kind : Token.Kind} {f : Token → Reader β}
    (hf : ∀ t, t.kind = kind → good t = true → Yields good (f t) q) :
    Yields good (Reader.expect kind flaw >>= f) q :=
  (expect kind flaw).bind fun t ht => hf t ht.1 ht.2

theorem isNext {kind : Token.Kind} {f : Bool → Reader β} (hf : ∀ b, Yields good (f b) q) :
    Yields good (Reader.isNext kind >>= f) q := fun c hc => hf _ c hc

theorem atEnd {f : Bool → Reader β} (hf : ∀ b, Yields good (f b) q) :
    Yields good (Reader.atEnd >>= f) q := fun c hc => hf _ c hc

theorem complain {token? : Option Token} {f : Unit → Reader β} (hf : Yields good (f ()) q) :
    Yields good (Reader.complain token? flaw >>= f) q :=
  fun c hc => hf ⟨c.rest, c.complaints ++ [⟨token?, flaw⟩]⟩ hc

theorem limit {count : Nat} {f : Unit → Reader β} (hf : Yields good (f ()) q) :
    Yields good (Reader.limit count >>= f) q := by
  have hl : Yields good (Reader.limit count) fun _ => True := by
    unfold Reader.limit
    split
    · exact fun c hc => ⟨hc, trivial⟩
    · exact pure trivial
  exact hl.bind fun _ _ => hf

end Yields

def BuiltExpr (good : Token → Bool) (e : Expr) : Prop := e.all (Node.isBuilt good) = true

def BuiltStmt (good : Token → Bool) (s : Stmt) : Prop := s.all (Node.isBuilt good) = true

def BuiltBody (good : Token → Bool) (ss : List Stmt) : Prop :=
  Stmt.allOf (Node.isBuilt good) ss = true

def BuiltPlain (good : Token → Bool) (s : Stmt) : Prop := BuiltStmt good s ∧ s.declared = []

/-- The rules yield nodes that are built of good tokens. -/
structure BuiltGrammar (good : Token → Bool) (g : Grammar) : Prop where
  expression : Yields good g.expression (BuiltExpr good)
  unary : Yields good g.unary (BuiltExpr good)
  statement : Yields good g.statement (BuiltPlain good)
  declaration : Yields good g.declaration (BuiltStmt good)

variable {g : Grammar}

/-! ### Lists -/

def BuiltParams (good : Token → Bool) (ps : List Token) : Prop :=
  (ps.map (Token.Kind.identifier, ·)).all (Token.isWord good) = true

theorem isWord_of {kind : Token.Kind} {t : Token} (hk : t.kind = kind) (hg : good t = true) :
    Token.isWord good (kind, t) = true := by
  simp [Token.isWord, hk, hg]

theorem params_built (bound count : Nat) :
    Yields good (params bound count) (BuiltParams good) := by
  induction bound generalizing count with
  | zero => exact .throw
  | succ bound ih =>
    refine .limit (.expecting fun param hk hg => (Yields.accept _).bind fun comma? _ => ?_)
    have hparam : Token.isWord good (.identifier, param) = true := isWord_of hk hg
    cases comma? with
    | none => exact .pure (Bool.and_eq_true_iff.2 ⟨hparam, rfl⟩)
    | some _ =>
      exact (ih (count + 1)).bind fun _ hps => .pure (Bool.and_eq_true_iff.2 ⟨hparam, hps⟩)

theorem paramList_built (bound : Nat) : Yields good (paramList bound) (BuiltParams good) := by
  refine .isNext fun isEmpty => ?_
  split
  · exact .pure rfl
  · exact params_built bound 0

theorem declarations_built (hg : BuiltGrammar good g) (bound : Nat) :
    Yields good (declarations g.declaration bound) (BuiltBody good) := by
  induction bound with
  | zero => exact .throw
  | succ bound ih =>
    refine .isNext fun _ => .atEnd fun _ => ?_
    split
    · exact .pure rfl
    · refine hg.declaration.bind fun s hs => ih.bind fun ss hss => .pure ?_
      exact Bool.and_eq_true_iff.2 ⟨hs, hss⟩

theorem block_built (hg : BuiltGrammar good g) (bound : Nat) :
    Yields good (g.block bound) (BuiltBody good) :=
  (declarations_built hg bound).bind fun _ hbody => .expecting fun _ _ _ => .pure hbody

theorem arguments_built (hg : BuiltGrammar good g) (bound count : Nat) :
    Yields good (arguments g.expression bound count)
      fun es => Expr.allOf (Node.isBuilt good) es = true := by
  induction bound generalizing count with
  | zero => exact .throw
  | succ bound ih =>
    refine .limit (hg.expression.bind fun e he => (Yields.accept _).bind fun comma? _ => ?_)
    cases comma? with
    | none => exact .pure (Bool.and_eq_true_iff.2 ⟨he, rfl⟩)
    | some _ =>
      exact (ih (count + 1)).bind fun es hes => .pure (Bool.and_eq_true_iff.2 ⟨he, hes⟩)

/-! ### Expressions -/

def Joins (good : Token → Bool) (kinds : List Token.Kind) (join : Expr → Token → Expr → Expr) : Prop :=
  ∀ l op r, op.kind ∈ kinds → good op = true → BuiltExpr good l → BuiltExpr good r →
    BuiltExpr good (join l op r)

theorem joinLeft_built {join : Expr → Token → Expr → Expr} {operand : Reader Expr}
    (hj : Joins good kinds join)
    (ho : Yields good operand (BuiltExpr good)) (bound : Nat) {left : Expr}
    (hl : BuiltExpr good left) :
    Yields good (joinLeft kinds join operand bound left) (BuiltExpr good) := by
  induction bound generalizing left with
  | zero => exact .throw
  | succ bound ih =>
    refine (Yields.accept _).bind fun op? hop => ?_
    cases op? with
    | none => exact .pure hl
    | some op =>
      obtain ⟨hkind, hgood⟩ := hop op rfl
      exact ho.bind fun right hr => ih (hj left op right hkind hgood hl hr)

theorem level_built {join : Expr → Token → Expr → Expr} {operand : Reader Expr}
    (hj : Joins good kinds join)
    (ho : Yields good operand (BuiltExpr good)) (bound : Nat) :
    Yields good (level bound kinds join operand) (BuiltExpr good) :=
  ho.bind fun _ hl => joinLeft_built hj ho bound hl

theorem binary_built
    (hk : ∀ kind ∈ kinds, kind ∈ [Token.Kind.slash, .star, .minus, .plus, .greater, .greaterEqual, .less,
      .lessEqual, .bangEqual, .equalEqual]) : Joins good kinds .binary := by
  intro l op r hkind hgood hl hr
  have hop : Node.isSigned good (.expr (.binary l op r)) = true :=
    Bool.and_eq_true_iff.2 ⟨List.contains_iff_mem.2 (hk _ hkind), hgood⟩
  exact Bool.and_eq_true_iff.2 ⟨Bool.and_eq_true_iff.2 ⟨rfl, hop⟩, Bool.and_eq_true_iff.2 ⟨hl, hr⟩⟩

theorem logical_built (hk : ∀ kind ∈ kinds, kind ∈ [Token.Kind.kwAnd, .kwOr]) :
    Joins good kinds .logical := by
  intro l op r hkind hgood hl hr
  have hop : Node.isSigned good (.expr (.logical l op r)) = true :=
    Bool.and_eq_true_iff.2 ⟨List.contains_iff_mem.2 (hk _ hkind), hgood⟩
  exact Bool.and_eq_true_iff.2 ⟨Bool.and_eq_true_iff.2 ⟨rfl, hop⟩, Bool.and_eq_true_iff.2 ⟨hl, hr⟩⟩

theorem lambda_built (hg : BuiltGrammar good g) (bound : Nat) :
    Yields good (g.lambda bound) (BuiltExpr good) := by
  refine .expecting fun _ _ _ => (paramList_built bound).bind fun _ hps => ?_
  refine .expecting fun _ _ _ => .expecting fun _ _ _ => ?_
  exact (block_built hg bound).bind fun _ hbody =>
    .pure (Bool.and_eq_true_iff.2 ⟨Bool.and_eq_true_iff.2 ⟨hps, rfl⟩, hbody⟩)

theorem primary_built (hg : BuiltGrammar good g) (bound : Nat) :
    Yields good (g.primary bound) (BuiltExpr good) := by
  refine (Yields.accept _).bind fun t? ht => ?_
  cases t? with
  | none => exact .refuse
  | some t =>
    have hword : ∀ kind, t.kind = kind → ([(kind, t)].all (Token.isWord good) && true) = true :=
      fun kind hk =>
        Bool.and_eq_true_iff.2 ⟨Bool.and_eq_true_iff.2 ⟨isWord_of hk (ht t rfl).2, rfl⟩, rfl⟩
    dsimp only
    split
    · exact .pure rfl
    · exact .pure rfl
    · exact .pure rfl
    · next hkind => exact .expecting fun _ _ _ => .expecting fun _ _ _ => .pure (hword _ hkind)
    · next hkind => exact .pure (hword _ hkind)
    · next hkind => exact .pure (hword _ hkind)
    · exact hg.expression.bind fun e he => .expecting fun _ _ _ => .pure he
    · exact lambda_built hg bound
    · exact .pure rfl

theorem finishCall_built (hg : BuiltGrammar good g) (bound : Nat) {callee : Expr}
    (hc : BuiltExpr good callee) :
    Yields good (g.finishCall bound callee) (BuiltExpr good) := by
  have hcall : ∀ paren args, Token.isWord good (.rightParen, paren) = true →
      Expr.allOf (Node.isBuilt good) args = true → BuiltExpr good (.call callee paren args) :=
    fun paren args hparen ha => Bool.and_eq_true_iff.2 ⟨hparen, Bool.and_eq_true_iff.2 ⟨hc, ha⟩⟩
  have hnil : Yields good (pure [] : Reader (List Expr)) fun es =>
      Expr.allOf (Node.isBuilt good) es = true := .pure rfl
  refine .isNext fun _ => ?_
  dsimp only
  split
  · exact hnil.bind fun args ha =>
      .expecting fun paren hk hp => .pure (hcall paren args (isWord_of hk hp) ha)
  · exact (arguments_built hg bound 0).bind fun args ha =>
      .expecting fun paren hk hp => .pure (hcall paren args (isWord_of hk hp) ha)

theorem postfixes_built (hg : BuiltGrammar good g) (bound steps : Nat) (he : BuiltExpr good e) :
    Yields good (g.postfixes bound steps e) (BuiltExpr good) := by
  induction steps generalizing e with
  | zero => exact .throw
  | succ steps ih =>
    refine (Yields.accept _).bind fun t? _ => ?_
    cases t? with
    | none => exact .pure he
    | some t =>
      dsimp only
      split
      · exact (finishCall_built hg bound he).bind fun _ hc => ih hc
      · exact .expecting fun name _ _ => ih he

theorem unaryRule_built (hg : BuiltGrammar good g) (bound : Nat) :
    Yields good (g.unaryRule bound) (BuiltExpr good) := by
  refine (Yields.accept _).bind fun op? hop => ?_
  cases op? with
  | some op =>
    obtain ⟨hkind, hgood⟩ := hop op rfl
    have hformed : ∀ right, Node.isSigned good (.expr (.unary op right)) = true := fun _ =>
      Bool.and_eq_true_iff.2 ⟨List.contains_iff_mem.2 hkind, hgood⟩
    exact hg.unary.bind fun right hr => .pure (Bool.and_eq_true_iff.2 ⟨hformed right, hr⟩)
  | none => exact (primary_built hg bound).bind fun _ he => postfixes_built hg bound bound he

theorem disjunction_built (hg : BuiltGrammar good g) (bound : Nat) :
    Yields good (g.disjunction bound) (BuiltExpr good) :=
  level_built (logical_built (by decide)) (level_built (logical_built (by decide))
    (level_built (binary_built (by decide)) (level_built (binary_built (by decide))
      (level_built (binary_built (by decide)) (level_built (binary_built (by decide))
        (unaryRule_built hg bound) bound) bound) bound) bound) bound) bound

theorem assignment_built (hg : BuiltGrammar good g) (bound : Nat) :
    Yields good (g.assignment bound) (BuiltExpr good) := by
  refine (disjunction_built hg bound).bind fun target ht =>
    (Yields.accept _).bind fun equals? _ => ?_
  cases equals? with
  | none => exact .pure ht
  | some equals =>
    refine hg.expression.bind fun value hv => ?_
    split
    -- the name of a variable stays a good one when it becomes the target of an assignment
    · exact .pure (Bool.and_eq_true_iff.2 ⟨ht, hv⟩)
    · exact .pure (Bool.and_eq_true_iff.2 ⟨rfl, Bool.and_eq_true_iff.2 ⟨ht, hv⟩⟩)
    · exact .complain (.pure ht)

/-! ### Statements -/

theorem expressionStmt_built (hg : BuiltGrammar good g) (bound : Nat) :
    Yields good (g.expressionStmt bound) (BuiltPlain good) :=
  (assignment_built hg bound).bind fun _ he => .expecting fun _ _ _ => .pure ⟨he, rfl⟩

theorem varDecl_built (hg : BuiltGrammar good g) :
    Yields good g.varDecl (BuiltStmt good) := by
  have hnone : Yields good (pure none : Reader (Option Expr))
      fun e? => ∀ e ∈ e?, BuiltExpr good e := .pure (by simp)
  have hsome : Yields good (some <$> g.expression) fun e? => ∀ e ∈ e?, BuiltExpr good e :=
    hg.expression.map fun e he => by simpa using he
  have hdecl : ∀ (name : Token) (init? : Option Expr), name.kind = .identifier → good name = true →
      (∀ e ∈ init?, BuiltExpr good e) → BuiltStmt good (.varDecl name init?) := by
    intro name init? hkind hname hinit
    have hword : ([(Token.Kind.identifier, name)].all (Token.isWord good) && true) = true :=
      Bool.and_eq_true_iff.2 ⟨Bool.and_eq_true_iff.2 ⟨isWord_of hkind hname, rfl⟩, rfl⟩
    cases init? with
    | none => exact hword
    | some init => exact Bool.and_eq_true_iff.2 ⟨hword, hinit init rfl⟩
  refine .expecting fun name hkind hname => (Yields.accept _).bind fun equals? _ => ?_
  cases equals? with
  | none =>
    exact hnone.bind fun init? hinit =>
      .expecting fun _ _ _ => .pure (hdecl name init? hkind hname hinit)
  | some _ =>
    exact hsome.bind fun init? hinit =>
      .expecting fun _ _ _ => .pure (hdecl name init? hkind hname hinit)

theorem condition_built (hg : BuiltGrammar good g) (opening : Flaw) :
    Yields good (g.condition opening) (BuiltExpr good) :=
  .expecting fun _ _ _ => hg.expression.bind fun _ he => .expecting fun _ _ _ => .pure he

theorem ifStmt_built (hg : BuiltGrammar good g) :
    Yields good g.ifStmt (BuiltPlain good) := by
  refine (condition_built hg _).bind fun c hc => hg.statement.bind fun onTrue ht =>
    (Yields.accept _).bind fun else? _ => ?_
  cases else? with
  | none =>
    refine .pure ⟨?_, ht.2⟩
    simp only [BuiltExpr, BuiltPlain, BuiltStmt] at hc ht
    simp [BuiltStmt, Stmt.all, Node.isBuilt, Node.isWorded, Node.isSigned, Node.isReadable, Node.words, Stmt.declared, hc, ht]
  | some _ =>
    refine hg.statement.bind fun onFalse hf => .pure ⟨?_, by simp [Stmt.declared, ht.2, hf.2]⟩
    simp only [BuiltExpr, BuiltPlain, BuiltStmt] at hc ht hf
    simp [BuiltStmt, Stmt.all, Node.isBuilt, Node.isWorded, Node.isSigned, Node.isReadable, Node.words, Stmt.declared, hc, ht,
      hf]

theorem whileStmt_plain {c : Expr} {body : Stmt} (hc : BuiltExpr good c)
    (hb : BuiltPlain good body) : BuiltPlain good (.whileStmt c body) := by
  refine ⟨?_, hb.2⟩
  simp only [BuiltExpr, BuiltPlain, BuiltStmt] at hc hb
  simp [BuiltStmt, Stmt.all, Node.isBuilt, Node.isWorded, Node.isSigned, Node.isReadable, Node.words, hc, hb]

theorem block_plain {body : List Stmt} (hb : BuiltBody good body) :
    BuiltPlain good (.block body) :=
  ⟨hb, rfl⟩

theorem desugarFor_built {init? : Option Stmt} {condition? increment? : Option Expr}
    {body : Stmt} (hi : ∀ s ∈ init?, BuiltStmt good s)
    (hc : ∀ e ∈ condition?, BuiltExpr good e) (hn : ∀ e ∈ increment?, BuiltExpr good e)
    (hb : BuiltPlain good body) :
    BuiltPlain good (desugarFor init? condition? increment? body) := by
  have hcondition : BuiltExpr good (condition?.getD (.literal (.bool true))) := by
    cases condition? with
    | none => rfl
    | some e => exact hc e rfl
  have hloop : ∀ round, BuiltPlain good round →
      BuiltPlain good (.whileStmt (condition?.getD (.literal (.bool true))) round) :=
    fun round hround => whileStmt_plain hcondition hround
  have hround : ∀ e ∈ increment?, BuiltPlain good (.block [body, .expression e]) := fun e he =>
    block_plain (Bool.and_eq_true_iff.2 ⟨hb.1, Bool.and_eq_true_iff.2 ⟨hn e he, rfl⟩⟩)
  have hblock : ∀ init ∈ init?, ∀ loop, BuiltPlain good loop →
      BuiltPlain good (.block [init, loop]) := fun init hinit loop hloop =>
    block_plain (Bool.and_eq_true_iff.2 ⟨hi init hinit, Bool.and_eq_true_iff.2 ⟨hloop.1, rfl⟩⟩)
  cases init? with
  | none =>
    cases increment? with
    | none => exact hloop body hb
    | some e => exact hloop _ (hround e rfl)
  | some init =>
    cases increment? with
    | none => exact hblock init rfl _ (hloop body hb)
    | some e => exact hblock init rfl _ (hloop _ (hround e rfl))

theorem optional_built (hg : BuiltGrammar good g) (stop : Token.Kind) :
    Yields good (g.optional stop) fun e? => ∀ e ∈ e?, BuiltExpr good e := by
  refine .isNext fun _ => ?_
  split
  · exact .pure (by simp)
  · exact hg.expression.map fun e he => by simpa using he

theorem forInit_built (hg : BuiltGrammar good g) (bound : Nat) :
    Yields good (g.forInit bound) fun s? => ∀ s ∈ s?, BuiltStmt good s := by
  refine (Yields.accept _).bind fun t? _ => ?_
  cases t? with
  | none => exact (expressionStmt_built hg bound).map fun s hs => by simpa using hs.1
  | some t =>
    dsimp only
    split
    · exact .pure (by simp)
    · exact (varDecl_built hg).map fun s hs => by simpa using hs

theorem forStmt_built (hg : BuiltGrammar good g) (bound : Nat) :
    Yields good (g.forStmt bound) (BuiltPlain good) := by
  refine .expecting fun _ _ _ => (forInit_built hg bound).bind fun init? hi => ?_
  refine (optional_built hg _).bind fun condition? hc => .expecting fun _ _ _ => ?_
  refine (optional_built hg _).bind fun increment? hn => .expecting fun _ _ _ => ?_
  exact hg.statement.bind fun body hb => .pure (desugarFor_built hi hc hn hb)

theorem statementRule_built (hg : BuiltGrammar good g) (bound : Nat) :
    Yields good (g.statementRule bound) (BuiltPlain good) := by
  refine (Yields.accept _).bind fun t? ht => ?_
  cases t? with
  | none => exact expressionStmt_built hg bound
  | some t =>
    obtain ⟨hkinds, hgood⟩ := ht t rfl
    dsimp only
    split
    · exact hg.expression.bind fun e he => .expecting fun _ _ _ => .pure ⟨he, rfl⟩
    · exact (block_built hg bound).bind fun body hb => .pure (block_plain hb)
    · exact ifStmt_built hg
    · refine (condition_built hg _).bind fun c hc => hg.statement.bind fun body hb => ?_
      exact .pure (whileStmt_plain hc hb)
    · exact forStmt_built hg bound
    · next hkind => exact .expecting fun _ _ _ => .pure ⟨isWord_of hkind hgood, rfl⟩
    · next hprint hbrace hif hwhile hfor hbreak =>
      have hkind : t.kind = .kwReturn := by simp_all
      refine (optional_built hg _).bind fun value? hv => .expecting fun _ _ _ => .pure ⟨?_, rfl⟩
      cases value? with
      | none => exact isWord_of hkind hgood
      | some value => exact Bool.and_eq_true_iff.2 ⟨isWord_of hkind hgood, hv value rfl⟩

/-! ### Declarations -/

/-- The body of a function is readable and its name and parameters are good words; a getter has no
parameters. -/
structure BuiltFunction (good : Token → Bool) (f : Function) : Prop where
  name : Token.isWord good (.identifier, f.name) = true
  params : BuiltParams good f.params
  form : f.isReadable = true
  body : f.all (Node.isBuilt good) = true

theorem function_built (hg : BuiltGrammar good g) (bound : Nat) (role : Role)
    (isStatic : Bool) : Yields good (g.function bound role isStatic) (BuiltFunction good) := by
  refine .expecting fun name hkind hname => .isNext fun isGetter => ?_
  dsimp only
  split
  · next hget =>
    have hnil : Yields good (pure [] : Reader (List Token)) fun ps => ps = [] := .pure rfl
    refine hnil.bind fun ps hps => .expecting fun _ _ _ => ?_
    exact (block_built hg bound).bind fun body hb =>
      .pure ⟨isWord_of hkind hname, by simp [BuiltParams, hps], by simp [Function.isReadable, hps], hb⟩
  · next hget =>
    refine .expecting fun _ _ _ => (paramList_built bound).bind fun ps hps => ?_
    refine .expecting fun _ _ _ => (Yields.pure hps).bind fun ps hps => ?_
    refine .expecting fun _ _ _ => (block_built hg bound).bind fun body hb => ?_
    exact .pure ⟨isWord_of hkind hname, hps, by simp [Function.isReadable, hget], hb⟩

theorem methods_built (hg : BuiltGrammar good g) (bound steps : Nat) :
    Yields good (g.methods bound steps) fun ms => ∀ f ∈ ms, BuiltFunction good f := by
  induction steps with
  | zero => exact .throw
  | succ steps ih =>
    refine .isNext fun _ => .atEnd fun _ => ?_
    split
    · exact .pure (by simp)
    · refine (Yields.accept _).bind fun static? _ => ?_
      refine (function_built hg bound _ _).bind fun f hf => ?_
      exact ih.bind fun ms hms => .pure (by simpa using ⟨hf, hms⟩)

theorem functions_built {fs : List Function} (h : ∀ f ∈ fs, BuiltFunction good f) :
    Function.allOf (Node.isBuilt good) fs = true := by
  induction fs with
  | nil => rfl
  | cons f fs ih =>
    exact Bool.and_eq_true_iff.2 ⟨(h f (by simp)).body, ih fun f' hf' => h f' (by simp [hf'])⟩

theorem classDecl_built (hg : BuiltGrammar good g) (bound : Nat) :
    Yields good (g.classDecl bound) (BuiltStmt good) := by
  have hclass : ∀ (name : Token) (superclass? : Option (Token × Address)) (ms : List Function),
      Token.isWord good (.identifier, name) = true →
      (∀ entry ∈ superclass?, Token.isWord good (.identifier, entry.1) = true) →
      (∀ f ∈ ms, BuiltFunction good f) → BuiltStmt good (.classDecl name superclass? ms) := by
    intro name superclass? ms hname hparent hms
    refine Bool.and_eq_true_iff.2 ⟨Bool.and_eq_true_iff.2 ⟨Bool.and_eq_true_iff.2 ⟨?_, ?_⟩, rfl⟩,
      functions_built hms⟩
    · exact List.all_eq_true.2 fun f hf => (hms f hf).form
    · have hparams : ∀ f ∈ ms, ∀ p ∈ f.params, Token.isWord good (.identifier, p) = true := by
        intro f hf p hp
        exact List.all_eq_true.1 (hms f hf).params _ (List.mem_map_of_mem hp)
      cases superclass? with
      | none => simpa [Node.words, hname] using hparams
      | some entry => simpa [Node.words, hname, hparent entry rfl] using hparams
  refine .expecting fun name hkind hname => (Yields.accept _).bind fun less? _ => ?_
  have hword : Token.isWord good (.identifier, name) = true := isWord_of hkind hname
  cases less? with
  | none =>
    have hnone : Yields good (pure none : Reader (Option (Token × Address))) fun superclass? =>
        ∀ entry ∈ superclass?, Token.isWord good (.identifier, entry.1) = true := .pure (by simp)
    refine hnone.bind fun superclass? hparent => .expecting fun _ _ _ => ?_
    exact (methods_built hg bound bound).bind fun ms hms =>
      .expecting fun _ _ _ => .pure (hclass name superclass? ms hword hparent hms)
  | some _ =>
    refine .expecting fun parent hk hp => ?_
    have hsome : Yields good (pure (some (parent, Address.free)) : Reader (Option (Token × Address)))
        fun superclass? => ∀ entry ∈ superclass?, Token.isWord good (.identifier, entry.1) = true :=
      .pure (by simpa using isWord_of hk hp)
    refine hsome.bind fun superclass? hparent => .expecting fun _ _ _ => ?_
    exact (methods_built hg bound bound).bind fun ms hms =>
      .expecting fun _ _ _ => .pure (hclass name superclass? ms hword hparent hms)

theorem declared_built (hg : BuiltGrammar good g) (bound : Nat) :
    Yields good (g.declared bound) (BuiltStmt good) := by
  refine (Yields.accept _).bind fun t? _ => ?_
  cases t? with
  | none => exact (statementRule_built hg bound).mono fun _ hs => hs.1
  | some t =>
    dsimp only
    split
    · exact classDecl_built hg bound
    · refine (function_built hg bound _ _).bind fun f hf => .pure ?_
      have hwords := Bool.and_eq_true_iff.2 ⟨hf.name, hf.params⟩
      exact Bool.and_eq_true_iff.2
        ⟨Bool.and_eq_true_iff.2 ⟨Bool.and_eq_true_iff.2 ⟨hf.form, hwords⟩, rfl⟩, hf.body⟩
    · exact varDecl_built hg

theorem recover_subset (ts : List Token) : recover ts ⊆ ts := by
  have hresume : ∀ (last : Token) (ts : List Token), resume last ts ⊆ ts := by
    intro last ts
    induction ts generalizing last with
    | nil => exact List.Subset.refl _
    | cons t ts ih =>
      unfold resume
      split
      · exact List.Subset.refl _
      · exact List.Subset.trans (ih t) (List.subset_cons_self t ts)
  cases ts with
  | nil => exact List.Subset.refl _
  | cons t ts => exact List.Subset.trans (hresume t ts) (List.subset_cons_self t ts)

theorem declarationRule_built (hg : BuiltGrammar good g) (bound : Nat) :
    Yields good (g.declarationRule bound) (BuiltStmt good) := by
  intro c hc
  unfold declarationRule
  have hdeclared := declared_built hg bound
  cases hr : g.declared bound c with
  | ok s c' => exact hdeclared.ok hc hr
  | error e c' =>
    have hc' := hdeclared.error hc hr
    cases e with
    | tooDeep => exact hc'
    | refused complaint => exact ⟨fun t ht => hc' t (recover_subset _ ht), rfl⟩

theorem grammar_built (n : Nat) : BuiltGrammar good (grammar n) := by
  induction n with
  | zero => exact ⟨.throw, .throw, .throw, .throw⟩
  | succ n ih =>
    exact ⟨assignment_built ih (n + 1), unaryRule_built ih (n + 1),
      statementRule_built ih (n + 1), declarationRule_built ih (n + 1)⟩

theorem program_built {declaration : Reader Stmt}
    (hd : Yields good declaration (BuiltStmt good)) (bound : Nat) :
    Yields good (program declaration bound) (BuiltBody good) := by
  induction bound with
  | zero => exact .throw
  | succ bound ih =>
    refine .atEnd fun _ => ?_
    split
    · exact .pure rfl
    · exact hd.bind fun s hs => ih.bind fun ss hss => .pure (Bool.and_eq_true_iff.2 ⟨hs, hss⟩)

theorem parse_built (h : ∀ t ∈ tokens, good t = true) : BuiltBody good (parse tokens).statements := by
  have hg : BuiltGrammar good (grammar (tokens.length + 1)) := grammar_built _
  have hprogram := program_built hg.declaration (tokens.length + 1)
  unfold parse
  dsimp only
  split
  · next ss c hr => exact (hprogram.ok h hr).2
  · rfl

theorem parseExpression_built (h : ∀ t ∈ tokens, good t = true)
    (he : (parseExpression tokens).expression? = some e) : BuiltExpr good e := by
  have hg : BuiltGrammar good (grammar (tokens.length + 1)) := grammar_built _
  unfold parseExpression at he
  split at he
  · next e' c hr =>
    cases he
    exact (hg.expression.ok h hr).2
  · cases he
  · cases he

/-! ### Words -/

theorem isWorded_of_isBuilt (node : Node) (h : node.isBuilt good = true) : node.isWorded good = true :=
  (Bool.and_eq_true_iff.1 h).1

def WordedExpr (good : Token → Bool) (e : Expr) : Prop := e.all (Node.isWorded good) = true

def WordedBody (good : Token → Bool) (ss : List Stmt) : Prop :=
  Stmt.allOf (Node.isWorded good) ss = true

theorem parse_worded (h : ∀ t ∈ tokens, good t = true) : WordedBody good (parse tokens).statements :=
  Stmt.allOf_mono isWorded_of_isBuilt _ (parse_built h)

theorem parseExpression_worded (h : ∀ t ∈ tokens, good t = true)
    (he : (parseExpression tokens).expression? = some e) : WordedExpr good e :=
  Expr.all_mono isWorded_of_isBuilt _ (parseExpression_built h he)

/-! ### Names -/

def Names (good : Token → Bool) (t : Token) : Prop := t.kind = .identifier → good t = true

def isNameless (good : Token → Bool) (t : Token) : Bool := t.kind ≠ .identifier || good t

theorem isNameless_of_names {t : Token} (h : Names good t) : isNameless good t = true := by
  by_cases hk : t.kind = .identifier
  · simp [isNameless, h hk]
  · simp [isNameless, hk]

theorem good_of_isWorded {node : Node} (h : node.isWorded (isNameless good) = true) {name : Token}
    (hm : (Token.Kind.identifier, name) ∈ node.words) : good name = true := by
  have hword := List.all_eq_true.1 (Bool.and_eq_true_iff.1 h).2 _ hm
  simp only [Token.isWord, isNameless, Bool.and_eq_true, decide_eq_true_eq, Bool.or_eq_true] at hword
  exact hword.2.resolve_left fun hne => hne hword.1

theorem isNamed_of_isWorded {node : Node} (h : node.isWorded (isNameless good) = true) :
    node.isNamed good = true := by
  refine Bool.and_eq_true_iff.2 ⟨(Bool.and_eq_true_iff.1 h).1, ?_⟩
  have hgood : ∀ name, (Token.Kind.identifier, name) ∈ node.words → good name = true :=
    fun name => good_of_isWorded h
  unfold Node.name?
  split
  · exact hgood _ (by simp [Node.words])
  · exact hgood _ (by simp [Node.words])
  · exact hgood _ (by simp [Node.words])
  · exact hgood _ (by simp [Node.words])
  · exact hgood _ (by simp [Node.words])
  · rfl

theorem parse_readable (tokens : List Token) :
    Stmt.allOf Node.isReadable (parse tokens).statements = true :=
  Stmt.allOf_mono (fun _ h => (Bool.and_eq_true_iff.1 h).1) _
    (parse_worded (fun _ _ => rfl : ∀ t ∈ tokens, (fun _ => true) t = true))

end Tree

end Lox
