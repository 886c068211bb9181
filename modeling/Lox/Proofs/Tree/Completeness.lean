import Lox.Proofs.Outcome
import Lox.Proofs.Tree.Formation
import Lox.Tree.Parse

/-!
# Reading undoes writing

## Design notes

The induction is on the depth up to which the grammar is closed. Within one depth the levels of
precedence are climbed one by one; at each of them the operands on the left are read by induction on
the expression, since a rule joins them from the left.
-/

namespace Lox.Tree

open Outcome Reader Grammar
open Token (mark)

variable {α β : Type}

/-- A reader takes some tokens, yields a result and leaves the rest, without a complaint. -/
def Reads (x : Reader α) (ts : List Token) (a : α) (rest : List Token) : Prop :=
  ∀ cs, x ⟨ts, cs⟩ = .ok a ⟨rest, cs⟩

def Becomes (x : Reader α) (ts : List Token) (y : Reader α) (rest : List Token) : Prop :=
  ∀ cs, x ⟨ts, cs⟩ = y ⟨rest, cs⟩

/-- The next token is of none of the given kinds. -/
def Lacks (kinds : List Token.Kind) (ts : List Token) : Prop := ∀ t ∈ ts.head?, t.kind ∉ kinds

section Rules

variable {x y : Reader α} {f : α → Reader β} {a : α} {b : β} {ts mid rest : List Token} {t : Token}
  {kind : Token.Kind} {kinds : List Token.Kind}

theorem Reads.pure (a : α) (ts : List Token) : Reads (Pure.pure a) ts a ts := fun _ => rfl

theorem Reads.becomes (hx : Reads x ts a mid) : Becomes (x >>= f) ts (f a) mid :=
  fun cs => bind_of_ok (hx cs)

theorem Becomes.reads (hx : Becomes x ts y mid) (hy : Reads y mid a rest) : Reads x ts a rest :=
  fun cs => (hx cs).trans (hy cs)

theorem Becomes.trans {z : Reader α} (hx : Becomes x ts y mid) (hy : Becomes y mid z rest) :
    Becomes x ts z rest := fun cs => (hx cs).trans (hy cs)

theorem Reads.bind (hx : Reads x ts a mid) (hf : Reads (f a) mid b rest) :
    Reads (x >>= f) ts b rest := hx.becomes.reads hf

theorem Reads.map {g : α → β} (hx : Reads x ts a rest) : Reads (g <$> x) ts (g a) rest := by
  intro cs
  change EStateM.map g x ⟨ts, cs⟩ = _
  unfold EStateM.map
  rw [hx cs]

theorem Lacks.cons (h : t.kind ∉ kinds) : Lacks kinds (t :: ts) := by
  rintro u ⟨⟩
  exact h

theorem Lacks.nil : Lacks kinds [] := by
  rintro u ⟨⟩

theorem Reads.accept (h : t.kind ∈ kinds) : Reads (accept? kinds) (t :: rest) (some t) rest := by
  intro cs
  have hc : kinds.contains t.kind = true := List.contains_iff_mem.2 h
  change (if kinds.contains t.kind = true then _ else _ : Reader _) ⟨t :: rest, cs⟩ = _
  rw [if_pos hc]
  rfl

theorem Reads.pass (h : Lacks kinds ts) : Reads (accept? kinds) ts none ts := by
  intro cs
  cases ts with
  | nil => rfl
  | cons t rest =>
    have hc : ¬kinds.contains t.kind = true := fun hc => h t rfl (List.contains_iff_mem.1 hc)
    change (if kinds.contains t.kind = true then _ else _ : Reader _) ⟨t :: rest, cs⟩ = _
    rw [if_neg hc]
    rfl

theorem Reads.expect {flaw : Flaw} (h : t.kind = kind) :
    Reads (expect kind flaw) (t :: rest) t rest :=
  (Reads.accept (List.mem_singleton.2 h)).bind (.pure t rest)

theorem Reads.expect_bind {flaw : Flaw} {f : Token → Reader β} (h : t.kind = kind)
    (hf : Reads (f t) ts b rest) : Reads (Reader.expect kind flaw >>= f) (t :: ts) b rest :=
  (Reads.expect h).bind hf

theorem Reads.next (h : t.kind = kind) : Reads (isNext kind) (t :: ts) true (t :: ts) := by
  intro cs
  change EStateM.Result.ok (decide (some t.kind = some kind)) _ = _
  rw [h, decide_eq_true rfl]

theorem Reads.notNext (h : Lacks [kind] ts) : Reads (isNext kind) ts false ts := by
  intro cs
  have hne : ts.head?.map (·.kind) ≠ some kind := by
    intro he
    obtain ⟨t, ht, hk⟩ := Option.map_eq_some_iff.1 he
    exact h t ht (List.mem_singleton.2 hk)
  change EStateM.Result.ok (decide (ts.head?.map (·.kind) = some kind)) _ = _
  rw [decide_eq_false hne]

theorem Reads.limit {count : Nat} (h : count < 255) : Reads (limit count) ts () ts := by
  intro cs
  unfold Reader.limit
  rw [if_neg (Nat.not_le_of_lt h)]
  rfl

end Rules

/-! ### What may follow an expression -/

def extension? : Token.Kind → Option Nat
  | .equal => some 0
  | .leftParen | .dot => some 8
  | kind => kind.binaryLevel?.or kind.logicalLevel?

/-- The next token does not extend an expression of the given level or a tighter one. -/
def Ends (level : Nat) (ts : List Token) : Prop :=
  ∀ t ∈ ts.head?, ∀ l ∈ extension? t.kind, l < level

theorem Ends.mono {level level' : Nat} {ts : List Token} (h : Ends level ts) (hl : level ≤ level') :
    Ends level' ts := fun t ht l he => Nat.lt_of_lt_of_le (h t ht l he) hl

theorem Ends.cons {level : Nat} {t : Token} {ts : List Token}
    (h : ∀ l ∈ extension? t.kind, l < level) : Ends level (t :: ts) := by
  rintro u ⟨⟩
  exact h

theorem Ends.of_eq_none {level : Nat} {t : Token} {ts : List Token} (h : extension? t.kind = none) :
    Ends level (t :: ts) := .cons (by simp [h])

theorem Ends.lacks {level : Nat} {ts : List Token} {kinds : List Token.Kind} (h : Ends level ts)
    (hk : ∀ kind ∈ kinds, ∃ l, extension? kind = some l ∧ level ≤ l) : Lacks kinds ts := by
  intro t ht hm
  obtain ⟨l, hl, hle⟩ := hk t.kind hm
  have := h t ht l hl
  omega

/-! ### The levels of precedence -/

def operators : Nat → List Token.Kind
  | 1 => [.kwOr]
  | 2 => [.kwAnd]
  | 3 => [.bangEqual, .equalEqual]
  | 4 => [.greater, .greaterEqual, .less, .lessEqual]
  | 5 => [.minus, .plus]
  | 6 => [.slash, .star]
  | _ => []

/-- What an operator of a level makes of its operands. -/
def joined : Nat → Expr → Token → Expr → Expr
  | 1 | 2 => .logical
  | _ => .binary

/-- The rules of the levels above the prefix operators, by their distance from these. -/
def ladder (g : Grammar) (bound : Nat) : Nat → Reader Expr
  | 0 => g.unaryRule bound
  | height + 1 =>
    level bound (operators (6 - height)) (joined (6 - height)) (ladder g bound height)

theorem disjunction_eq_ladder (g : Grammar) (bound : Nat) :
    g.disjunction bound = ladder g bound 6 := rfl

def FormedExpr (e : Expr) : Prop := e.all Node.isFormed = true

theorem extension?_of_mem_operators {l : Nat} {kind : Token.Kind} (h : kind ∈ operators l) :
    extension? kind = some l := by
  unfold operators at h
  split at h <;> simp only [List.mem_cons, List.not_mem_nil, or_false] at h
  · subst h; rfl
  · subst h; rfl
  · rcases h with rfl | rfl <;> rfl
  · rcases h with rfl | rfl | rfl | rfl <;> rfl
  · rcases h with rfl | rfl <;> rfl
  · rcases h with rfl | rfl <;> rfl

theorem mem_operators_of_logicalLevel? {l : Nat} {kind : Token.Kind}
    (h : kind.logicalLevel? = some l) : kind ∈ operators l ∧ joined l = .logical := by
  cases kind <;> cases h <;> exact ⟨by decide, rfl⟩

theorem mem_operators_of_binaryLevel? {l : Nat} {kind : Token.Kind}
    (h : kind.binaryLevel? = some l) : kind ∈ operators l ∧ joined l = .binary := by
  cases kind <;> cases h <;> exact ⟨by decide, rfl⟩

theorem flatten_joined (l : Nat) (left : Expr) (op : Token) (right : Expr) :
    (joined l left op right).flatten = left.flatten ++ op :: right.flatten := by
  unfold joined
  split <;> simp only [Expr.flatten]

theorem FormedExpr.exists_joined {e : Expr} (h : FormedExpr e) (hpos : 1 ≤ e.precedence)
    (hle : e.precedence ≤ 6) :
    ∃ left op right, e = joined e.precedence left op right ∧ op.kind ∈ operators e.precedence ∧
      FormedExpr left ∧ e.precedence ≤ left.precedence ∧
      FormedExpr right ∧ e.precedence < right.precedence := by
  unfold FormedExpr at h
  cases e with
  | logical left op right =>
    simp only [Expr.all, Node.isFormed, Expr.joins, Bool.and_eq_true] at h
    simp only [Expr.precedence]
    cases hl : op.kind.logicalLevel? with
    | none => simp [hl] at h
    | some l =>
      simp only [hl, Bool.and_eq_true, decide_eq_true_eq] at h
      obtain ⟨hmem, hj⟩ := mem_operators_of_logicalLevel? hl
      exact ⟨left, op, right, by simp [hj], hmem, h.2.1, h.1.1, h.2.2, h.1.2⟩
  | binary left op right =>
    simp only [Expr.all, Node.isFormed, Expr.joins, Bool.and_eq_true] at h
    simp only [Expr.precedence]
    cases hl : op.kind.binaryLevel? with
    | none => simp [hl] at h
    | some l =>
      simp only [hl, Bool.and_eq_true, decide_eq_true_eq] at h
      obtain ⟨hmem, hj⟩ := mem_operators_of_binaryLevel? hl
      exact ⟨left, op, right, by simp [hj], hmem, h.2.1, h.1.1, h.2.2, h.1.2⟩
  | assign | set => simp [Expr.precedence] at hpos
  | _ => simp [Expr.precedence] at hle

/-- Only assignments are looser than the levels of operators. -/
theorem FormedExpr.loose_cases {e : Expr} (h : FormedExpr e) :
    1 ≤ e.precedence ∨
      (∃ name value, e = .assign name .free value ∧ name.kind = .identifier ∧ FormedExpr value) ∨
      ∃ object name value, e = .set object name value ∧ FormedExpr (.get object name) ∧
        FormedExpr value := by
  unfold FormedExpr at h
  cases e with
  | assign name address value =>
    simp only [Expr.all, Node.isFormed, Bool.and_eq_true, decide_eq_true_eq] at h
    obtain ⟨⟨hk, rfl⟩, hvalue⟩ := h
    exact .inr (.inl ⟨name, value, rfl, hk, hvalue⟩)
  | set object name value =>
    simp only [Expr.all, Node.isFormed, Bool.and_eq_true] at h
    refine .inr (.inr ⟨object, name, value, rfl, ?_, h.2.2⟩)
    simp only [FormedExpr, Expr.all, Node.isFormed, Bool.and_eq_true]
    exact ⟨h.1, h.2.1⟩
  | logical left op right =>
    simp only [Expr.all, Node.isFormed, Bool.and_eq_true] at h
    refine .inl ?_
    simp only [Expr.precedence]
    cases hk : op.kind <;> simp_all [Expr.joins, Token.Kind.logicalLevel?]
  | binary left op right =>
    simp only [Expr.all, Node.isFormed, Bool.and_eq_true] at h
    refine .inl ?_
    simp only [Expr.precedence]
    cases hk : op.kind <;> simp_all [Expr.joins, Token.Kind.binaryLevel?]
  | _ => exact .inl (by simp [Expr.precedence])

/-- A reader reads every well-formed expression that holds together at least so tightly, if there
are fewer tokens than a bound and the token after the expression does not extend it. -/
def ReadsFrom (x : Reader Expr) (level bound : Nat) : Prop :=
  ∀ e rest, FormedExpr e → level ≤ e.precedence → Ends level rest →
    (e.flatten ++ rest).length < bound → Reads x (e.flatten ++ rest) e rest

section Climb

variable {g : Grammar} {bound height : Nat}

theorem becomes_joinLeft (hx : ReadsFrom (ladder g bound height) (7 - height) bound)
    (hh : height < 6) (size : Nat) : ∀ e rest, e.flatten.length < size → FormedExpr e →
      6 - height ≤ e.precedence → Ends (7 - height) rest → (e.flatten ++ rest).length < bound →
      ∃ steps, rest.length < steps ∧
        Becomes (ladder g bound (height + 1)) (e.flatten ++ rest)
          (joinLeft (operators (6 - height)) (joined (6 - height)) (ladder g bound height) steps e)
          rest := by
  induction size with
  | zero =>
    intro e rest hs
    exact absurd hs (Nat.not_lt_zero _)
  | succ size ih =>
    intro e rest hs hf hp he hlen
    by_cases htight : 7 - height ≤ e.precedence
    · refine ⟨bound, ?_, (hx e rest hf htight he hlen).becomes⟩
      simp only [List.length_append] at hlen
      omega
    -- The expression is of this level: its left operand is read first, by induction.
    · obtain ⟨left, op, right, heq, hop, hfl, hpl, hfr, hpr⟩ :=
        hf.exists_joined (by omega) (by omega)
      have hlevel : e.precedence = 6 - height := by omega
      rw [hlevel] at heq hop hpl hpr
      have hflat : e.flatten ++ rest = left.flatten ++ op :: (right.flatten ++ rest) := by
        rw [heq, flatten_joined]
        simp
      have hext := extension?_of_mem_operators hop
      have hstop : Ends (7 - height) (op :: (right.flatten ++ rest)) := by
        refine .cons fun l hl => ?_
        rw [hext] at hl
        cases hl
        omega
      have hsize : left.flatten.length < size := by
        rw [heq, flatten_joined] at hs
        simp only [List.length_append, List.length_cons] at hs
        omega
      have hlen' : (right.flatten ++ rest).length < bound := by
        rw [hflat] at hlen
        simp only [List.length_append, List.length_cons] at hlen ⊢
        omega
      rw [hflat] at hlen ⊢
      obtain ⟨steps, hsteps, hleft⟩ := ih left _ hsize hfl (by omega) hstop hlen
      cases steps with
      | zero => exact absurd hsteps (Nat.not_lt_zero _)
      | succ steps =>
        refine ⟨steps, ?_, hleft.trans ?_⟩
        · simp only [List.length_append, List.length_cons] at hsteps
          omega
        · rw [heq]
          exact (Reads.accept hop).becomes.trans (hx right rest hfr (by omega) he hlen').becomes

theorem readsFrom_climb (hx : ReadsFrom (ladder g bound height) (7 - height) bound)
    (hh : height < 6) : ReadsFrom (ladder g bound (height + 1)) (7 - (height + 1)) bound := by
  intro e rest hf hp he hlen
  obtain ⟨steps, hsteps, hbecomes⟩ := becomes_joinLeft hx hh (e.flatten.length + 1) e rest
    (Nat.lt_succ_self _) hf (by omega) (he.mono (by omega)) hlen
  have hlacks : Lacks (operators (6 - height)) rest := by
    refine he.lacks fun kind hk => ?_
    exact ⟨6 - height, extension?_of_mem_operators hk, by omega⟩
  cases steps with
  | zero => exact absurd hsteps (Nat.not_lt_zero _)
  | succ steps => exact hbecomes.reads ((Reads.pass hlacks).bind (.pure e rest))

theorem readsFrom_ladder (hx : ReadsFrom (g.unaryRule bound) 7 bound) (hh : height ≤ 6) :
    ReadsFrom (ladder g bound height) (7 - height) bound := by
  induction height with
  | zero => exact hx
  | succ height ih => exact readsFrom_climb (ih (by omega)) (by omega)

end Climb

/-! ### First tokens -/

def exprStarts : List Token.Kind :=
  [.kwTrue, .kwFalse, .kwNil, .number, .string, .kwInner, .kwThis, .identifier, .leftParen, .kwFun,
    .bang, .minus]

def prefixes : List Token.Kind := [.bang, .minus]

/-- The first token of a well-formed expression. Only what holds together less tightly than a call
starts with a prefix operator. -/
theorem FormedExpr.head : ∀ {e : Expr}, FormedExpr e →
    ∃ t tail, e.flatten = t :: tail ∧ t.kind ∈ exprStarts ∧
      (t.kind = .kwFun ↔ e.startsWithFun = true) ∧ (t.kind ∈ prefixes → e.precedence ≤ 7)
  | .gap, h => by cases h
  | .super .., h => by cases h
  | .literal value, _ => by
    refine ⟨.ofLiteral value, [], by simp only [Expr.flatten], ?_⟩
    cases value with
    | bool b => cases b <;> simp [Token.ofLiteral, exprStarts, prefixes, Expr.startsWithFun]
    | _ => simp [Token.ofLiteral, exprStarts, prefixes, Expr.startsWithFun]
  | .grouping body, _ => by
    refine ⟨mark .leftParen, _, by simp only [Expr.flatten]; rfl, ?_⟩
    simp [exprStarts, prefixes, Expr.startsWithFun]
  | .unary op right, h => by
    simp only [FormedExpr, Expr.all, Node.isFormed, Bool.and_eq_true, decide_eq_true_eq] at h
    refine ⟨op, right.flatten, by simp only [Expr.flatten], ?_⟩
    rcases h.1.1 with hk | hk <;> simp [hk, exprStarts, Expr.precedence, Expr.startsWithFun]
  | .binary left op right, h => by
    simp only [FormedExpr, Expr.all, Bool.and_eq_true] at h
    obtain ⟨t, tail, hflat, hk, hfun, -⟩ := FormedExpr.head h.2.1
    refine ⟨t, _, by simp only [Expr.flatten, hflat]; rfl, hk, hfun, fun _ => ?_⟩
    exact Nat.le_succ_of_le (Expr.precedence_binary_le left op right)
  | .logical left op right, h => by
    simp only [FormedExpr, Expr.all, Bool.and_eq_true] at h
    obtain ⟨t, tail, hflat, hk, hfun, -⟩ := FormedExpr.head h.2.1
    refine ⟨t, _, by simp only [Expr.flatten, hflat]; rfl, hk, hfun, fun _ => ?_⟩
    exact Nat.le_succ_of_le (Expr.precedence_logical_le left op right)
  | .variable name address, h | .this name address, h => by
    simp only [FormedExpr, Expr.all, Node.isFormed, decide_eq_true_eq] at h
    refine ⟨name, [], by simp only [Expr.flatten], ?_⟩
    simp [h.1, exprStarts, prefixes, Expr.startsWithFun]
  | .assign name address value, h => by
    simp only [FormedExpr, Expr.all, Node.isFormed, Bool.and_eq_true, decide_eq_true_eq] at h
    refine ⟨name, _, by simp only [Expr.flatten]; rfl, ?_⟩
    simp [h.1.1, exprStarts, prefixes, Expr.startsWithFun]
  | .call callee paren arguments, h => by
    simp only [FormedExpr, Expr.all, Node.isFormed, Bool.and_eq_true, decide_eq_true_eq] at h
    obtain ⟨t, tail, hflat, hk, hfun, htight⟩ := FormedExpr.head h.2.1
    refine ⟨t, _, by simp only [Expr.flatten, hflat]; rfl, hk, hfun, fun hm => ?_⟩
    have := htight hm
    omega
  | .lambda params body, _ => by
    refine ⟨mark .kwFun, _, by simp only [Expr.flatten]; rfl, ?_⟩
    simp [exprStarts, prefixes, Expr.startsWithFun]
  | .get object name, h => by
    simp only [FormedExpr, Expr.all, Node.isFormed, Bool.and_eq_true, decide_eq_true_eq] at h
    obtain ⟨t, tail, hflat, hk, hfun, htight⟩ := FormedExpr.head h.2
    refine ⟨t, _, by simp only [Expr.flatten, hflat]; rfl, hk, hfun, fun hm => ?_⟩
    have := htight hm
    omega
  | .set object name value, h => by
    simp only [FormedExpr, Expr.all, Bool.and_eq_true] at h
    obtain ⟨t, tail, hflat, hk, hfun, -⟩ := FormedExpr.head h.2.1
    exact ⟨t, _, by simp only [Expr.flatten, hflat]; rfl, hk, hfun, fun _ => Nat.zero_le _⟩
  | .inner keyword method address, h => by
    simp only [FormedExpr, Expr.all, Node.isFormed, decide_eq_true_eq] at h
    refine ⟨keyword, _, by simp only [Expr.flatten]; rfl, ?_⟩
    simp [h.1, exprStarts, prefixes, Expr.startsWithFun]

theorem FormedExpr.lacks {e : Expr} (h : FormedExpr e) {kinds : List Token.Kind}
    (hk : ∀ kind ∈ kinds, kind ∉ exprStarts) (rest : List Token) :
    Lacks kinds (e.flatten ++ rest) := by
  obtain ⟨t, tail, hflat, ht, -⟩ := h.head
  rw [hflat]
  exact .cons fun hm => hk t.kind hm ht

def FormedStmt (s : Stmt) : Prop := s.all Node.isFormed = true

def declStarts : List Token.Kind := [.kwClass, .kwFun, .kwVar]

theorem eq_fun_of_starts {kind : Token.Kind} (he : kind ∈ exprStarts) (hd : kind ∈ declStarts) :
    kind = .kwFun := by
  cases kind <;> simp [exprStarts, declStarts] at he hd ⊢

theorem FormedStmt.head {s : Stmt} (h : FormedStmt s) :
    ∃ t tail, s.flatten = t :: tail ∧ t.kind ∉ [.rightBrace, .kwElse] ∧
      (t.kind ∈ declStarts → s.isDeclaration = true ∨ s.startsWithFun = true) := by
  unfold FormedStmt at h
  cases s with
  | gap => cases h
  | bare => simp [Stmt.all, Node.isFormed] at h
  | expression value =>
    simp only [Stmt.all, Node.isFormed, Bool.true_and] at h
    obtain ⟨t, tail, hflat, hk, hfun, -⟩ := FormedExpr.head h
    refine ⟨t, tail ++ [mark .semicolon], by simp only [Stmt.flatten, hflat]; rfl, ?_, ?_⟩
    · intro hm
      simp only [List.mem_cons, List.not_mem_nil, or_false] at hm
      rcases hm with hm | hm <;> simp [hm, exprStarts] at hk
    · intro hm
      exact Or.inr (hfun.1 (eq_fun_of_starts hk hm))
  | breakStmt keyword =>
    simp only [Stmt.all, Node.isFormed, decide_eq_true_eq] at h
    exact ⟨keyword, _, by simp only [Stmt.flatten]; rfl, by simp [h], by simp [h, declStarts]⟩
  | returnStmt keyword value? =>
    have hk : keyword.kind = .kwReturn := by
      cases value? <;> simp only [Stmt.all, Node.isFormed, Bool.and_eq_true, decide_eq_true_eq] at h
      · exact h
      · exact h.1
    cases value? <;>
      exact ⟨keyword, _, by simp only [Stmt.flatten]; rfl, by simp [hk], by simp [hk, declStarts]⟩
  | varDecl name init? =>
    cases init? <;>
      exact ⟨mark .kwVar, _, by simp only [Stmt.flatten]; rfl, by simp, fun _ => .inl rfl⟩
  | funDecl f =>
    exact ⟨mark .kwFun, _, by simp only [Stmt.flatten]; rfl, by simp, fun _ => .inl rfl⟩
  | classDecl name superclass? methods =>
    cases superclass? <;>
      exact ⟨mark .kwClass, _, by simp only [Stmt.flatten]; rfl, by simp, fun _ => .inl rfl⟩
  | ifStmt condition onTrue onFalse? =>
    cases onFalse? <;>
      exact ⟨mark .kwIf, _, by simp only [Stmt.flatten]; rfl, by simp, by simp [declStarts]⟩
  | print =>
    exact ⟨mark .kwPrint, _, by simp only [Stmt.flatten]; rfl, by simp, by simp [declStarts]⟩
  | block =>
    exact ⟨mark .leftBrace, _, by simp only [Stmt.flatten]; rfl, by simp, by simp [declStarts]⟩
  | whileStmt =>
    exact ⟨mark .kwWhile, _, by simp only [Stmt.flatten]; rfl, by simp, by simp [declStarts]⟩

theorem FormedStmt.lacks {s : Stmt} (h : FormedStmt s) (rest : List Token) :
    Lacks [.rightBrace, .kwElse] (s.flatten ++ rest) := by
  obtain ⟨t, tail, hflat, hk, -⟩ := h.head
  rw [hflat]
  exact .cons hk

theorem Lacks.mono {kinds kinds' : List Token.Kind} {ts : List Token} (h : Lacks kinds ts)
    (hk : kinds' ⊆ kinds) : Lacks kinds' ts := fun t ht hm => h t ht (hk hm)

/-- No statement of a list starts with `else`. -/
theorem lacks_else_flattenAll {ss : List Stmt} {rest : List Token}
    (hf : Stmt.allOf Node.isFormed ss = true) (hr : Lacks [.kwElse] rest) :
    Lacks [.kwElse] (Stmt.flattenAll ss ++ rest) := by
  cases ss with
  | nil => exact hr
  | cons s ss =>
    simp only [Stmt.allOf, Bool.and_eq_true] at hf
    rw [Stmt.flattenAll, List.append_assoc]
    exact (FormedStmt.lacks hf.1 _).mono (by simp)

/-- The next token does not belong to a conditional at the end of a statement. -/
def Closes (s : Stmt) (rest : List Token) : Prop := s.endsOpen = true → Lacks [.kwElse] rest

/-- The rules of a grammar read every well-formed tree, if there are fewer tokens than a bound. -/
structure Complete (g : Grammar) (bound : Nat) : Prop where
  expression : ReadsFrom g.expression 0 bound
  unary : ReadsFrom g.unary 7 bound
  statement : ∀ s rest, FormedStmt s → s.isDeclaration = false → Closes s rest →
    (s.flatten ++ rest).length < bound → Reads g.statement (s.flatten ++ rest) s rest
  declaration : ∀ s rest, FormedStmt s → s.startsWithFun = false → Closes s rest →
    (s.flatten ++ rest).length < bound → Reads g.declaration (s.flatten ++ rest) s rest

/-! ### Lists -/

theorem Reads.atEnd {ts : List Token} : Reads atEnd ts ts.isEmpty ts := fun _ => rfl

theorem reads_params {ps : List Token} {p : Token} {rest : List Token} {steps count : Nat}
    (hk : ∀ q ∈ p :: ps, q.kind = .identifier) (hc : count + ps.length < 255)
    (hr : Lacks [.comma] rest) (hs : ps.length < steps) :
    Reads (params steps count) (Token.listed (p :: ps) ++ rest) (p :: ps) rest := by
  induction ps generalizing p steps count with
  | nil =>
    cases steps with
    | zero => exact absurd hs (Nat.not_lt_zero _)
    | succ steps =>
      have hp : Reads (expect .identifier .parameterName) (p :: rest) p rest :=
        .expect (hk p (by simp))
      exact (Reads.limit (by simpa using hc)).bind (hp.bind ((Reads.pass hr).bind (.pure _ rest)))
  | cons q ps ih =>
    cases steps with
    | zero => exact absurd hs (Nat.not_lt_zero _)
    | succ steps =>
      simp only [List.length_cons] at hc hs
      have hrest : Reads (params steps (count + 1)) (Token.listed (q :: ps) ++ rest) (q :: ps)
          rest :=
        ih (fun u hu => hk u (List.mem_cons_of_mem _ hu)) (by omega) (by omega)
      have hflat : Token.listed (p :: q :: ps) ++ rest =
          p :: mark .comma :: (Token.listed (q :: ps) ++ rest) := by
        simp [Token.listed]
      rw [hflat]
      have hcomma : Reads (accept? [.comma]) (mark .comma :: (Token.listed (q :: ps) ++ rest))
          (some (mark .comma)) (Token.listed (q :: ps) ++ rest) := .accept (by simp)
      have hp : Reads (expect .identifier .parameterName)
          (p :: mark .comma :: (Token.listed (q :: ps) ++ rest)) p
          (mark .comma :: (Token.listed (q :: ps) ++ rest)) := .expect (hk p (by simp))
      exact (Reads.limit (by omega)).bind (hp.bind (hcomma.bind (hrest.bind (.pure _ rest))))

theorem reads_paramList {ps : List Token} {t : Token} {rest : List Token} {bound : Nat}
    (hp : Token.areParams ps = true) (ht : t.kind = .rightParen)
    (hl : (Token.listed ps ++ t :: rest).length < bound) :
    Reads (paramList bound) (Token.listed ps ++ t :: rest) ps (t :: rest) := by
  cases ps with
  | nil => exact (Reads.next ht).bind (.pure [] _)
  | cons p ps =>
    simp only [Token.areParams, Bool.and_eq_true, decide_eq_true_eq, List.all_eq_true,
      List.length_cons] at hp
    have hfirst : Lacks [.rightParen] (Token.listed (p :: ps) ++ t :: rest) := by
      have hkind : p.kind ∉ [Token.Kind.rightParen] := by simp [hp.2 p (by simp)]
      cases ps <;> exact .cons hkind
    have hlist : ps.length < (Token.listed (p :: ps) ++ t :: rest).length := by
      simp only [Token.listed, List.length_append, List.length_intersperse, List.length_cons]
      omega
    exact (Reads.notNext hfirst).bind
      (reads_params hp.2 (by omega) (.cons (by simp [ht])) (Nat.lt_trans hlist hl))

section Rules

variable {g : Grammar} {n bound : Nat} (hg : Complete g n)

include hg

theorem reads_arguments {es : List Expr} {e : Expr} {t : Token} {rest : List Token}
    {steps count : Nat} (hf : FormedExpr e) (hfs : Expr.allOf Node.isFormed es = true)
    (hc : count + es.length < 255) (ht : t.kind = .rightParen)
    (hs : (e.flatten ++ Expr.flattenMore es ++ t :: rest).length < steps)
    (hl : (e.flatten ++ Expr.flattenMore es ++ t :: rest).length < n) :
    Reads (arguments g.expression steps count) (e.flatten ++ Expr.flattenMore es ++ t :: rest)
      (e :: es) (t :: rest) := by
  induction es generalizing e steps count with
  | nil =>
    cases steps with
    | zero => exact absurd hs (Nat.not_lt_zero _)
    | succ steps =>
      simp only [Expr.flattenMore, List.append_nil] at hl ⊢
      have he : Reads g.expression (e.flatten ++ t :: rest) e (t :: rest) :=
        hg.expression e _ hf (Nat.zero_le _) (.of_eq_none (by rw [ht]; rfl)) hl
      have hcomma : Lacks [.comma] (t :: rest) := .cons (by simp [ht])
      exact (Reads.limit (by simpa using hc)).bind (he.bind ((Reads.pass hcomma).bind (.pure _ _)))
  | cons e' es ih =>
    cases steps with
    | zero => exact absurd hs (Nat.not_lt_zero _)
    | succ steps =>
      simp only [Expr.allOf, Bool.and_eq_true] at hfs
      have hflat : e.flatten ++ Expr.flattenMore (e' :: es) ++ t :: rest =
          e.flatten ++ mark .comma :: (e'.flatten ++ Expr.flattenMore es ++ t :: rest) := by
        simp [Expr.flattenMore]
      rw [hflat] at hs hl ⊢
      rw [List.length_cons] at hc
      rw [List.length_append, List.length_cons] at hs
      have he : Reads g.expression _ e (mark .comma :: _) :=
        hg.expression e _ hf (Nat.zero_le _) (.of_eq_none rfl) hl
      have hcomma : Reads (accept? [.comma])
          (mark .comma :: (e'.flatten ++ Expr.flattenMore es ++ t :: rest)) (some (mark .comma))
          (e'.flatten ++ Expr.flattenMore es ++ t :: rest) := .accept (by simp)
      have hl' : (e'.flatten ++ Expr.flattenMore es ++ t :: rest).length < n := by
        rw [List.length_append, List.length_cons] at hl
        omega
      have hrest : Reads (arguments g.expression steps (count + 1)) _ (e' :: es) (t :: rest) :=
        ih hfs.1 hfs.2 (by omega) (by omega) hl'
      exact (Reads.limit (by omega)).bind (he.bind (hcomma.bind (hrest.bind (.pure _ _))))

theorem reads_declarations {ss : List Stmt} {t : Token} {rest : List Token} {steps : Nat}
    (hf : Stmt.Formed ss) (ht : t.kind = .rightBrace)
    (hs : (Stmt.flattenAll ss ++ t :: rest).length < steps)
    (hl : (Stmt.flattenAll ss ++ t :: rest).length < n) :
    Reads (declarations g.declaration steps) (Stmt.flattenAll ss ++ t :: rest) ss (t :: rest) := by
  induction ss generalizing steps with
  | nil =>
    cases steps with
    | zero => exact absurd hs (Nat.not_lt_zero _)
    | succ steps => exact (Reads.next ht).bind (Reads.atEnd.bind (.pure [] _))
  | cons s ss ih =>
    cases steps with
    | zero => exact absurd hs (Nat.not_lt_zero _)
    | succ steps =>
      obtain ⟨hlisted, hformed⟩ := hf
      simp only [Stmt.areListed, List.all_cons, Bool.and_eq_true, Bool.not_eq_true'] at hlisted
      simp only [Stmt.allOf, Bool.and_eq_true] at hformed
      simp only [Stmt.flattenAll, List.append_assoc] at hl hs ⊢
      have hfirst := FormedStmt.lacks hformed.1 (Stmt.flattenAll ss ++ t :: rest)
      obtain ⟨u, tail, hflat, -⟩ := FormedStmt.head hformed.1
      have hnext : Reads (isNext .rightBrace) (s.flatten ++ (Stmt.flattenAll ss ++ t :: rest)) false
          (s.flatten ++ (Stmt.flattenAll ss ++ t :: rest)) := .notNext (hfirst.mono (by simp))
      have hend : (s.flatten ++ (Stmt.flattenAll ss ++ t :: rest)).isEmpty = false := by
        rw [hflat]
        rfl
      have hcloses : Closes s (Stmt.flattenAll ss ++ t :: rest) := fun _ =>
        lacks_else_flattenAll hformed.2 (.cons (by simp [ht]))
      have hs' := hg.declaration s _ hformed.1 hlisted.1 hcloses hl
      have hpos : 0 < s.flatten.length := by simp [hflat]
      rw [List.length_append] at hl hs
      have hrest : Reads (declarations g.declaration steps) _ ss (t :: rest) :=
        ih ⟨hlisted.2, hformed.2⟩ (by omega) (by omega)
      refine hnext.bind (Reads.atEnd.bind ?_)
      rw [hend]
      exact hs'.bind (hrest.bind (.pure _ _))

theorem reads_block {ss : List Stmt} {t : Token} {rest : List Token} (hf : Stmt.Formed ss)
    (ht : t.kind = .rightBrace) (hn : n ≤ bound)
    (hl : (Stmt.flattenAll ss ++ t :: rest).length < n) :
    Reads (g.block bound) (Stmt.flattenAll ss ++ t :: rest) ss rest := by
  exact (reads_declarations hg hf ht (Nat.lt_of_lt_of_le hl hn) hl).bind
    (.expect_bind ht (.pure ss rest))

/-! ### Expressions -/

theorem reads_lambda {params : List Token} {body : List Stmt} {rest : List Token}
    (hf : FormedExpr (.lambda params body)) (hn : n ≤ bound)
    (hl : ((Expr.lambda params body).flatten ++ rest).length ≤ n) :
    Reads (g.lambda bound) (((Expr.lambda params body).flatten ++ rest).tail)
      (.lambda params body) rest := by
  simp only [FormedExpr, Expr.all, Node.isFormed, Bool.and_eq_true] at hf
  simp only [Expr.flatten, List.cons_append, List.append_assoc, List.nil_append, List.length_cons,
    List.tail_cons] at hl ⊢
  refine .expect_bind rfl ((reads_paramList hf.1.1 rfl (by omega)).bind ?_)
  refine .expect_bind rfl (.expect_bind rfl ?_)
  rw [List.length_append, List.length_cons, List.length_cons] at hl
  exact (reads_block hg ⟨hf.1.2, hf.2⟩ rfl hn (by omega)).bind (.pure _ rest)

theorem reads_primary {e : Expr} {rest : List Token} (hf : FormedExpr e) (hp : 9 ≤ e.precedence)
    (hn : n ≤ bound) (hl : (e.flatten ++ rest).length ≤ n) :
    Reads (g.primary bound) (e.flatten ++ rest) e rest := by
  cases e with
  | gap => cases hf
  | «super» => cases hf
  | literal value =>
    simp only [Expr.flatten, List.cons_append, List.nil_append]
    cases value with
    | bool b => cases b <;> exact (Reads.accept (by simp [Token.ofLiteral])).bind (.pure _ rest)
    | _ => exact (Reads.accept (by simp [Token.ofLiteral])).bind (.pure _ rest)
  | grouping body =>
    simp only [FormedExpr, Expr.all, Bool.and_eq_true] at hf
    simp only [Expr.flatten, List.cons_append, List.append_assoc, List.nil_append,
      List.length_cons] at hl ⊢
    have hbody : Reads g.expression (body.flatten ++ mark .rightParen :: rest) body
        (mark .rightParen :: rest) :=
      hg.expression body _ hf.2 (Nat.zero_le _) (.of_eq_none rfl) (by omega)
    exact (Reads.accept (by simp)).bind (hbody.bind (.expect_bind rfl (.pure _ rest)))
  | «variable» | this =>
    simp only [FormedExpr, Expr.all, Node.isFormed, decide_eq_true_eq] at hf
    obtain ⟨hk, rfl⟩ := hf
    simp only [Expr.flatten, List.cons_append, List.nil_append]
    refine (Reads.accept (by simp [hk])).bind ?_
    dsimp only
    rw [hk]
    exact .pure _ rest
  | inner keyword method address =>
    simp only [FormedExpr, Expr.all, Node.isFormed, decide_eq_true_eq] at hf
    obtain ⟨hk, hm, rfl⟩ := hf
    simp only [Expr.flatten, List.cons_append, List.nil_append]
    refine (Reads.accept (by simp [hk])).bind ?_
    dsimp only
    rw [hk]
    exact .expect_bind rfl (.expect_bind hm (.pure _ rest))
  | lambda params body =>
    have hlambda := reads_lambda hg hf hn hl
    simp only [Expr.flatten, List.cons_append, List.tail_cons] at hlambda ⊢
    exact (Reads.accept (by simp)).bind hlambda
  | logical left op right =>
    have := Expr.precedence_logical_le left op right
    omega
  | binary left op right =>
    have := Expr.precedence_binary_le left op right
    omega
  | _ => simp [Expr.precedence] at hp

theorem reads_finishCall {callee : Expr} {paren : Token} {arguments : List Expr} {rest : List Token}
    (hf : Expr.allOf Node.isFormed arguments = true) (hp : paren.kind = .rightParen)
    (hc : arguments.length ≤ 255) (hn : n ≤ bound)
    (hl : (Expr.flattenAll arguments ++ paren :: rest).length < n) :
    Reads (g.finishCall bound callee) (Expr.flattenAll arguments ++ paren :: rest)
      (.call callee paren arguments) rest := by
  cases arguments with
  | nil => exact (Reads.next hp).bind ((Reads.pure [] _).bind (.expect_bind hp (.pure _ rest)))
  | cons e es =>
    simp only [Expr.allOf, Bool.and_eq_true] at hf
    simp only [Expr.flattenAll, List.length_cons] at hc hl ⊢
    have hargs : Reads (arguments g.expression bound 0) _ (e :: es) (paren :: rest) :=
      reads_arguments hg hf.1 hf.2 (by omega) hp (Nat.lt_of_lt_of_le hl hn) hl
    have hfirst : Lacks [.rightParen] (e.flatten ++ (Expr.flattenMore es ++ paren :: rest)) :=
      FormedExpr.lacks hf.1 (by decide) _
    rw [← List.append_assoc] at hfirst
    exact (Reads.notNext hfirst).bind (hargs.bind (.expect_bind hp (.pure _ rest)))

/-- A primary expression with its calls and properties is read, and goes on as an operand of further
ones. -/
theorem becomes_postfixes (hn : n < bound) (size : Nat) : ∀ e rest, e.flatten.length < size →
    FormedExpr e → 8 ≤ e.precedence → (e.flatten ++ rest).length ≤ n →
    ∃ steps, rest.length < steps ∧
      Becomes (g.call bound) (e.flatten ++ rest) (g.postfixes bound steps e) rest := by
  induction size with
  | zero =>
    intro e rest hs
    exact absurd hs (Nat.not_lt_zero _)
  | succ size ih =>
    intro e rest hs hf hp hl
    by_cases hprimary : 9 ≤ e.precedence
    · refine ⟨bound, ?_, (reads_primary hg hf hprimary (Nat.le_of_lt hn) hl).becomes⟩
      rw [List.length_append] at hl
      omega
    -- What stands before the last call or property is read first, by induction.
    · cases e with
      | call callee paren arguments =>
        simp only [FormedExpr, Expr.all, Node.isFormed, Bool.and_eq_true, decide_eq_true_eq] at hf
        simp only [Expr.flatten, List.append_assoc, List.cons_append, List.nil_append,
          List.length_append, List.length_cons] at hs hl ⊢
        obtain ⟨steps, hsteps, hcallee⟩ := ih callee
          (mark .leftParen :: (Expr.flattenAll arguments ++ paren :: rest)) (by omega) hf.2.1
          hf.1.1 (by simp only [List.length_append, List.length_cons]; omega)
        simp only [List.length_append, List.length_cons] at hsteps
        cases steps with
        | zero => exact absurd hsteps (Nat.not_lt_zero _)
        | succ steps =>
          have hcall : Reads (g.finishCall bound callee)
              (Expr.flattenAll arguments ++ paren :: rest) (.call callee paren arguments) rest :=
            reads_finishCall hg hf.2.2 hf.1.2.1 hf.1.2.2 (Nat.le_of_lt hn)
              (by simp only [List.length_append, List.length_cons]; omega)
          refine ⟨steps, by omega, hcallee.trans ?_⟩
          exact (Reads.accept (by simp)).becomes.trans hcall.becomes
      | get object name =>
        simp only [FormedExpr, Expr.all, Node.isFormed, Bool.and_eq_true, decide_eq_true_eq] at hf
        simp only [Expr.flatten, List.append_assoc, List.cons_append, List.nil_append,
          List.length_append, List.length_cons] at hs hl ⊢
        obtain ⟨steps, hsteps, hobject⟩ := ih object (mark .dot :: name :: rest) (by omega) hf.2
          hf.1.1 (by simp only [List.length_append, List.length_cons]; omega)
        simp only [List.length_cons] at hsteps
        cases steps with
        | zero => exact absurd hsteps (Nat.not_lt_zero _)
        | succ steps =>
          refine ⟨steps, by omega, hobject.trans ?_⟩
          exact (Reads.accept (by simp)).becomes.trans (Reads.expect hf.1.2).becomes
      | logical left op right =>
        have := Expr.precedence_logical_le left op right
        omega
      | binary left op right =>
        have := Expr.precedence_binary_le left op right
        omega
      | _ => simp [Expr.precedence] at hp hprimary

theorem readsFrom_call : ReadsFrom (g.call (n + 1)) 8 (n + 1) := by
  intro e rest hf hp he hl
  obtain ⟨steps, hsteps, hbecomes⟩ := becomes_postfixes hg (Nat.lt_succ_self n)
    (e.flatten.length + 1) e rest (Nat.lt_succ_self _) hf hp (Nat.le_of_lt_succ hl)
  have hlacks : Lacks [.leftParen, .dot] rest := he.lacks (by simp [extension?])
  cases steps with
  | zero => exact absurd hsteps (Nat.not_lt_zero _)
  | succ steps => exact hbecomes.reads ((Reads.pass hlacks).bind (.pure e rest))

theorem readsFrom_unaryRule : ReadsFrom (g.unaryRule (n + 1)) 7 (n + 1) := by
  intro e rest hf hp he hl
  by_cases hcall : 8 ≤ e.precedence
  · obtain ⟨t, tail, hflat, -, -, htight⟩ := hf.head
    have hlacks : Lacks [.bang, .minus] (e.flatten ++ rest) := by
      rw [hflat]
      refine .cons fun hm => ?_
      have := htight hm
      omega
    exact (Reads.pass hlacks).bind (readsFrom_call hg e rest hf hcall (he.mono (by omega)) hl)
  · cases e with
    | unary op right =>
      simp only [FormedExpr, Expr.all, Node.isFormed, Bool.and_eq_true, decide_eq_true_eq] at hf
      simp only [Expr.flatten, List.cons_append, List.length_cons] at hl ⊢
      have hright := hg.unary right rest hf.2 hf.1.2 he (by omega)
      exact (Reads.accept (by simpa using hf.1.1)).bind (hright.bind (.pure _ rest))
    | logical left op right =>
      have := Expr.precedence_logical_le left op right
      omega
    | binary left op right =>
      have := Expr.precedence_binary_le left op right
      omega
    | _ => simp [Expr.precedence] at hp hcall

theorem readsFrom_disjunction : ReadsFrom (g.disjunction (n + 1)) 1 (n + 1) := by
  rw [disjunction_eq_ladder]
  exact readsFrom_ladder (readsFrom_unaryRule hg) (Nat.le_refl 6)

theorem readsFrom_assignment : ReadsFrom (g.assignment (n + 1)) 0 (n + 1) := by
  intro e rest hf _ he hl
  have hequal : ∀ ts, Ends 1 (mark .equal :: ts) := fun ts => .cons (by simp [extension?])
  rcases hf.loose_cases with
    hp | ⟨name, value, rfl, hk, hvalue⟩ | ⟨object, name, value, rfl, hget, hvalue⟩
  · have hlacks : Lacks [.equal] rest := he.lacks (by simp [extension?])
    have htarget := readsFrom_disjunction hg e rest hf hp (he.mono (by omega)) hl
    exact htarget.bind ((Reads.pass hlacks).bind (.pure e rest))
  · have hformed : FormedExpr (.variable name .free) := by
      simp [FormedExpr, Expr.all, Node.isFormed, hk]
    have hflat : (Expr.assign name .free value).flatten ++ rest =
        (Expr.variable name .free).flatten ++ mark .equal :: (value.flatten ++ rest) := by
      simp [Expr.flatten]
    rw [hflat] at hl ⊢
    have htarget := readsFrom_disjunction hg _ _ hformed (by simp [Expr.precedence]) (hequal _) hl
    rw [List.length_append, List.length_cons] at hl
    have hread := hg.expression value rest hvalue (Nat.zero_le _) he (by omega)
    exact htarget.bind ((Reads.accept (by simp)).bind (hread.bind (.pure _ rest)))
  · have hflat : (Expr.set object name value).flatten ++ rest =
        (Expr.get object name).flatten ++ mark .equal :: (value.flatten ++ rest) := by
      simp [Expr.flatten]
    rw [hflat] at hl ⊢
    have htarget := readsFrom_disjunction hg _ _ hget (by simp [Expr.precedence]) (hequal _) hl
    rw [List.length_append, List.length_cons] at hl
    have hread := hg.expression value rest hvalue (Nat.zero_le _) he (by omega)
    exact htarget.bind ((Reads.accept (by simp)).bind (hread.bind (.pure _ rest)))

/-! ### Statements -/

theorem reads_expression {e : Expr} {t : Token} {rest : List Token} (hf : FormedExpr e)
    (ht : extension? t.kind = none) (hl : (e.flatten ++ t :: rest).length < n) :
    Reads g.expression (e.flatten ++ t :: rest) e (t :: rest) :=
  hg.expression e _ hf (Nat.zero_le _) (.of_eq_none ht) hl

theorem reads_condition {e : Expr} {opening : Flaw} {rest : List Token} (hf : FormedExpr e)
    (hl : (mark .leftParen :: (e.flatten ++ mark .rightParen :: rest)).length < n) :
    Reads (g.condition opening) (mark .leftParen :: (e.flatten ++ mark .rightParen :: rest)) e
      rest := by
  rw [List.length_cons] at hl
  have he : Reads g.expression _ e (mark .rightParen :: rest) :=
    reads_expression hg hf rfl (by omega)
  exact .expect_bind rfl (he.bind (.expect_bind rfl (.pure e rest)))

theorem reads_optional {e? : Option Expr} {rest : List Token}
    (hf : ∀ e ∈ e?, FormedExpr e)
    (hl : ((e?.map Expr.flatten).getD [] ++ mark .semicolon :: rest).length < n) :
    Reads (g.optional .semicolon) ((e?.map Expr.flatten).getD [] ++ mark .semicolon :: rest) e?
      (mark .semicolon :: rest) := by
  cases e? with
  | none =>
    have hnext : Reads (isNext .semicolon) (mark .semicolon :: rest) true
        (mark .semicolon :: rest) := .next rfl
    exact hnext.bind (.pure none _)
  | some e =>
    have hlacks : Lacks [.semicolon] (e.flatten ++ mark .semicolon :: rest) :=
      (hf e rfl).lacks (by decide) _
    exact (Reads.notNext hlacks).bind (reads_expression hg (hf e rfl) rfl hl).map

theorem reads_ifStmt {condition : Expr} {onTrue : Stmt} {onFalse? : Option Stmt} {rest : List Token}
    (hf : FormedStmt (.ifStmt condition onTrue onFalse?))
    (hc : Closes (.ifStmt condition onTrue onFalse?) rest)
    (hl : ((Stmt.ifStmt condition onTrue onFalse?).flatten ++ rest).length ≤ n) :
    Reads g.ifStmt (((Stmt.ifStmt condition onTrue onFalse?).flatten ++ rest).tail)
      (.ifStmt condition onTrue onFalse?) rest := by
  cases onFalse? with
  | none =>
    simp only [FormedStmt, Stmt.all, Node.isFormed, Bool.and_eq_true, Bool.not_eq_true'] at hf
    simp only [Stmt.flatten, List.cons_append, List.append_assoc, List.length_cons,
      List.tail_cons] at hl ⊢
    have hcondition : Reads (g.condition .ifOpen) _ condition (onTrue.flatten ++ rest) :=
      reads_condition hg hf.2.1 (by simp only [List.length_cons]; omega)
    have helse : Lacks [.kwElse] rest := hc rfl
    rw [List.length_append, List.length_cons] at hl
    have htrue := hg.statement onTrue rest hf.2.2 hf.1 (fun _ => helse) (by omega)
    exact hcondition.bind (htrue.bind ((Reads.pass helse).bind (.pure _ rest)))
  | some onFalse =>
    simp only [FormedStmt, Stmt.all, Node.isFormed, Bool.and_eq_true, Bool.not_eq_true'] at hf
    simp only [Stmt.flatten, List.cons_append, List.append_assoc, List.length_cons,
      List.tail_cons] at hl ⊢
    have hcondition : Reads (g.condition .ifOpen) _ condition
        (onTrue.flatten ++ mark .kwElse :: (onFalse.flatten ++ rest)) :=
      reads_condition hg hf.2.1 (by simp only [List.length_cons]; omega)
    rw [List.length_append, List.length_cons] at hl
    have htrue := hg.statement onTrue (mark .kwElse :: (onFalse.flatten ++ rest)) hf.2.2.1 hf.1.1.1
      (fun hopen => by simp [hf.1.1.2] at hopen) (by omega)
    rw [List.length_append, List.length_cons] at hl
    have hfalse := hg.statement onFalse rest hf.2.2.2 hf.1.2 hc (by omega)
    exact hcondition.bind (htrue.bind ((Reads.accept (by simp)).bind (hfalse.bind (.pure _ rest))))

theorem reads_expressionStmt {e : Expr} {rest : List Token} (hf : FormedExpr e)
    (hl : (e.flatten ++ mark .semicolon :: rest).length < n + 1) :
    Reads (g.expressionStmt (n + 1)) (e.flatten ++ mark .semicolon :: rest) (.expression e) rest :=
  (readsFrom_assignment hg e _ hf (Nat.zero_le _) (.of_eq_none rfl) hl).bind
    (.expect_bind rfl (.pure _ rest))

theorem reads_statementRule (s : Stmt) (rest : List Token) (hf : FormedStmt s)
    (hd : s.isDeclaration = false) (hc : Closes s rest)
    (hl : (s.flatten ++ rest).length < n + 1) :
    Reads (g.statementRule (n + 1)) (s.flatten ++ rest) s rest := by
  cases s with
  | gap => cases hf
  | bare => simp [FormedStmt, Stmt.all, Node.isFormed] at hf
  | varDecl | funDecl | classDecl => cases hd
  | expression value =>
    simp only [FormedStmt, Stmt.all, Node.isFormed, Bool.true_and] at hf
    simp only [Stmt.flatten, List.append_assoc, List.cons_append, List.nil_append] at hl ⊢
    exact (Reads.pass (FormedExpr.lacks hf (by decide) _)).bind (reads_expressionStmt hg hf hl)
  | print value =>
    simp only [FormedStmt, Stmt.all, Node.isFormed, Bool.true_and] at hf
    simp only [Stmt.flatten, List.append_assoc, List.cons_append, List.nil_append,
      List.length_cons] at hl ⊢
    have hvalue : Reads g.expression _ value (mark .semicolon :: rest) :=
      reads_expression hg hf rfl (by omega)
    exact (Reads.accept (by simp)).bind (hvalue.bind (.expect_bind rfl (.pure _ rest)))
  | block body =>
    simp only [FormedStmt, Stmt.all, Node.isFormed, Bool.and_eq_true] at hf
    simp only [Stmt.flatten, List.append_assoc, List.cons_append, List.nil_append,
      List.length_cons] at hl ⊢
    have hbody := reads_block (t := mark .rightBrace) hg hf rfl (Nat.le_succ n)
      (Nat.lt_of_succ_lt_succ hl)
    exact (Reads.accept (by simp)).bind (hbody.bind (.pure _ rest))
  | ifStmt condition onTrue onFalse? =>
    have hif := reads_ifStmt hg hf hc (Nat.le_of_lt_succ hl)
    cases onFalse? <;> simp only [Stmt.flatten, List.cons_append, List.tail_cons] at hif ⊢ <;>
      exact (Reads.accept (by simp)).bind hif
  | whileStmt condition body =>
    simp only [FormedStmt, Stmt.all, Node.isFormed, Bool.and_eq_true, Bool.not_eq_true'] at hf
    simp only [Stmt.flatten, List.append_assoc, List.cons_append, List.length_cons] at hl ⊢
    have hcondition : Reads (g.condition .whileOpen) _ condition (body.flatten ++ rest) :=
      reads_condition hg hf.2.1 (by simp only [List.length_cons]; omega)
    rw [List.length_append, List.length_cons] at hl
    have hbody := hg.statement body rest hf.2.2 hf.1 hc (by omega)
    exact (Reads.accept (by simp)).bind (hcondition.bind (hbody.bind (.pure _ rest)))
  | breakStmt keyword =>
    simp only [FormedStmt, Stmt.all, Node.isFormed, decide_eq_true_eq] at hf
    simp only [Stmt.flatten, List.cons_append, List.nil_append]
    refine (Reads.accept (by simp [hf])).bind ?_
    dsimp only
    rw [hf]
    exact .expect_bind rfl (.pure _ rest)
  | returnStmt keyword value? =>
    have hkeyword : keyword.kind = .kwReturn := by
      cases value? <;>
        simp only [FormedStmt, Stmt.all, Node.isFormed, Bool.and_eq_true, decide_eq_true_eq] at hf
      · exact hf
      · exact hf.1
    have hvalue : ∀ e ∈ value?, FormedExpr e := by
      rintro e rfl
      simp only [FormedStmt, Stmt.all, Bool.and_eq_true] at hf
      exact hf.2
    have hflat : (Stmt.returnStmt keyword value?).flatten ++ rest =
        keyword :: ((value?.map Expr.flatten).getD [] ++ mark .semicolon :: rest) := by
      cases value? <;> simp [Stmt.flatten]
    rw [hflat] at hl ⊢
    rw [List.length_cons] at hl
    refine (Reads.accept (by simp [hkeyword])).bind ?_
    dsimp only
    rw [hkeyword]
    exact (reads_optional hg hvalue (by omega)).bind (.expect_bind rfl (.pure _ rest))

/-! ### Declarations -/

theorem reads_function {f : Function} {role : Role} {rest : List Token} (hf : f.isFormed = true)
    (hbody : f.all Node.isFormed = true) (hl : (f.flatten ++ rest).length < n + 1) :
    Reads (g.function (n + 1) role f.isStatic) (f.flatten ++ rest) f rest := by
  obtain ⟨name, params, body, isStatic, isGetter⟩ := f
  rw [Function.all] at hbody
  simp only [Function.isFormed, Bool.and_eq_true, decide_eq_true_eq] at hf
  obtain ⟨⟨⟨hname, hparams⟩, hgetter⟩, hlisted⟩ := hf
  cases isGetter with
  | true =>
    obtain rfl : params = [] := by simpa using hgetter
    simp only [Function.flatten, if_true, List.cons_append, List.append_assoc, List.nil_append,
      List.length_cons] at hl ⊢
    have hnext : Reads (isNext .leftBrace)
        (mark .leftBrace :: (Stmt.flattenAll body ++ mark .rightBrace :: rest)) true
        (mark .leftBrace :: (Stmt.flattenAll body ++ mark .rightBrace :: rest)) := .next rfl
    have hblock : Reads (g.block (n + 1)) (Stmt.flattenAll body ++ mark .rightBrace :: rest) body
        rest := reads_block hg ⟨hlisted, hbody⟩ rfl (Nat.le_succ n) (by omega)
    exact .expect_bind hname (hnext.bind ((Reads.pure [] _).bind
      (.expect_bind rfl (hblock.bind (.pure _ rest)))))
  | false =>
    simp only [Function.flatten, Bool.false_eq_true, if_false, List.cons_append, List.append_assoc,
      List.nil_append, List.length_cons] at hl ⊢
    have hnext : ∀ ts, Reads (isNext .leftBrace) (mark .leftParen :: ts) false
        (mark .leftParen :: ts) := fun ts => .notNext (.cons (by simp))
    have hlist : Reads (paramList (n + 1)) _ params (mark .rightParen :: mark .leftBrace ::
        (Stmt.flattenAll body ++ mark .rightBrace :: rest)) :=
      reads_paramList hparams rfl (by omega)
    rw [List.length_append, List.length_cons, List.length_cons] at hl
    have hblock : Reads (g.block (n + 1)) (Stmt.flattenAll body ++ mark .rightBrace :: rest) body
        rest := reads_block hg ⟨hlisted, hbody⟩ rfl (Nat.le_succ n) (by omega)
    refine .expect_bind hname ((hnext _).bind (.expect_bind rfl (hlist.bind (.expect_bind rfl ?_))))
    exact (Reads.pure params _).bind (.expect_bind rfl (hblock.bind (.pure _ rest)))

theorem reads_methods {fs : List Function} {t : Token} {rest : List Token} {steps : Nat}
    (hf : ∀ f ∈ fs, f.isFormed = true) (hbody : Function.allOf Node.isFormed fs = true)
    (ht : t.kind = .rightBrace) (hs : (Function.flattenAll fs ++ t :: rest).length < steps)
    (hl : (Function.flattenAll fs ++ t :: rest).length < n + 1) :
    Reads (g.methods (n + 1) steps) (Function.flattenAll fs ++ t :: rest) fs (t :: rest) := by
  induction fs generalizing steps with
  | nil =>
    cases steps with
    | zero => exact absurd hs (Nat.not_lt_zero _)
    | succ steps => exact (Reads.next ht).bind (Reads.atEnd.bind (.pure [] _))
  | cons f fs ih =>
    cases steps with
    | zero => exact absurd hs (Nat.not_lt_zero _)
    | succ steps =>
      simp only [Function.allOf, Bool.and_eq_true] at hbody
      have hflat : Function.flattenAll (f :: fs) ++ t :: rest =
          (if f.isStatic then [mark .kwClass] else []) ++
            (f.flatten ++ (Function.flattenAll fs ++ t :: rest)) := by
        simp [Function.flattenAll]
      rw [hflat] at hs hl ⊢
      simp only [List.length_append] at hs hl
      have hname : f.name.kind = .identifier := by
        have := hf f (by simp)
        simp only [Function.isFormed, Bool.and_eq_true, decide_eq_true_eq] at this
        exact this.1.1.1
      obtain ⟨tail, htail⟩ := f.flatten_eq_cons
      have hpos : 0 < f.flatten.length := by simp [htail]
      have hfunction : Reads (g.function (n + 1) .method f.isStatic) _ f
          (Function.flattenAll fs ++ t :: rest) :=
        reads_function hg (hf f (by simp)) hbody.1 (by simp only [List.length_append]; omega)
      have hrest : Reads (g.methods (n + 1) steps) _ fs (t :: rest) :=
        ih (fun f' hf' => hf f' (by simp [hf'])) hbody.2
          (by simp only [List.length_append]; omega) (by simp only [List.length_append]; omega)
      have hmethods : Reads (g.function (n + 1) .method f.isStatic >>= fun m =>
          g.methods (n + 1) steps >>= fun ms => pure (m :: ms)) _ (f :: fs) (t :: rest) :=
        hfunction.bind (hrest.bind (.pure _ _))
      cases hstatic : f.isStatic with
      | true =>
        rw [hstatic] at hmethods
        have hclass : Lacks [.rightBrace] (mark .kwClass :: (f.flatten ++
            (Function.flattenAll fs ++ t :: rest))) := .cons (by simp)
        have hstart : Reads (accept? [.kwClass]) (mark .kwClass :: (f.flatten ++
            (Function.flattenAll fs ++ t :: rest))) (some (mark .kwClass)) (f.flatten ++
            (Function.flattenAll fs ++ t :: rest)) := .accept (by simp)
        exact (Reads.notNext hclass).bind (Reads.atEnd.bind (hstart.bind hmethods))
      | false =>
        rw [hstatic] at hmethods
        have hlacks : Lacks [.rightBrace, .kwClass] (f.flatten ++
            (Function.flattenAll fs ++ t :: rest)) := by
          rw [htail]
          exact .cons (by simp [hname])
        have hend : (f.flatten ++ (Function.flattenAll fs ++ t :: rest)).isEmpty = false := by
          rw [htail]
          rfl
        refine (Reads.notNext (hlacks.mono (by simp))).bind (Reads.atEnd.bind ?_)
        rw [hend]
        exact (Reads.pass (hlacks.mono (by simp))).bind hmethods

theorem reads_classDecl {name : Token} {superclass? : Option (Token × Address)}
    {methods : List Function} {rest : List Token}
    (hf : FormedStmt (.classDecl name superclass? methods))
    (hl : ((Stmt.classDecl name superclass? methods).flatten ++ rest).length < n + 1) :
    Reads (g.classDecl (n + 1)) (((Stmt.classDecl name superclass? methods).flatten ++ rest).tail)
      (.classDecl name superclass? methods) rest := by
  simp only [FormedStmt, Stmt.all, Node.isFormed, Bool.and_eq_true, decide_eq_true_eq,
    List.all_eq_true] at hf
  obtain ⟨⟨⟨hname, hparent⟩, hformed⟩, hbodies⟩ := hf
  have hmethods : ∀ ts, (mark .leftBrace :: (Function.flattenAll methods ++
      mark .rightBrace :: ts)).length < n + 1 →
      Reads (g.methods (n + 1) (n + 1)) (Function.flattenAll methods ++ mark .rightBrace :: ts)
        methods (mark .rightBrace :: ts) := by
    intro ts hts
    rw [List.length_cons] at hts
    exact reads_methods hg hformed hbodies rfl (by omega) (by omega)
  cases superclass? with
  | none =>
    simp only [Stmt.flatten, List.cons_append, List.append_assoc, List.nil_append,
      List.length_cons, List.tail_cons] at hl ⊢
    refine .expect_bind hname ((Reads.pass (.cons (by simp))).bind ((Reads.pure none _).bind ?_))
    refine .expect_bind rfl ((hmethods rest ?_).bind (.expect_bind rfl (.pure _ rest)))
    rw [List.length_cons]
    omega
  | some parent =>
    obtain ⟨parent, address⟩ := parent
    simp only [Option.all_some, decide_eq_true_eq] at hparent
    obtain ⟨hkind, rfl⟩ := hparent
    simp only [Stmt.flatten, List.cons_append, List.append_assoc, List.nil_append,
      List.length_cons, List.tail_cons] at hl ⊢
    refine .expect_bind hname ((Reads.accept (by simp)).bind (.expect_bind hkind ?_))
    refine (Reads.pure _ _).bind (.expect_bind rfl ((hmethods rest ?_).bind (.expect_bind rfl
      (.pure _ rest))))
    rw [List.length_cons]
    omega

theorem reads_varDecl {name : Token} {init? : Option Expr} {rest : List Token}
    (hf : FormedStmt (.varDecl name init?))
    (hl : ((Stmt.varDecl name init?).flatten ++ rest).length < n + 1) :
    Reads g.varDecl (((Stmt.varDecl name init?).flatten ++ rest).tail) (.varDecl name init?)
      rest := by
  cases init? with
  | none =>
    simp only [FormedStmt, Stmt.all, Node.isFormed, decide_eq_true_eq] at hf
    simp only [Stmt.flatten, List.cons_append, List.nil_append, List.tail_cons]
    exact .expect_bind hf ((Reads.pass (.cons (by simp))).bind ((Reads.pure none _).bind
      (.expect_bind rfl (.pure _ rest))))
  | some init =>
    simp only [FormedStmt, Stmt.all, Node.isFormed, Bool.and_eq_true, decide_eq_true_eq] at hf
    simp only [Stmt.flatten, List.cons_append, List.append_assoc, List.nil_append,
      List.length_cons, List.tail_cons] at hl ⊢
    have hinit : Reads g.expression _ init (mark .semicolon :: rest) :=
      reads_expression hg hf.2 rfl (by omega)
    exact .expect_bind hf.1 ((Reads.accept (by simp)).bind (hinit.map.bind
      (.expect_bind rfl (.pure _ rest))))

theorem reads_declared (s : Stmt) (rest : List Token) (hf : FormedStmt s)
    (hfun : s.startsWithFun = false) (hc : Closes s rest)
    (hl : (s.flatten ++ rest).length < n + 1) :
    Reads (g.declared (n + 1)) (s.flatten ++ rest) s rest := by
  by_cases hd : s.isDeclaration = true
  · cases s with
    | varDecl name init? =>
      have hvar := reads_varDecl hg hf hl
      cases init? <;> simp only [Stmt.flatten, List.cons_append, List.tail_cons] at hvar ⊢ <;>
        exact (Reads.accept (by simp)).bind hvar
    | funDecl f =>
      simp only [FormedStmt, Stmt.all, Node.isFormed, Bool.and_eq_true, Bool.not_eq_true'] at hf
      obtain ⟨⟨hformed, hstatic⟩, hbody⟩ := hf
      simp only [Stmt.flatten, List.cons_append, List.length_cons] at hl ⊢
      have hfunction : Reads (g.function (n + 1) .function f.isStatic) _ f rest :=
        reads_function hg hformed hbody (by omega)
      rw [hstatic] at hfunction
      exact (Reads.accept (by simp)).bind (hfunction.bind (.pure _ rest))
    | classDecl name superclass? methods =>
      have hclass := reads_classDecl hg hf hl
      cases superclass? <;>
        simp only [Stmt.flatten, List.cons_append, List.tail_cons] at hclass ⊢ <;>
        exact (Reads.accept (by simp)).bind hclass
    | _ => cases hd
  · have hlacks : Lacks declStarts (s.flatten ++ rest) := by
      obtain ⟨t, tail, hflat, -, hdecl⟩ := hf.head
      rw [hflat]
      refine .cons fun hm => ?_
      rcases hdecl hm with hd' | hd'
      · exact hd hd'
      · exact absurd hd' (by simp [hfun])
    exact (Reads.pass hlacks).bind
      (reads_statementRule hg s rest hf (by simpa using hd) hc hl)

theorem reads_declarationRule (s : Stmt) (rest : List Token) (hf : FormedStmt s)
    (hfun : s.startsWithFun = false) (hc : Closes s rest)
    (hl : (s.flatten ++ rest).length < n + 1) :
    Reads (g.declarationRule (n + 1)) (s.flatten ++ rest) s rest := by
  intro cs
  unfold declarationRule
  rw [reads_declared hg s rest hf hfun hc hl cs]

theorem Complete.next : Complete (g.next (n + 1)) (n + 1) where
  expression := readsFrom_assignment hg
  unary := readsFrom_unaryRule hg
  statement := reads_statementRule hg
  declaration := reads_declarationRule hg

end Rules

theorem complete_grammar (n : Nat) : Complete (grammar n) n := by
  induction n with
  | zero =>
    refine ⟨?_, ?_, ?_, ?_⟩
    · exact fun _ _ _ _ _ hl => absurd hl (Nat.not_lt_zero _)
    · exact fun _ _ _ _ _ hl => absurd hl (Nat.not_lt_zero _)
    · exact fun _ _ _ _ _ hl => absurd hl (Nat.not_lt_zero _)
    · exact fun _ _ _ _ _ hl => absurd hl (Nat.not_lt_zero _)
  | succ n ih => exact ih.next

theorem reads_program {g : Grammar} {n : Nat} (hg : Complete g n) {ss : List Stmt} {steps : Nat}
    (hf : Stmt.Formed ss) (hs : (Stmt.flattenAll ss).length < steps)
    (hl : (Stmt.flattenAll ss).length < n) :
    Reads (program g.declaration steps) (Stmt.flattenAll ss) ss [] := by
  induction ss generalizing steps with
  | nil =>
    cases steps with
    | zero => exact absurd hs (Nat.not_lt_zero _)
    | succ steps => exact Reads.atEnd.bind (.pure [] _)
  | cons s ss ih =>
    cases steps with
    | zero => exact absurd hs (Nat.not_lt_zero _)
    | succ steps =>
      obtain ⟨hlisted, hformed⟩ := hf
      simp only [Stmt.areListed, List.all_cons, Bool.and_eq_true, Bool.not_eq_true'] at hlisted
      simp only [Stmt.allOf, Bool.and_eq_true] at hformed
      obtain ⟨t, tail, hflat, -⟩ := FormedStmt.head hformed.1
      have hpos : 0 < s.flatten.length := by simp [hflat]
      simp only [Stmt.flattenAll] at hs hl ⊢
      have hend : (s.flatten ++ Stmt.flattenAll ss).isEmpty = false := by
        rw [hflat]
        rfl
      have hcloses : Closes s (Stmt.flattenAll ss) := by
        intro _
        have : Lacks [.kwElse] (Stmt.flattenAll ss ++ []) := lacks_else_flattenAll hformed.2 .nil
        rwa [List.append_nil] at this
      have hs' := hg.declaration s _ hformed.1 hlisted.1 hcloses hl
      rw [List.length_append] at hs hl
      have hrest : Reads (program g.declaration steps) (Stmt.flattenAll ss) ss [] :=
        ih ⟨hlisted.2, hformed.2⟩ (by omega) (by omega)
      refine Reads.atEnd.bind ?_
      rw [hend]
      exact hs'.bind (hrest.bind (.pure _ _))

/-- The tokens of well-formed statements are read as just these statements, without complaint. -/
theorem parse_flatten (ss : List Stmt) (h : Stmt.Formed ss) :
    parse (Stmt.flattenAll ss) = ⟨ss, []⟩ := by
  have hg := complete_grammar ((Stmt.flattenAll ss).length + 1)
  have hread := reads_program hg h (Nat.lt_succ_self _) (Nat.lt_succ_self _) []
  unfold parse
  dsimp only
  rw [hread]

/-- A loop around a conditional whose first branch ends, inside a block, in one without an `else`;
the other branch is an expression that starts with an anonymous function. A class with a getter and
a method of its own follows. -/
def danglingElse : List Stmt :=
  [.whileStmt (.unary ⟨.bang, "!", .nil, 1⟩ (.get (.this ⟨.kwThis, "this", .nil, 1⟩ .free)
      (.ident "a" 1)))
    (.ifStmt (.logical (.literal .nil) ⟨.kwOr, "or", .nil, 1⟩
        (.grouping (.assign (.ident "x" 1) .free (.literal (.text "s")))))
      (.block [.ifStmt (.variable (.ident "y" 1) .free) (.print (.literal (.bool true))) none])
      (some (.expression (.call (.lambda [.ident "p" 2] [.breakStmt ⟨.kwBreak, "break", .nil, 2⟩])
        ⟨.rightParen, ")", .nil, 2⟩ [.literal .nil])))),
    .classDecl (.ident "K" 3) (some (.ident "L" 3, .free))
      [⟨.ident "area" 3, [], [], false, true⟩, ⟨.ident "make" 4, [.ident "n" 4], [], true, false⟩]]

theorem parse_flatten_danglingElse : Stmt.Formed danglingElse ∧
    parse (Stmt.flattenAll danglingElse) = ⟨danglingElse, []⟩ :=
  ⟨by decide, parse_flatten danglingElse (by decide)⟩

end Lox.Tree
