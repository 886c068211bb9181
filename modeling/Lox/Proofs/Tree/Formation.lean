import Lox.Proofs.Nested

/-!
# Well-formed trees and their tokens

The rules by which the grammar forms trees, stated node by node, and the tokens that write a tree.

## Design notes

The levels of precedence are numbered from the loosest: 0 assignments, 1 disjunctions,
2 conjunctions, 3 equalities, 4 comparisons, 5 sums, 6 products, 7 prefix operators, 8 calls and
properties, 9 all that holds together by itself.

A tree keeps the tokens of its names, operators and some of its keywords; these are written as they
are. All other signs and keywords are written by `Token.mark`. Any literal may stand in a tree.
-/

namespace Lox

/-! ### Precedence -/

def Token.Kind.binaryLevel? : Token.Kind → Option Nat
  | .bangEqual | .equalEqual => some 3
  | .greater | .greaterEqual | .less | .lessEqual => some 4
  | .minus | .plus => some 5
  | .slash | .star => some 6
  | _ => none

def Token.Kind.logicalLevel? : Token.Kind → Option Nat
  | .kwOr => some 1
  | .kwAnd => some 2
  | _ => none

def Expr.precedence : Expr → Nat
  | .assign .. | .set .. => 0
  | .logical _ op _ => op.kind.logicalLevel?.getD 0
  | .binary _ op _ => op.kind.binaryLevel?.getD 0
  | .unary .. => 7
  | .call .. | .get .. => 8
  | _ => 9

theorem Expr.precedence_logical_le (left : Expr) (op : Token) (right : Expr) :
    (Expr.logical left op right).precedence ≤ 6 := by
  simp only [Expr.precedence]
  cases op.kind <;> simp [Token.Kind.logicalLevel?]

theorem Expr.precedence_binary_le (left : Expr) (op : Token) (right : Expr) :
    (Expr.binary left op right).precedence ≤ 6 := by
  simp only [Expr.precedence]
  cases op.kind <;> simp [Token.Kind.binaryLevel?]

/-- Whether an operator of some level may join two expressions. It associates to the left. -/
def Expr.joins (level? : Option Nat) (left right : Expr) : Bool :=
  match level? with
  | some level => decide (level ≤ left.precedence) && decide (level < right.precedence)
  | none => false

/-! ### Ends of statements -/

/-- Whether the first token of an expression is that of an anonymous function. -/
def Expr.startsWithFun : Expr → Bool
  | .lambda .. => true
  | .binary left _ _ | .logical left _ _ => left.startsWithFun
  | .call callee _ _ => callee.startsWithFun
  | .get object _ | .set object _ _ => object.startsWithFun
  | _ => false

/-- Whether a statement would be taken for the declaration of a function. -/
def Stmt.startsWithFun : Stmt → Bool
  | .expression value => value.startsWithFun
  | _ => false

/-- Whether an `else` after a statement would belong to a conditional at its end. -/
def Stmt.endsOpen : Stmt → Bool
  | .ifStmt _ _ none => true
  | .ifStmt _ _ (some onFalse) => onFalse.endsOpen
  | .whileStmt _ body => body.endsOpen
  | _ => false

/-- Whether a statement may stand in lists only. -/
def Stmt.isDeclaration : Stmt → Bool
  | .varDecl .. | .funDecl _ | .classDecl .. => true
  | _ => false

/-! ### Rules of formation -/

/-- Whether statements may follow one another. -/
def Stmt.areListed (ss : List Stmt) : Bool := ss.all (!·.startsWithFun)

/-- Whether tokens may be the parameters of a function. -/
def Token.areParams (params : List Token) : Bool :=
  decide (params.length ≤ 255) && params.all (·.kind = .identifier)

def Function.isFormed (f : Function) : Bool :=
  decide (f.name.kind = .identifier) && Token.areParams f.params &&
    (!f.isGetter || f.params.isEmpty) && Stmt.areListed f.body

def Node.isFormed : Node → Bool
  | .expr (.literal _) | .expr (.grouping _) => true
  | .expr (.unary op right) =>
    decide (op.kind = .bang ∨ op.kind = .minus) && decide (7 ≤ right.precedence)
  | .expr (.binary left op right) => Expr.joins op.kind.binaryLevel? left right
  | .expr (.logical left op right) => Expr.joins op.kind.logicalLevel? left right
  | .expr (.variable name address) | .expr (.assign name address _) =>
    decide (name.kind = .identifier ∧ address = .free)
  | .expr (.call callee paren arguments) =>
    decide (8 ≤ callee.precedence ∧ paren.kind = .rightParen ∧ arguments.length ≤ 255)
  | .expr (.lambda params body) => Token.areParams params && Stmt.areListed body
  | .expr (.get object name) | .expr (.set object name _) =>
    decide (8 ≤ object.precedence ∧ name.kind = .identifier)
  | .expr (.this keyword address) => decide (keyword.kind = .kwThis ∧ address = .free)
  | .expr (.inner keyword method address) =>
    decide (keyword.kind = .kwInner ∧ method.kind = .identifier ∧ address = .free)
  | .stmt (.expression _) | .stmt (.print _) => true
  | .stmt (.varDecl name _) => decide (name.kind = .identifier)
  | .stmt (.block body) => Stmt.areListed body
  | .stmt (.ifStmt _ onTrue none) => !onTrue.isDeclaration
  | .stmt (.ifStmt _ onTrue (some onFalse)) =>
    !onTrue.isDeclaration && !onTrue.endsOpen && !onFalse.isDeclaration
  | .stmt (.whileStmt _ body) => !body.isDeclaration
  | .stmt (.breakStmt keyword) => decide (keyword.kind = .kwBreak)
  | .stmt (.returnStmt keyword _) => decide (keyword.kind = .kwReturn)
  | .stmt (.funDecl f) => f.isFormed && !f.isStatic
  | .stmt (.classDecl name superclass? methods) =>
    decide (name.kind = .identifier) &&
      superclass?.all (fun parent => decide (parent.1.kind = .identifier ∧ parent.2 = .free)) &&
      methods.all (·.isFormed)
  | .expr .gap | .expr (.super ..) | .stmt .gap | .stmt (.bare _) => false

/-- A list of statements is formed by the rules of the grammar. -/
def Stmt.Formed (ss : List Stmt) : Prop :=
  Stmt.areListed ss = true ∧ Stmt.allOf Node.isFormed ss = true

instance (ss : List Stmt) : Decidable (Stmt.Formed ss) := inferInstanceAs (Decidable (_ ∧ _))

/-! ### The tokens of a tree -/

namespace Token

/-- The text of the signs and keywords that no tree keeps. -/
def Kind.text : Kind → String
  | .leftParen => "("
  | .rightParen => ")"
  | .leftBrace => "\x7b"
  | .rightBrace => "\x7d"
  | .comma => ","
  | .dot => "."
  | .semicolon => ";"
  | .equal => "="
  | .less => "<"
  | .kwClass => "class"
  | .kwElse => "else"
  | .kwFalse => "false"
  | .kwFun => "fun"
  | .kwIf => "if"
  | .kwNil => "nil"
  | .kwPrint => "print"
  | .kwTrue => "true"
  | .kwVar => "var"
  | .kwWhile => "while"
  | kind => kind.name

/-- The token that writes a sign or a keyword. -/
def mark (kind : Kind) : Token := ⟨kind, kind.text, .nil, 1⟩

@[simp] theorem kind_mark (kind : Kind) : (mark kind).kind = kind := rfl

def ofLiteral : Literal → Token
  | .nil => mark .kwNil
  | .bool true => mark .kwTrue
  | .bool false => mark .kwFalse
  | .num x => ⟨.number, (Literal.num x).display, .num x, 1⟩
  | .int i => ⟨.number, (Literal.int i).display, .int i, 1⟩
  | .text s => ⟨.string, "\"" ++ s ++ "\"", .text s, 1⟩

def listed (params : List Token) : List Token := params.intersperse (mark .comma)

def value? (t : Token) : Option Literal :=
  match t.kind with
  | .kwNil => some .nil
  | .kwTrue => some (.bool true)
  | .kwFalse => some (.bool false)
  | .number | .string => some t.literal
  | _ => none

def isTyped (t : Token) : Bool :=
  match t.kind, t.literal with
  | .number, .num _ | .number, .int _ | .string, .text _ => true
  | .number, _ | .string, _ => false
  | _, _ => true

/-- The token `t` of a tree writes what the token `u` says: they are of one kind, have one lexeme if
they are identifiers, and stand for one constant if for any. A token whose literal does not suit its
kind counts by its constant alone. -/
structure Alike (t u : Token) : Prop where
  kind : u.isTyped = true → t.kind = u.kind
  lexeme : u.kind = .identifier → t.lexeme = u.lexeme
  value : t.value? = u.value?

theorem Alike.refl (t : Token) : Alike t t := ⟨fun _ => rfl, fun _ => rfl, rfl⟩

/-- The kinds whose tokens differ in more than their kind. -/
def Kind.isNameOrValue (kind : Kind) : Bool :=
  kind = .identifier || kind = .number || kind = .string

theorem Alike.mark {kind : Kind} {u : Token} (h : u.kind = kind)
    (hk : kind.isNameOrValue = false) : Alike (mark kind) u := by
  subst h
  refine ⟨fun _ => rfl, fun hu => ?_, ?_⟩
  · simp [hu, Kind.isNameOrValue] at hk
  · unfold value?
    cases hu : u.kind <;> simp_all [Kind.isNameOrValue, Token.mark]

theorem Alike.ofLiteral {u : Token} (h : u.kind = .number ∨ u.kind = .string) :
    Alike (ofLiteral u.literal) u := by
  obtain ⟨kind, lexeme, literal, line⟩ := u
  have hvalue : ∀ l, (Token.ofLiteral l).value? = some l := by
    intro l
    cases l with
    | bool b => cases b <;> rfl
    | _ => rfl
  rcases h with rfl | rfl
  · refine ⟨fun ht => ?_, nofun, hvalue literal⟩
    cases literal <;> simp_all [isTyped, Token.ofLiteral]
  · refine ⟨fun ht => ?_, nofun, hvalue literal⟩
    cases literal <;> simp_all [isTyped, Token.ofLiteral]

theorem Alike.kind_eq_fun {t u : Token} (h : Alike t u) (ht : t.kind = .kwFun) :
    u.kind = .kwFun := by
  by_cases hu : u.isTyped = true
  · rw [← h.kind hu, ht]
  · have hvalue := h.value
    unfold isTyped at hu
    split at hu <;> simp_all [value?]

end Token

open Token (mark)

mutual

def Expr.flatten : Expr → List Token
  | .gap => []
  | .literal value => [.ofLiteral value]
  | .grouping body => mark .leftParen :: (body.flatten ++ [mark .rightParen])
  | .unary op right => op :: right.flatten
  | .binary left op right | .logical left op right => left.flatten ++ op :: right.flatten
  | .variable name _ => [name]
  | .assign name _ value => name :: mark .equal :: value.flatten
  | .call callee paren arguments =>
    callee.flatten ++ mark .leftParen :: (Expr.flattenAll arguments ++ [paren])
  | .lambda params body =>
    mark .kwFun :: mark .leftParen :: (Token.listed params ++
      mark .rightParen :: mark .leftBrace :: (Stmt.flattenAll body ++ [mark .rightBrace]))
  | .get object name => object.flatten ++ [mark .dot, name]
  | .set object name value => object.flatten ++ mark .dot :: name :: mark .equal :: value.flatten
  | .this keyword _ => [keyword]
  | .super keyword method _ | .inner keyword method _ => [keyword, mark .dot, method]

def Expr.flattenAll : List Expr → List Token
  | [] => []
  | e :: es => e.flatten ++ Expr.flattenMore es

def Expr.flattenMore : List Expr → List Token
  | [] => []
  | e :: es => mark .comma :: (e.flatten ++ Expr.flattenMore es)

def Stmt.flatten : Stmt → List Token
  | .gap => []
  | .bare value => value.flatten
  | .expression value => value.flatten ++ [mark .semicolon]
  | .print value => mark .kwPrint :: (value.flatten ++ [mark .semicolon])
  | .varDecl name none => [mark .kwVar, name, mark .semicolon]
  | .varDecl name (some init) =>
    mark .kwVar :: name :: mark .equal :: (init.flatten ++ [mark .semicolon])
  | .block body => mark .leftBrace :: (Stmt.flattenAll body ++ [mark .rightBrace])
  | .ifStmt condition onTrue none =>
    mark .kwIf :: mark .leftParen :: (condition.flatten ++ mark .rightParen :: onTrue.flatten)
  | .ifStmt condition onTrue (some onFalse) =>
    mark .kwIf :: mark .leftParen :: (condition.flatten ++ mark .rightParen ::
      (onTrue.flatten ++ mark .kwElse :: onFalse.flatten))
  | .whileStmt condition body =>
    mark .kwWhile :: mark .leftParen :: (condition.flatten ++ mark .rightParen :: body.flatten)
  | .breakStmt keyword => [keyword, mark .semicolon]
  | .funDecl f => mark .kwFun :: f.flatten
  | .classDecl name none methods =>
    mark .kwClass :: name :: mark .leftBrace ::
      (Function.flattenAll methods ++ [mark .rightBrace])
  | .classDecl name (some (parent, _)) methods =>
    mark .kwClass :: name :: mark .less :: parent :: mark .leftBrace ::
      (Function.flattenAll methods ++ [mark .rightBrace])
  | .returnStmt keyword none => [keyword, mark .semicolon]
  | .returnStmt keyword (some value) => keyword :: (value.flatten ++ [mark .semicolon])

def Stmt.flattenAll : List Stmt → List Token
  | [] => []
  | s :: ss => s.flatten ++ Stmt.flattenAll ss

def Function.flatten : Function → List Token
  | ⟨name, params, body, _, isGetter⟩ =>
    let opening := if isGetter then [] else
      mark .leftParen :: (Token.listed params ++ [mark .rightParen])
    name :: (opening ++ mark .leftBrace :: (Stmt.flattenAll body ++ [mark .rightBrace]))

def Function.flattenAll : List Function → List Token
  | [] => []
  | f :: fs => (if f.isStatic then [mark .kwClass] else []) ++ (f.flatten ++ Function.flattenAll fs)

end

theorem Function.flatten_eq_cons (f : Function) : ∃ tail, f.flatten = f.name :: tail := by
  obtain ⟨name, params, body, isStatic, isGetter⟩ := f
  exact ⟨_, by simp only [Function.flatten]; rfl⟩

end Lox
