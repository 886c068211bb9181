import Lox.Tree

/-!
# Reading trees

The grammar of the language as a family of readers of token lists.

## Main definitions

* `Tree.Flaw`, `Tree.Complaint`: what can be wrong with a token list, and where.
* `Tree.Reader`: a reader consumes tokens from the front and may record complaints on its way.
* `Tree.Grammar`, `Tree.grammar`: the four mutually recursive rules, closed up to a bound on nesting.
* `Tree.parse`, `Tree.parseExpression`: a whole program, and one expression.

## Design notes

A rule refers to the rules nested in it through a `Grammar`, and only after it has consumed a token.
`grammar n` closes the rules up to nesting depth `n`, so a bound of one more than the number of
tokens is never reached. A refusal inside a declaration is recorded there; reading goes on at the next
token that may start a statement, and the declaration becomes a `Stmt.gap`. Two flaws, an
assignment to something that is no variable or property and a list that is too long, are recorded
without a refusal. How deep a host lets rules nest is not part of the model.
-/

namespace Lox.Tree

/-- What a named function is declared as. -/
inductive Role where
  | function
  | method
deriving DecidableEq, Repr

def Role.word : Role → String
  | function => "function"
  | method => "method"

/-- What can be wrong with a token list: what was expected and not found, for the most part. -/
inductive Flaw where
  | functionName (role : Role)
  | functionOpen (role : Role)
  | functionBody (role : Role)
  | parameterName
  | parametersClose
  | tooManyParameters
  | variableName
  | variableEnd
  | printEnd
  | blockClose
  | expressionEnd
  | ifOpen
  | whileOpen
  | conditionClose
  | forOpen
  | forConditionEnd
  | forClose
  | breakEnd
  | returnEnd
  | assignmentTarget
  | innerDot
  | innerMethod
  | groupingClose
  | operand
  | lambdaOpen
  | lambdaClose
  | lambdaBody
  | propertyName
  | argumentsClose
  | className
  | superclassName
  | classOpen
  | classClose
deriving DecidableEq, Repr

def Flaw.message : Flaw → String
  | functionName role => "期望" ++ role.word ++ "名称。"
  | functionOpen role => "期望" ++ role.word ++ "名后的'('。"
  | functionBody role => "期望" ++ role.word ++ "体开始的'\x7b'。"
  | parameterName => "期望参数名。"
  | parametersClose => "期望')'。"
  | tooManyParameters => "函数参数不能超过255个。"
  | variableName => "期望变量名。"
  | variableEnd => "期望 ';' 在变量声明后。"
  | printEnd => "打印语句后需要';'。"
  | blockClose => "代码块后需要'\x7d'。"
  | expressionEnd => "表达式后需要';'。"
  | ifOpen => "if语句后需要'('。"
  | whileOpen => "while语句后需要'('。"
  | conditionClose => "条件表达式后需要')'。"
  | forOpen => "for语句后需要'('。"
  | forConditionEnd => "循环条件后需要';'。"
  | forClose => "for循环声明后需要')'。"
  | breakEnd => "break语句后需要';'。"
  | returnEnd => "return语句后需要';'。"
  | assignmentTarget => "无效的赋值目标。"
  | innerDot => "期望'.'在'inner'后。"
  | innerMethod => "期望子类方法名。"
  | groupingClose => "期望 ')' 在表达式后。"
  | operand => "期望表达式。"
  | lambdaOpen => "Lambda表达式后需要'('。"
  | lambdaClose => "参数列表后需要')'。"
  | lambdaBody => "Lambda表达式需要'\x7b'开始的函数体。"
  | propertyName => "期望属性名。"
  | argumentsClose => "期望参数后的')'。"
  | className => "期望类名。"
  | superclassName => "期望父类名。"
  | classOpen => "期望 '\x7b' 在类体前。"
  | classClose => "期望 '\x7d' 在类体后。"

/-- A flaw and the token at which it was noticed; no token stands for the end of the list. -/
structure Complaint where
  token? : Option Token
  flaw : Flaw
deriving DecidableEq, Repr

/-- What a reader works on: the tokens not yet consumed and the complaints so far. -/
structure Cursor where
  rest : List Token
  complaints : List Complaint
deriving DecidableEq, Repr

/-- Why a reader gives up: a refusal with its complaint, or the bound on nesting. -/
inductive Stop where
  | refused (complaint : Complaint)
  | tooDeep
deriving DecidableEq, Repr

abbrev Reader := EStateM Stop Cursor

namespace Reader

def peek? : Reader (Option Token.Kind) := do
  return (← get).rest.head?.map (·.kind)

def isNext (kind : Token.Kind) : Reader Bool := do
  return (← peek?) = some kind

def atEnd : Reader Bool := do
  return (← get).rest.isEmpty

/-- Consumes the next token if it is of one of the given kinds. -/
def accept? (kinds : List Token.Kind) : Reader (Option Token) := do
  match (← get).rest with
  | t :: rest =>
    if kinds.contains t.kind then
      modify fun c => { c with rest := rest }
      return some t
    else
      return none
  | [] => return none

def refuse {α : Type} (flaw : Flaw) : Reader α := do
  throw (.refused ⟨(← get).rest.head?, flaw⟩)

def complain (token? : Option Token) (flaw : Flaw) : Reader Unit :=
  modify fun c => { c with complaints := c.complaints ++ [⟨token?, flaw⟩] }

/-- Consumes a token of the given kind, or refuses the next one. -/
def expect (kind : Token.Kind) (flaw : Flaw) : Reader Token := do
  match ← accept? [kind] with
  | some t => return t
  | none => refuse flaw

/-- Complains about the next token if a list has reached its greatest length. -/
def limit (count : Nat) : Reader Unit := do
  if 255 ≤ count then
    complain (← get).rest.head? .tooManyParameters

end Reader

/-- The rules that others refer to. -/
structure Grammar where
  expression : Reader Expr
  unary : Reader Expr
  statement : Reader Stmt
  declaration : Reader Stmt

namespace Grammar

/-- The rules at which nesting ends. -/
def bottom : Grammar :=
  ⟨throw .tooDeep, throw .tooDeep, throw .tooDeep, throw .tooDeep⟩

open Reader

/-! ### Lists

Each list has a bound on its length; every element consumes a token, so the bound of a grammar
serves. -/

def joinLeft (kinds : List Token.Kind) (join : Expr → Token → Expr → Expr)
    (operand : Reader Expr) : Nat → Expr → Reader Expr
  | 0, _ => throw .tooDeep
  | bound + 1, left => do
    match ← accept? kinds with
    | none => return left
    | some op =>
      let right ← operand
      joinLeft kinds join operand bound (join left op right)

/-- One precedence level of left-associative operators over the next one. -/
def level (bound : Nat) (kinds : List Token.Kind) (join : Expr → Token → Expr → Expr)
    (operand : Reader Expr) : Reader Expr := do
  joinLeft kinds join operand bound (← operand)

def params : Nat → Nat → Reader (List Token)
  | 0, _ => throw .tooDeep
  | bound + 1, count => do
    limit count
    let param ← expect .identifier .parameterName
    match ← accept? [.comma] with
    | some _ => return param :: (← params bound (count + 1))
    | none => return [param]

/-- The parameters up to a closing parenthesis. -/
def paramList (bound : Nat) : Reader (List Token) := do
  if ← isNext .rightParen then return [] else params bound 0

def arguments (expression : Reader Expr) : Nat → Nat → Reader (List Expr)
  | 0, _ => throw .tooDeep
  | bound + 1, count => do
    limit count
    let argument ← expression
    match ← accept? [.comma] with
    | some _ => return argument :: (← arguments expression bound (count + 1))
    | none => return [argument]

def declarations (declaration : Reader Stmt) : Nat → Reader (List Stmt)
  | 0 => throw .tooDeep
  | bound + 1 => do
    if (← isNext .rightBrace) || (← atEnd) then return []
    else
      let s ← declaration
      return s :: (← declarations declaration bound)

/-- The statements of a block whose opening brace is consumed. -/
def block (g : Grammar) (bound : Nat) : Reader (List Stmt) := do
  let body ← declarations g.declaration bound
  let _ ← expect .rightBrace .blockClose
  return body

/-! ### Expressions -/

/-- An anonymous function whose keyword is consumed. -/
def lambda (g : Grammar) (bound : Nat) : Reader Expr := do
  let _ ← expect .leftParen .lambdaOpen
  let ps ← paramList bound
  let _ ← expect .rightParen .lambdaClose
  let _ ← expect .leftBrace .lambdaBody
  return .lambda ps (← g.block bound)

/-- Literals, names, groupings and anonymous functions. -/
def primary (g : Grammar) (bound : Nat) : Reader Expr := do
  let t? ← accept? [.kwTrue, .kwFalse, .kwNil, .number, .string, .kwInner, .kwThis, .identifier,
    .leftParen, .kwFun]
  match t? with
  | none => refuse .operand
  | some t =>
    match t.kind with
    | .kwTrue => return .literal (.bool true)
    | .kwFalse => return .literal (.bool false)
    | .kwNil => return .literal .nil
    | .kwInner =>
      let _ ← expect .dot .innerDot
      let method ← expect .identifier .innerMethod
      return .inner t method .free
    | .kwThis => return .this t .free
    | .identifier => return .variable t .free
    | .leftParen =>
      let e ← g.expression
      let _ ← expect .rightParen .groupingClose
      return .grouping e
    | .kwFun => g.lambda bound
    | _ => return .literal t.literal

/-- The argument list of a call whose opening parenthesis is consumed. -/
def finishCall (g : Grammar) (bound : Nat) (callee : Expr) : Reader Expr := do
  let args ← if ← isNext .rightParen then pure [] else arguments g.expression bound 0
  let paren ← expect .rightParen .argumentsClose
  return .call callee paren args

/-- The calls and property accesses that follow an expression. -/
def postfixes (g : Grammar) (bound : Nat) : Nat → Expr → Reader Expr
  | 0, _ => throw .tooDeep
  | steps + 1, e => do
    match ← accept? [.leftParen, .dot] with
    | none => return e
    | some t =>
      if t.kind = .leftParen then
        g.postfixes bound steps (← g.finishCall bound e)
      else
        let name ← expect .identifier .propertyName
        g.postfixes bound steps (.get e name)

/-- A primary expression with its calls and property accesses. -/
def call (g : Grammar) (bound : Nat) : Reader Expr := do
  g.postfixes bound bound (← g.primary bound)

def unaryRule (g : Grammar) (bound : Nat) : Reader Expr := do
  match ← accept? [.bang, .minus] with
  | some op => return .unary op (← g.unary)
  | none => g.call bound

def factor (g : Grammar) (bound : Nat) : Reader Expr :=
  level bound [.slash, .star] .binary (g.unaryRule bound)

def term (g : Grammar) (bound : Nat) : Reader Expr :=
  level bound [.minus, .plus] .binary (g.factor bound)

def comparison (g : Grammar) (bound : Nat) : Reader Expr :=
  level bound [.greater, .greaterEqual, .less, .lessEqual] .binary (g.term bound)

def equality (g : Grammar) (bound : Nat) : Reader Expr :=
  level bound [.bangEqual, .equalEqual] .binary (g.comparison bound)

def conjunction (g : Grammar) (bound : Nat) : Reader Expr :=
  level bound [.kwAnd] .logical (g.equality bound)

def disjunction (g : Grammar) (bound : Nat) : Reader Expr :=
  level bound [.kwOr] .logical (g.conjunction bound)

/-- Assignments, to the right of which an assignment may stand. An invalid target is kept as it
is and the value is dropped. -/
def assignment (g : Grammar) (bound : Nat) : Reader Expr := do
  let target ← g.disjunction bound
  match ← accept? [.equal] with
  | none => return target
  | some equals =>
    let value ← g.expression
    match target with
    | .variable name address => return .assign name address value
    | .get object name => return .set object name value
    | _ =>
      complain (some equals) .assignmentTarget
      return target

/-! ### Statements -/

/-- An expression and its semicolon. No token stands before the expression, so it is read at the
nesting level of the statement. -/
def expressionStmt (g : Grammar) (bound : Nat) : Reader Stmt := do
  let e ← g.assignment bound
  let _ ← expect .semicolon .expressionEnd
  return .expression e

/-- A variable declaration whose keyword is consumed. -/
def varDecl (g : Grammar) : Reader Stmt := do
  let name ← expect .identifier .variableName
  let init? ← match ← accept? [.equal] with
    | some _ => some <$> g.expression
    | none => pure none
  let _ ← expect .semicolon .variableEnd
  return .varDecl name init?

def condition (g : Grammar) (opening : Flaw) : Reader Expr := do
  let _ ← expect .leftParen opening
  let e ← g.expression
  let _ ← expect .rightParen .conditionClose
  return e

/-- A conditional whose keyword is consumed. -/
def ifStmt (g : Grammar) : Reader Stmt := do
  let c ← g.condition .ifOpen
  let onTrue ← g.statement
  match ← accept? [.kwElse] with
  | some _ => return .ifStmt c onTrue (some (← g.statement))
  | none => return .ifStmt c onTrue none

/-- A loop whose keyword is consumed. -/
def whileStmt (g : Grammar) : Reader Stmt := do
  let c ← g.condition .whileOpen
  return .whileStmt c (← g.statement)

/-- The initializer of a counting loop, with its semicolon. -/
def forInit (g : Grammar) (bound : Nat) : Reader (Option Stmt) := do
  match ← accept? [.semicolon, .kwVar] with
  | some t => if t.kind = .semicolon then return none else some <$> g.varDecl
  | none => some <$> g.expressionStmt bound

def optional (g : Grammar) (stop : Token.Kind) : Reader (Option Expr) := do
  if ← isNext stop then return none else some <$> g.expression

/-- A counting loop as a conditional one: the increment ends each round, and the initializer opens a
block around the loop. -/
def desugarFor (init? : Option Stmt) (condition? increment? : Option Expr) (body : Stmt) : Stmt :=
  let round := match increment? with
    | some e => .block [body, .expression e]
    | none => body
  let loop := .whileStmt (condition?.getD (.literal (.bool true))) round
  match init? with
  | some init => .block [init, loop]
  | none => loop

/-- A counting loop whose keyword is consumed. -/
def forStmt (g : Grammar) (bound : Nat) : Reader Stmt := do
  let _ ← expect .leftParen .forOpen
  let init? ← g.forInit bound
  let condition? ← g.optional .semicolon
  let _ ← expect .semicolon .forConditionEnd
  let increment? ← g.optional .rightParen
  let _ ← expect .rightParen .forClose
  return desugarFor init? condition? increment? (← g.statement)

def statementRule (g : Grammar) (bound : Nat) : Reader Stmt := do
  let t? ← accept? [.kwPrint, .leftBrace, .kwIf, .kwWhile, .kwFor, .kwBreak, .kwReturn]
  match t? with
  | none => g.expressionStmt bound
  | some t =>
    match t.kind with
    | .kwPrint =>
      let e ← g.expression
      let _ ← expect .semicolon .printEnd
      return .print e
    | .leftBrace => return .block (← g.block bound)
    | .kwIf => g.ifStmt
    | .kwWhile => g.whileStmt
    | .kwFor => g.forStmt bound
    | .kwBreak =>
      let _ ← expect .semicolon .breakEnd
      return .breakStmt t
    | _ =>
      let value? ← g.optional .semicolon
      let _ ← expect .semicolon .returnEnd
      return .returnStmt t value?

def function (g : Grammar) (bound : Nat) (role : Role) (isStatic : Bool) : Reader Function := do
  let name ← expect .identifier (.functionName role)
  let isGetter ← isNext .leftBrace
  let ps ← if isGetter then pure [] else do
    let _ ← expect .leftParen (.functionOpen role)
    let ps ← paramList bound
    let _ ← expect .rightParen .parametersClose
    pure ps
  let _ ← expect .leftBrace (.functionBody role)
  return ⟨name, ps, ← g.block bound, isStatic, isGetter⟩

def methods (g : Grammar) (bound : Nat) : Nat → Reader (List Function)
  | 0 => throw .tooDeep
  | steps + 1 => do
    if (← isNext .rightBrace) || (← atEnd) then return []
    else
      let static? ← accept? [.kwClass]
      let m ← g.function bound .method static?.isSome
      return m :: (← g.methods bound steps)

/-- A class whose keyword is consumed. -/
def classDecl (g : Grammar) (bound : Nat) : Reader Stmt := do
  let name ← expect .identifier .className
  let superclass? ← match ← accept? [.less] with
    | some _ => do
      let parent ← expect .identifier .superclassName
      pure (some (parent, Address.free))
    | none => pure none
  let _ ← expect .leftBrace .classOpen
  let ms ← g.methods bound bound
  let _ ← expect .rightBrace .classClose
  return .classDecl name superclass? ms

def declared (g : Grammar) (bound : Nat) : Reader Stmt := do
  match ← accept? [.kwClass, .kwFun, .kwVar] with
  | none => g.statementRule bound
  | some t =>
    match t.kind with
    | .kwClass => g.classDecl bound
    | .kwFun => return .funDecl (← g.function bound .function false)
    | _ => g.varDecl

/-- The kinds of tokens at which reading goes on after a refusal. -/
def restarts : List Token.Kind :=
  [.kwClass, .kwFun, .kwVar, .kwFor, .kwIf, .kwWhile, .kwPrint, .kwReturn]

/-- The tokens from the next place where a statement may start, the token before being `last`. -/
def resume (last : Token) : List Token → List Token
  | [] => []
  | t :: rest =>
    if last.kind = .semicolon || restarts.contains t.kind then t :: rest else resume t rest

/-- What is left of the tokens after a refusal: the refused token is always passed over. -/
def recover : List Token → List Token
  | [] => []
  | t :: rest => resume t rest

def declarationRule (g : Grammar) (bound : Nat) : Reader Stmt := fun c =>
  match g.declared bound c with
  | .error (.refused complaint) c' =>
    .ok .gap ⟨recover c'.rest, c'.complaints ++ [complaint]⟩
  | r => r

def next (g : Grammar) (bound : Nat) : Grammar where
  expression := g.assignment bound
  unary := g.unaryRule bound
  statement := g.statementRule bound
  declaration := g.declarationRule bound

end Grammar

/-- The grammar closed up to a nesting depth, with lists of at most that length. -/
def grammar : Nat → Grammar
  | 0 => .bottom
  | n + 1 => (grammar n).next (n + 1)

def program (declaration : Reader Stmt) : Nat → Reader (List Stmt)
  | 0 => throw .tooDeep
  | bound + 1 => do
    if ← Reader.atEnd then return []
    else
      let s ← declaration
      return s :: (← program declaration bound)

/-- The statements of a token list and the complaints about it. -/
structure Parsed where
  statements : List Stmt
  complaints : List Complaint

def parse (tokens : List Token) : Parsed :=
  let bound := tokens.length + 1
  match program (grammar bound).declaration bound ⟨tokens, []⟩ with
  | .ok statements c => ⟨statements, c.complaints⟩
  | .error _ c => ⟨[], c.complaints⟩

/-- The expression at the start of a token list, the tokens after it, and the complaints. -/
structure ParsedExpr where
  expression? : Option Expr
  rest : List Token
  complaints : List Complaint

def parseExpression (tokens : List Token) : ParsedExpr :=
  match (grammar (tokens.length + 1)).expression ⟨tokens, []⟩ with
  | .ok e c => ⟨some e, c.rest, c.complaints⟩
  | .error (.refused complaint) c => ⟨none, c.rest, c.complaints ++ [complaint]⟩
  | .error .tooDeep c => ⟨none, c.rest, c.complaints⟩

end Lox.Tree
