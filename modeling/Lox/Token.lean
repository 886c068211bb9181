import Lox.Literal

/-!
# Tokens

A token is a classified stretch of source text with the line on which it ends.

## Main definitions

* `Token.Kind`: the classes of tokens, with their names and the table of keywords.
* `Token`: kind, lexeme, literal value and line.
* `Token.describe`, `Token.inspect`: the two textual forms of a token.
-/

namespace Lox

/-- The class of a token. -/
inductive Token.Kind where
  | leftParen | rightParen | leftBrace | rightBrace
  | comma | dot | minus | plus | semicolon | slash | star
  | bang | bangEqual | equal | equalEqual
  | greater | greaterEqual | less | lessEqual
  | identifier | string | number
  | kwAnd | kwClass | kwElse | kwFalse | kwFun | kwFor | kwIf | kwNil | kwOr
  | kwPrint | kwReturn | kwInner | kwThis | kwTrue | kwVar | kwWhile | kwBreak | kwContinue
  | eof
deriving DecidableEq, Repr

/-- A token: its class, the source text it covers, its value and the line on which it ends. -/
structure Token where
  kind : Token.Kind
  lexeme : String
  literal : Literal
  line : Nat
deriving DecidableEq, Repr

namespace Token

def Kind.names : List (Kind × String) :=
  [(.leftParen, "LEFT_PAREN"), (.rightParen, "RIGHT_PAREN"), (.leftBrace, "LEFT_BRACE"),
    (.rightBrace, "RIGHT_BRACE"), (.comma, "COMMA"), (.dot, "DOT"), (.minus, "MINUS"),
    (.plus, "PLUS"), (.semicolon, "SEMICOLON"), (.slash, "SLASH"), (.star, "STAR"),
    (.bang, "BANG"), (.bangEqual, "BANG_EQUAL"), (.equal, "EQUAL"),
    (.equalEqual, "EQUAL_EQUAL"), (.greater, "GREATER"), (.greaterEqual, "GREATER_EQUAL"),
    (.less, "LESS"), (.lessEqual, "LESS_EQUAL"), (.identifier, "IDENTIFIER"),
    (.string, "STRING"), (.number, "NUMBER"), (.kwAnd, "AND"), (.kwClass, "CLASS"),
    (.kwElse, "ELSE"), (.kwFalse, "FALSE"), (.kwFun, "FUN"), (.kwFor, "FOR"), (.kwIf, "IF"),
    (.kwNil, "NIL"), (.kwOr, "OR"), (.kwPrint, "PRINT"), (.kwReturn, "RETURN"),
    (.kwInner, "INNER"), (.kwThis, "THIS"), (.kwTrue, "TRUE"), (.kwVar, "VAR"),
    (.kwWhile, "WHILE"), (.kwBreak, "BREAK"), (.kwContinue, "CONTINUE"), (.eof, "EOF")]

def Kind.name (k : Kind) : String := (names.lookup k).getD ""

def Kind.ofName? (name : String) : Option Kind :=
  (names.find? fun entry => entry.2 = name).map (·.1)

def keywords : List (List Char × Kind) :=
  [("and".toList, .kwAnd), ("class".toList, .kwClass), ("else".toList, .kwElse),
    ("false".toList, .kwFalse), ("for".toList, .kwFor), ("fun".toList, .kwFun),
    ("if".toList, .kwIf), ("nil".toList, .kwNil), ("or".toList, .kwOr),
    ("print".toList, .kwPrint), ("return".toList, .kwReturn), ("inner".toList, .kwInner),
    ("this".toList, .kwThis), ("true".toList, .kwTrue), ("var".toList, .kwVar),
    ("while".toList, .kwWhile), ("break".toList, .kwBreak), ("continue".toList, .kwContinue)]

def Kind.ofWord (word : List Char) : Kind := (keywords.lookup word).getD .identifier

def endMark (line : Nat) : Token := ⟨.eof, "", .nil, line⟩

/-- A name on a line, as the scanner would deliver it. -/
def ident (name : String) (line : Nat) : Token := ⟨.identifier, name, .nil, line⟩

/-- The short form of a token: kind, lexeme and value. -/
def describe (t : Token) : String :=
  "TokenType." ++ t.kind.name ++ " " ++ t.lexeme ++ " " ++ t.literal.display

def inspect (t : Token) : String :=
  "Token(TokenType." ++ t.kind.name ++ ", '" ++ t.lexeme ++ "', " ++ t.literal.display ++ ", " ++
    toString t.line ++ ")"

end Token

end Lox
