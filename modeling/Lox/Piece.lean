import Lox.Token

/-!
# Pieces of source text

Every source text is cut, from left to right and without loss, into non-empty pieces: tokens, blanks,
comments, and the stretches that are none of these.

## Main definitions

* `Piece`: one stretch of source text, with the characters it covers.
* `Piece.next?`: the first piece of a text and what follows it.
* `Piece.split`: all pieces of a text.

## Design notes

A piece is as long as possible: names, numbers and two-character operators take every character they
can. Line numbers are not kept here; they follow from the texts of the pieces.
-/

namespace Lox

/-- A stretch of source text. -/
inductive Piece where
  /-- A token with its lexeme. -/
  | token (kind : Token.Kind) (lexeme : List Char)
  /-- One space, tab, carriage return or line feed. -/
  | blank (c : Char)
  /-- From two slashes up to, and without, the next line feed. -/
  | lineComment (text : List Char)
  /-- From `/*` to the `*/` that balances it. -/
  | blockComment (text : List Char)
  /-- A character that starts no piece. -/
  | illegal (c : Char)
  /-- From a quote to the end of a text without a second quote. -/
  | openString (text : List Char)
  /-- From `/*` to the end of a text in which nothing balances it. -/
  | openComment (text : List Char)
deriving DecidableEq, Repr

namespace Piece

def text : Piece → List Char
  | token _ lexeme => lexeme
  | blank c => [c]
  | lineComment text => text
  | blockComment text => text
  | illegal c => [c]
  | openString text => text
  | openComment text => text

def isBlank (c : Char) : Bool := c = ' ' || c = '\r' || c = '\t' || c = '\n'

/-- The letters that a name may start with. -/
def isAlpha (c : Char) : Bool := ('a' ≤ c && c ≤ 'z') || ('A' ≤ c && c ≤ 'Z') || c = '_'

/-- The characters that a name may go on with. -/
def isAlphanumeric (c : Char) : Bool := isAlpha c || Decimal.isDigit c

/-- The operators and brackets that are one character whatever follows. -/
def single? : Char → Option Token.Kind
  | '(' => some .leftParen
  | ')' => some .rightParen
  | '{' => some .leftBrace
  | '}' => some .rightBrace
  | ',' => some .comma
  | '.' => some .dot
  | '-' => some .minus
  | '+' => some .plus
  | ';' => some .semicolon
  | '*' => some .star
  | _ => none

/-- The operators that a following `=` extends: the kind alone and the kind extended. -/
def extensible? : Char → Option (Token.Kind × Token.Kind)
  | '!' => some (.bang, .bangEqual)
  | '=' => some (.equal, .equalEqual)
  | '<' => some (.less, .lessEqual)
  | '>' => some (.greater, .greaterEqual)
  | _ => none

/-- The text of a comment body up to the `*/` that closes `depth` open comments, and what follows
it; nothing follows when the text ends first. -/
def closeComment : Nat → List Char → List Char × Option (List Char)
  | 0, cs => ([], some cs)
  | _ + 1, [] => ([], none)
  | depth + 1, '/' :: '*' :: cs =>
    let (body, rest) := closeComment (depth + 2) cs
    ('/' :: '*' :: body, rest)
  | depth + 1, '*' :: '/' :: cs =>
    let (body, rest) := closeComment depth cs
    ('*' :: '/' :: body, rest)
  | depth + 1, c :: cs =>
    let (body, rest) := closeComment (depth + 1) cs
    (c :: body, rest)

/-- The fraction of a number: a point and digits, if at least one digit follows the point. -/
def fraction : List Char → List Char
  | '.' :: d :: cs => if Decimal.isDigit d then '.' :: d :: cs.takeWhile Decimal.isDigit else []
  | _ => []

/-- The lexeme of the number at the start of a text. -/
def numeral (cs : List Char) : List Char :=
  cs.takeWhile Decimal.isDigit ++ fraction (cs.dropWhile Decimal.isDigit)

def afterSlash : List Char → Piece × List Char
  | '/' :: cs =>
    (lineComment ('/' :: '/' :: cs.takeWhile (· ≠ '\n')), cs.dropWhile (· ≠ '\n'))
  | '*' :: cs =>
    match closeComment 1 cs with
    | (body, some rest) => (blockComment ('/' :: '*' :: body), rest)
    | (body, none) => (openComment ('/' :: '*' :: body), [])
  | cs => (token .slash ['/'], cs)

def afterQuote (cs : List Char) : Piece × List Char :=
  let body := cs.takeWhile (· ≠ '"')
  match cs.dropWhile (· ≠ '"') with
  | [] => (openString ('"' :: body), [])
  | _ :: rest => (token .string ('"' :: body ++ ['"']), rest)

def afterOperator (c : Char) (alone extended : Token.Kind) : List Char → Piece × List Char
  | '=' :: cs => (token extended [c, '='], cs)
  | cs => (token alone [c], cs)

/-- The first piece of a text that starts with `c`, and what follows the piece. -/
def next (c : Char) (cs : List Char) : Piece × List Char :=
  match single? c with
  | some kind => (token kind [c], cs)
  | none =>
    match extensible? c with
    | some (alone, extended) => afterOperator c alone extended cs
    | none =>
      if c = '/' then afterSlash cs
      else if isBlank c then (blank c, cs)
      else if c = '"' then afterQuote cs
      else if Decimal.isDigit c then
        let lexeme := numeral (c :: cs)
        (token .number lexeme, (c :: cs).drop lexeme.length)
      else if isAlpha c then
        let word := c :: cs.takeWhile isAlphanumeric
        (token (.ofWord word) word, cs.dropWhile isAlphanumeric)
      else (illegal c, cs)

def splitAtMost : Nat → List Char → List Piece
  | 0, _ => []
  | _ + 1, [] => []
  | count + 1, c :: cs =>
    let (piece, rest) := next c cs
    piece :: splitAtMost count rest

/-- All pieces of a text: there are at most as many as characters. -/
def split (cs : List Char) : List Piece := splitAtMost cs.length cs

end Piece

end Lox
