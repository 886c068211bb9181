import Lox.Piece

/-!
# Scanning

The tokens of a source text, and the complaints about the stretches of it that are no tokens.

## Main definitions

* `Token.Flaw`, `Token.Complaint`: what can be wrong with a stretch of text, and where.
* `Token.scan`: tokens, complaints and last line of a source text.

## Design notes

The line of a piece is one more than the number of line feeds up to its end. Tokens and complaints
are read off the pieces independently of each other.
-/

namespace Lox.Token

/-- What can be wrong with a stretch of source text. -/
inductive Flaw where
  | unexpectedCharacter (c : Char)
  | unterminatedString
  | unterminatedComment
deriving DecidableEq, Repr

def Flaw.message : Flaw → String
  | unexpectedCharacter c => "Unexpected character: " ++ c.toString
  | unterminatedString => "Unterminated string."
  | unterminatedComment => "Unterminated block comment."

/-- A flaw and the line on which it was noticed. -/
structure Complaint where
  line : Nat
  flaw : Flaw
deriving DecidableEq, Repr

/-- The value of a lexeme: a string is what stands between its quotes, a number is the nearest
double, and other tokens have none. -/
def literalOf (kind : Kind) (lexeme : List Char) : Literal :=
  match kind with
  | .string => .text (String.ofList (lexeme.tail.dropLast))
  | .number => .num (Decimal.readUnsigned lexeme)
  | _ => .nil

def ofLexeme (kind : Kind) (lexeme : List Char) (line : Nat) : Token :=
  ⟨kind, String.ofList lexeme, literalOf kind lexeme, line⟩

end Lox.Token

namespace Lox.Piece

/-- The line that is reached at the end of a piece that starts on `line`. -/
def lineAfter (line : Nat) (p : Piece) : Nat := line + p.text.count '\n'

def token? (line : Nat) : Piece → Option Token
  | token kind lexeme => some (.ofLexeme kind lexeme line)
  | _ => none

def flaw? : Piece → Option Token.Flaw
  | illegal c => some (.unexpectedCharacter c)
  | openString _ => some .unterminatedString
  | openComment _ => some .unterminatedComment
  | _ => none

def tokens (line : Nat) : List Piece → List Token
  | [] => []
  | p :: ps =>
    let here := lineAfter line p
    match p.token? here with
    | some t => t :: tokens here ps
    | none => tokens here ps

def complaints (line : Nat) : List Piece → List Token.Complaint
  | [] => []
  | p :: ps =>
    let here := lineAfter line p
    match p.flaw? with
    | some flaw => ⟨here, flaw⟩ :: complaints here ps
    | none => complaints here ps

/-- The line that is reached at the end of pieces that start on `line`. -/
def lastLine (line : Nat) (ps : List Piece) : Nat := ps.foldl lineAfter line

end Lox.Piece

namespace Lox.Token

/-- The result of scanning a text: its tokens without the end mark, the line on which it ends, and the
complaints about it in order. -/
structure Scan where
  tokens : List Token
  lastLine : Nat
  complaints : List Complaint
deriving DecidableEq, Repr

def Scan.endMark (s : Scan) : Token := Token.endMark s.lastLine

def Scan.all (s : Scan) : List Token := s.tokens ++ [s.endMark]

def scanChars (cs : List Char) : Scan :=
  let pieces := Piece.split cs
  ⟨Piece.tokens 1 pieces, Piece.lastLine 1 pieces, Piece.complaints 1 pieces⟩

def scan (source : String) : Scan := scanChars source.toList

end Lox.Token
