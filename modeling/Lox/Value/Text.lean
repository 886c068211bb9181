import Lox.Value

/-!
# Texts of values

## Main definitions

* `Value.display`: the plain text of a value, as concatenation and traces show it.
* `Value.print`: the text that printing shows.
* `Value.printEscaped`: the text with the two-character escapes of tab and line ends replaced.

## Design notes

An anonymous function has no name to show, so its text is a defect.
-/

namespace Lox

def Closure.display (f : Closure) : Except Defect String :=
  match f.name? with
  | none => .error .unnamedFunction
  | some name =>
    let tag := if f.isStatic then "static " else if f.isGetter then "getter " else ""
    .ok ("<" ++ tag ++ "fn " ++ name ++ ">")

def Native.display : Native → String
  | .clock => "<native fn>"
  | .indexedClock => "<native fn: clock>"
  | .deliver => "<native fn>"
  | .inner _ => "<inner fn>"

namespace Value

def display : Value → Except Defect String
  | nil => .ok "None"
  | bool true => .ok "True"
  | bool false => .ok "False"
  | num x => .ok (Decimal.render x)
  | int i => .ok (toString i)
  | text s => .ok s
  | function f => f.display
  | type c => .ok ("<class " ++ c.name ++ ">")
  | object o => .ok ("<" ++ o.type.name ++ " instance>")
  | chain .. => .ok "<beta-chain method>"
  | native n => .ok n.display

/-- A numeral without the fraction of a whole number. -/
def trimNumeral (cs : List Char) : List Char :=
  match cs.reverse with
  | '0' :: '.' :: rest => rest.reverse
  | _ => cs

def print : Value → Except Defect String
  | nil => .ok "nil"
  | bool true => .ok "true"
  | bool false => .ok "false"
  | num x => .ok (String.ofList (trimNumeral (Decimal.render x).toList))
  | v => v.display

/-- The text of an operand of a concatenation: a whole double is written as an integer. -/
def operandText : Value → Except Defect String
  | num x =>
    match Decimal.integral? x with
    | some i => .ok (toString i)
    | none => .ok (Decimal.render x)
  | v => v.display

/-- Replaces each backslash followed by `letter` with the character `c`. -/
def unescape (letter c : Char) : List Char → List Char
  | '\\' :: d :: rest =>
    if d = letter then c :: unescape letter c rest else '\\' :: unescape letter c (d :: rest)
  | d :: rest => d :: unescape letter c rest
  | [] => []

/-- The text that printing shows, with tabs and line ends in place of their escapes. -/
def printEscaped : Value → Except Defect String
  | text s =>
    .ok (String.ofList (unescape 'r' '\r' (unescape 'n' '\n' (unescape 't' '\t' s.toList))))
  | v => v.print

end Value

end Lox
