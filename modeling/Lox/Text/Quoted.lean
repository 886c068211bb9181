import Lox.Text.Printable

/-!
# Quoted text

A text between quotes, on one line and with every character visible.

## Main definitions

* `Text.Quoted.mark`: the quote that is put around a text.
* `Text.Quoted.escape`: how one character is written between quotes.
* `Text.quote`: a text in quotes.

## Design notes

The quote is single, unless the text holds single quotes and no double one. A backslash stands before
itself and before the quote; line ends and the tab have a letter; any other character that is not
printable is written by its number, in two, four or eight hexadecimal digits.
-/

namespace Lox.Text

namespace Quoted

/-- The lowercase hexadecimal digit of a number below sixteen. -/
def hexDigit (d : Nat) : Char := if d < 10 then Char.ofNat (48 + d) else Char.ofNat (87 + d)

/-- The last `width` hexadecimal digits of a number. -/
def hexDigits : Nat → Nat → List Char
  | 0, _ => []
  | width + 1, n => hexDigits width (n / 16) ++ [hexDigit (n % 16)]

def byNumber (c : Char) : List Char :=
  if c.toNat < 0x100 then '\\' :: 'x' :: hexDigits 2 c.toNat
  else if c.toNat < 0x10000 then '\\' :: 'u' :: hexDigits 4 c.toNat
  else '\\' :: 'U' :: hexDigits 8 c.toNat

/-- The letter of a character that is written as a backslash and a letter. -/
def letter? : Char → Option Char
  | '\t' => some 't'
  | '\n' => some 'n'
  | '\r' => some 'r'
  | _ => none

/-- The quote that is put around a text. -/
def mark (cs : List Char) : Char :=
  if cs.contains '\x27' && !cs.contains '\x22' then '\x22' else '\x27'

def escape (mark c : Char) : List Char :=
  if c = mark || c = '\\' then ['\\', c]
  else
    match letter? c with
    | some l => ['\\', l]
    | none => if isPrintable c then [c] else byNumber c

end Quoted

def quote (text : String) : String :=
  let cs := text.toList
  let mark := Quoted.mark cs
  String.ofList (mark :: cs.flatMap (Quoted.escape mark) ++ [mark])

end Lox.Text
