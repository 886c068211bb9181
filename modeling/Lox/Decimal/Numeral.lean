import Lox.Decimal.Shortest

/-!
# Numerals

The written form of a double, and the reader of written forms.

## Main definitions

* `Decimal.Layout`: the decisions of a written form that the digits leave open.
* `Decimal.render`: the shortest decimal of a double, laid out.
* `Decimal.readUnsigned`, `Decimal.read?`: the double nearest to a numeral.
-/

namespace Lox.Decimal

/-- Where positional notation ends and how wide an exponent is. -/
structure Layout where
  /-- The least exponent of a first digit that is written positionally. -/
  lowest : Int
  /-- The least exponent of a first digit that is written with an exponent mark again. -/
  beyond : Int
  /-- The least number of digits of a written exponent. -/
  exponentWidth : Nat
deriving DecidableEq, Repr

/-- Numbers are positional from `0.0001` up to `10 ^ 16`, and an exponent has a sign and at least two
digits. -/
def numberLayout : Layout := ⟨-4, 16, 2⟩

def digitChar (d : Nat) : Char := Char.ofNat ('0'.toNat + d)

/-- An exponent with its sign, filled with zeros to the given width. -/
def renderExponent (width : Nat) (e : Int) : List Char :=
  let ds := Nat.toDigits 10 e.natAbs
  (if e < 0 then '-' else '+') :: (List.replicate (width - ds.length) '0' ++ ds)

/-- A decimal laid out. Positional notation has at least one digit after the point. -/
def Digits.render (layout : Layout) (d : Digits) : List Char :=
  let cs := d.digits.map digitChar
  if layout.lowest ≤ d.exponent ∧ d.exponent < layout.beyond then
    if d.exponent < 0 then
      '0' :: '.' :: (List.replicate ((-d.exponent).toNat - 1) '0' ++ cs)
    else
      let whole := d.exponent.toNat + 1
      let fraction := cs.drop whole
      cs.take whole ++ List.replicate (whole - cs.length) '0' ++
        ('.' :: if fraction.isEmpty then ['0'] else fraction)
  else
    match cs with
    | [c] => c :: 'e' :: renderExponent layout.exponentWidth d.exponent
    | c :: rest => c :: '.' :: (rest ++ 'e' :: renderExponent layout.exponentWidth d.exponent)
    | [] => []

/-- The written form of a double: the sign, then the shortest decimal that reads back. -/
def render (x : Float) : String :=
  if x.isNaN then "nan"
  else
    let bits := x.toBits.toNat
    let sign : List Char := if bits / Nat.pow 2 63 = 0 then [] else ['-']
    let magnitude := bits % Nat.pow 2 63
    let body : List Char :=
      if magnitude = infinityBits then ['i', 'n', 'f']
      else if magnitude = 0 then ['0', '.', '0']
      else (shortest (Binary.ofBits magnitude)).render numberLayout
    String.ofList (sign ++ body)

/-- A finite double as an exact ratio of an integer and a power of two; `none` for the others. -/
def ratio? (x : Float) : Option (Int × Nat) :=
  let bits := x.toBits.toNat
  let magnitude := bits % Nat.pow 2 63
  if infinityBits ≤ magnitude then none
  else
    let b := Binary.ofBits magnitude
    let num : Int := b.mantissa * (if 0 ≤ b.exponent then Nat.pow 2 b.exponent.toNat else 1)
    some (if bits / Nat.pow 2 63 = 0 then num else -num,
      if 0 ≤ b.exponent then 1 else Nat.pow 2 (-b.exponent).toNat)

/-- The integer that a double is equal to, if there is one. -/
def integral? (x : Float) : Option Int :=
  match ratio? x with
  | some (num, den) => if num % (den : Int) = 0 then some (num / (den : Int)) else none
  | none => none

/-- The value of a string of decimal digits. -/
def natOfDigits (cs : List Char) : Nat :=
  cs.foldl (fun n c => 10 * n + (c.toNat - '0'.toNat)) 0

def isDigit (c : Char) : Bool := '0' ≤ c && c ≤ '9'

def ofParts (whole fraction : List Char) (exponent : Int) : Float :=
  let m := natOfDigits (whole ++ fraction)
  let e := exponent - (fraction.length : Int)
  if 0 ≤ e then nearest (m * Nat.pow 10 e.toNat) 1 else nearest m (Nat.pow 10 (-e).toNat)

/-- The double nearest to a numeral of the form `digits` or `digits.digits`. -/
def readUnsigned (cs : List Char) : Float :=
  ofParts (cs.takeWhile isDigit) ((cs.dropWhile isDigit).drop 1) 0

/-- The exponent after an exponent mark, zero if there is none. -/
def readExponent : List Char → Int
  | 'e' :: '-' :: ds => -(natOfDigits ds : Int)
  | 'e' :: '+' :: ds => (natOfDigits ds : Int)
  | 'e' :: ds => (natOfDigits ds : Int)
  | _ => 0

/-- The double of a written form without its sign. -/
def readMagnitude? (cs : List Char) : Option Float :=
  if cs = ['i', 'n', 'f'] then some (Float.ofBits infinityBits.toUInt64)
  else if cs = ['n', 'a', 'n'] then some (0.0 / 0.0)
  else
    let whole := cs.takeWhile isDigit
    let rest := cs.dropWhile isDigit
    if whole.isEmpty then none
    else match rest with
      | '.' :: rest' =>
        some (ofParts whole (rest'.takeWhile isDigit) (readExponent (rest'.dropWhile isDigit)))
      | _ => some (ofParts whole [] (readExponent rest))

/-- The double of a written form. -/
def read? (text : String) : Option Float :=
  match text.toList with
  | '-' :: cs => (readMagnitude? cs).map (-·)
  | cs => readMagnitude? cs

end Lox.Decimal
