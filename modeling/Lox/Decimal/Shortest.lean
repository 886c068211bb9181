import Lox.Decimal.Nearest

/-!
# The shortest decimal of a double

The decimal written for a double has the fewest significant digits that still read back as the same
double and, among those, is the one nearest to it.

## Main definitions

* `Decimal.Binary`: a positive finite double as `mantissa * 2 ^ exponent`.
* `Decimal.Digits`: a positive decimal as a digit string and the exponent of its first digit.
* `Decimal.shortest`: the shortest decimal that reads back.

## Design notes

A double `m * 2 ^ q` is the nearest one to every real strictly between the midpoints to its two
neighbours, and to the midpoints themselves exactly when `m` is even. All tests are on natural
numbers: the value, both midpoints and the decimal grid are brought to one denominator.
-/

namespace Lox.Decimal

/-- A positive finite double as `mantissa * 2 ^ exponent`. -/
structure Binary where
  mantissa : Nat
  exponent : Int
deriving DecidableEq, Repr

/-- The finite number of a bit pattern whose sign bit is ignored. -/
def Binary.ofBits (bits : Nat) : Binary :=
  let field : Nat := bits / Nat.pow 2 52 % Nat.pow 2 11
  let fraction : Nat := bits % Nat.pow 2 52
  if field = 0 then ⟨fraction, -1074⟩ else ⟨fraction + Nat.pow 2 52, (field : Int) - 1075⟩

/-- A positive decimal: digits `d₀ d₁ …` standing for `d₀.d₁… * 10 ^ exponent`. -/
structure Digits where
  digits : List Nat
  exponent : Int
deriving DecidableEq, Repr

/-- The decimal digits of a natural number, most significant first. -/
def digitsOf (n : Nat) : List Nat :=
  (Nat.toDigits 10 n).map fun c => c.toNat - '0'.toNat

/-- The least `j` with `den ≤ num * 10 ^ j`, looked for among `fuel` candidates. -/
def leadingZeros (den : Nat) : Nat → Nat → Nat
  | 0, _ => 0
  | fuel + 1, num => if den ≤ num then 0 else leadingZeros den fuel (num * 10) + 1

/-- The exponent of the largest power of ten that is at most `num / den`; no positive double is
below `10 ^ (-400)`. -/
def floorLog10 (num den : Nat) : Int :=
  if den ≤ num then ((digitsOf (num / den)).length : Int) - 1
  else -(leadingZeros den 400 num : Int)

/-- The value `value / den` with the interval `low / den … high / den` of reals that round to it. -/
structure Rounding where
  low : Nat
  value : Nat
  high : Nat
  den : Nat
  closed : Bool
deriving DecidableEq, Repr

/-- The rounding interval of a positive double. Below a power of two the gap is half as wide. -/
def Binary.rounding (b : Binary) : Rounding :=
  let scale : Nat := if 2 ≤ b.exponent then Nat.pow 2 (b.exponent - 2).toNat else 1
  let den : Nat := if 2 ≤ b.exponent then 1 else Nat.pow 2 (2 - b.exponent).toNat
  let below : Nat := if b.mantissa = Nat.pow 2 52 ∧ -1074 < b.exponent then 1 else 2
  { low := (4 * b.mantissa - below) * scale
    value := 4 * b.mantissa * scale
    high := (4 * b.mantissa + 2) * scale
    den := den
    closed := b.mantissa % 2 = 0 }

def Rounding.holds (r : Rounding) (num den : Nat) : Bool :=
  if r.closed then r.low * den ≤ num * r.den && num * r.den ≤ r.high * den
  else r.low * den < num * r.den && num * r.den < r.high * den

/-- The multiple of `10 ^ unit` that reads back as the value of `r` and is nearest to it, as a
coefficient; of two equally near ones the even coefficient. -/
def Rounding.onGrid? (r : Rounding) (unit : Int) : Option Nat :=
  let up : Nat := if 0 ≤ unit then Nat.pow 10 unit.toNat else 1
  let down : Nat := if 0 ≤ unit then 1 else Nat.pow 10 (-unit).toNat
  let num := r.value * down
  let den := r.den * up
  let c := num / den
  let floorHolds := r.holds (c * up) down
  let ceilHolds := r.holds ((c + 1) * up) down
  if floorHolds && ceilHolds then some (divHalfEven num den)
  else if floorHolds then some c
  else if ceilHolds then some (c + 1)
  else none

/-- The coefficient and unit of the first grid, of `count` digits and more, that has a point which
reads back; `fuel` grids are tried. -/
def Rounding.search (r : Rounding) (top : Int) : Nat → Nat → Nat × Int
  | 0, _ => (0, 0)
  | fuel + 1, count =>
    let unit := top - (count : Int) + 1
    match r.onGrid? unit with
    | some c => (c, unit)
    | none => r.search top fuel (count + 1)

/-- The decimal `c * 10 ^ unit` without trailing zeros. -/
def Digits.ofCoefficient (c : Nat) (unit : Int) : Digits :=
  let ds := digitsOf c
  let kept := (ds.reverse.dropWhile (· = 0)).reverse
  { digits := kept, exponent := unit + (ds.length : Int) - 1 }

/-- The shortest decimal that reads back as `b`, nearest to `b` among the shortest; seventeen digits
always suffice. -/
def shortest (b : Binary) : Digits :=
  let r := b.rounding
  let (c, unit) := r.search (floorLog10 r.value r.den) 17 1
  Digits.ofCoefficient c unit

end Lox.Decimal
