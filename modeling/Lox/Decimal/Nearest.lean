/-!
# The double nearest to a ratio

Reading a numeral means rounding an exact ratio of natural numbers to a double. The rounding is done
once, on natural numbers, and the result is assembled as a bit pattern.

## Main definitions

* `Decimal.divHalfEven`: quotient rounded to the nearest natural number, a half to the even one.
* `Decimal.nearest`: the double nearest to `num / den`, infinite when the ratio is too large.

## Design notes

A positive double is `m * 2 ^ q` with `m < 2 ^ 53` and `-1074 ≤ q`, and its bit pattern is
`(q + 1074) * 2 ^ 52 + m`, for normal and subnormal numbers alike. A significand rounded up to
`2 ^ 53` carries into the exponent by the same formula.
-/

namespace Lox.Decimal

/-- The natural number nearest to `num / den`; a half goes to the even neighbour. -/
def divHalfEven (num den : Nat) : Nat :=
  let q := num / den
  let r := num % den
  if 2 * r < den then q
  else if den < 2 * r then q + 1
  else if q % 2 = 0 then q
  else q + 1

/-- The exponent of the largest power of two that is at most `num / den`, for positive arguments. -/
def floorLog2 (num den : Nat) : Int :=
  let k : Int := (num.log2 : Int) - (den.log2 : Int)
  let fits : Bool := if 0 ≤ k then den <<< k.toNat ≤ num else den ≤ num <<< (-k).toNat
  if fits then k else k - 1

/-- The bit pattern of positive infinity, which is also the least pattern above all finite ones. -/
def infinityBits : Nat := 0x7ff0000000000000

/-- The bit pattern of the double nearest to `num / den`, without sign. -/
def nearestBits (num den : Nat) : Nat :=
  if num = 0 then 0
  else
    let q : Int := max (floorLog2 num den - 52) (-1074)
    let m := if 0 ≤ q then divHalfEven num (den <<< q.toNat)
      else divHalfEven (num <<< (-q).toNat) den
    min ((q + 1074).toNat * Nat.pow 2 52 + m) infinityBits

/-- The double nearest to `num / den`; a half goes to the even significand. -/
def nearest (num den : Nat) : Float :=
  Float.ofBits (nearestBits num den).toUInt64

def nearestInt (i : Int) : Float :=
  match i with
  | .ofNat n => nearest n 1
  | .negSucc n => -nearest (n + 1) 1

end Lox.Decimal
