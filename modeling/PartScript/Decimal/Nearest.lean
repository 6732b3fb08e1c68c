/-
  Decimal numerals and the float nearest to each. The conversion is exact integer
  arithmetic with one rounding, to nearest with ties to even, so that it holds for
  numerals of any length and any exponent.
-/
import PartScript.Decimal.Binary64

namespace PartScript

/-- The number `± coefficient · 10 ^ exponent`. -/
structure Decimal where
  negative : Bool
  coefficient : Nat
  exponent : Int
deriving DecidableEq, Repr

namespace Decimal

/-- The quotient `n / d` rounded to the nearest whole number, ties to even. -/
def roundQuotient (n d : Nat) : Nat :=
  let q := n / d
  let twice := 2 * (n % d)
  if twice < d then q
  else if d < twice then q + 1
  else if q % 2 = 0 then q else q + 1

/-- The bits of the float nearest to the positive quotient `n / d`. The exponent `q` is the
least one for which the rounded mantissa has at most 53 bits; a mantissa that rounds up to
54 bits carries into the exponent field. -/
def nearestBits (n d : Nat) : Nat :=
  let e : Int := (Nat.log2 n : Int) - Nat.log2 d
  let floorAt (q : Int) : Nat := n * twoTo (-q).toNat / (d * twoTo q.toNat)
  let q₀ : Int := max (e - 53) (-1074)
  let q : Int := if floorAt q₀ < 2 * exponentUnit then q₀ else q₀ + 1
  let m := roundQuotient (n * twoTo (-q).toNat) (d * twoTo q.toNat)
  min ((q + 1074).toNat * exponentUnit + m) infinityBits

/-- The bits of the float nearest to the magnitude of a numeral. Exponents that put it
beyond every float or below half of the smallest one are settled without computing the
power of ten. -/
def magnitudeBits (x : Decimal) : Nat :=
  if x.coefficient = 0 then 0
  else
    let size : Int := (Nat.log2 x.coefficient : Int) / 3 + 1 + x.exponent
    if x.exponent > 400 then infinityBits
    else if size < -400 then 0
    else nearestBits (x.coefficient * tenTo x.exponent.toNat) (tenTo (-x.exponent).toNat)

/-- The float nearest to a numeral; one too large for every finite float is infinite. -/
def toFloat (x : Decimal) : Float :=
  Float.ofBits (UInt64.ofNat (x.magnitudeBits + if x.negative then signBit else 0))

end Decimal

end PartScript
