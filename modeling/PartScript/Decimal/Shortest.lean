/-
  The shortest decimal that reads back as a given float: of all decimals inside the
  interval that rounds to the float, one with the fewest digits, and of those the nearest.
-/
import PartScript.Decimal.Binary64

namespace PartScript.Decimal

/-- A finite float as `mantissa · 2 ^ exponent`. `edge` holds at the start of a binade,
where the next smaller float is only half as far away as the next larger one. -/
structure Dyadic where
  mantissa : Nat
  exponent : Int
  edge : Bool
deriving DecidableEq, Repr

/-- The magnitude encoded in the lower 63 bits of a finite float. -/
def Dyadic.ofBits (bits : Nat) : Dyadic :=
  let fraction := bits % exponentUnit
  let exponent : Nat := bits / exponentUnit % exponentCount
  if exponent = 0 then ⟨fraction, -1074, false⟩
  else ⟨fraction + exponentUnit, (exponent : Int) - 1075, fraction = 0 && exponent > 1⟩

/-- The interval of the reals that round to a float, as numerators over one denominator.
The ends belong to it when the mantissa is even. -/
structure Interval where
  low : Nat
  value : Nat
  high : Nat
  den : Nat
  closed : Bool

/-- The reals that round to the given float, to nearest with ties to even. -/
def Dyadic.interval (x : Dyadic) : Interval :=
  let up := (x.exponent - 2).toNat
  let down := (2 - x.exponent).toNat
  let scale := twoTo up
  ⟨(4 * x.mantissa - if x.edge then 1 else 2) * scale, 4 * x.mantissa * scale,
    (4 * x.mantissa + 2) * scale, twoTo down, x.mantissa % 2 = 0⟩

/-- Whether `n / d` lies in the interval. -/
def Interval.holds (i : Interval) (n d : Nat) : Bool :=
  if i.closed then i.low * d ≤ n * i.den && n * i.den ≤ i.high * d
  else i.low * d < n * i.den && n * i.den < i.high * d

/-- The multiple of `10 ^ e` nearest to the value among its two neighbours on that grid,
if one of them lies in the interval; a tie goes up. -/
def Interval.onGrid? (i : Interval) (e : Int) : Option Nat :=
  let up := tenTo e.toNat
  let down := tenTo (-e).toNat
  let num := i.value * down
  let den := i.den * up
  let below := num / den
  let above := below + 1
  match i.holds (below * up) down, i.holds (above * up) down with
  | true, true => some (if 2 * (num % den) < den then below else above)
  | true, false => some below
  | false, true => some above
  | false, false => none

/-- Looks for a decimal on the grids `10 ^ e`, `10 ^ (e - 1)`, … -/
def Interval.search (i : Interval) : Nat → Int → Nat × Int
  | 0, e => (i.value * tenTo (-e).toNat / (i.den * tenTo e.toNat), e)
  | n + 1, e =>
    match i.onGrid? e with
    | some d => (d, e)
    | none => search i n (e - 1)

/-- Moves trailing zeros of the digits into the exponent. -/
def trimZeros : Nat → Nat × Int → Nat × Int
  | 0, p => p
  | n + 1, (d, e) => if d ≠ 0 ∧ d % 10 = 0 then trimZeros n (d / 10, e + 1) else (d, e)

/-- Digits `d` and an exponent `e` such that `d · 10 ^ e` is the shortest decimal for a
positive float. The first grid is coarser than the float is large, and seventeen digits
always suffice. -/
def Dyadic.shortest (x : Dyadic) : Nat × Int :=
  let bits : Int := (Nat.log2 x.mantissa : Int) + 2 + x.exponent
  trimZeros 20 (x.interval.search 22 (bits * 30103 / 100000 + 1))

end PartScript.Decimal
