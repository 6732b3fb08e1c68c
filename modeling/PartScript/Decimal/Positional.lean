/-
  Floats as texts: the shortest digits that read back, written positionally at every
  magnitude, without a point for whole numbers.
-/
import PartScript.Decimal.Shortest

namespace PartScript.Decimal

/-- Writes `digits · 10 ^ exponent` without an exponent mark. -/
def positional (digits : Nat) (exponent : Int) : String :=
  let ds := Nat.toDigits 10 digits
  if exponent ≥ 0 then String.ofList (ds ++ List.replicate exponent.toNat '0')
  else
    let places := (-exponent).toNat
    let padded := List.replicate (places + 1 - ds.length) '0' ++ ds
    let whole := padded.length - places
    String.ofList (padded.take whole ++ '.' :: padded.drop whole)

/-- The text of a float. The sign of zero is kept; there is one text for every NaN. -/
def text (x : Float) : String :=
  let bits := x.toBits.toNat
  let sign := if bits ≥ signBit then "-" else ""
  let magnitude := bits % signBit
  if magnitude > infinityBits then "NaN"
  else if magnitude = infinityBits then sign ++ "inf"
  else if magnitude = 0 then sign ++ "0"
  else
    let (digits, exponent) := (Dyadic.ofBits magnitude).shortest
    sign ++ positional digits exponent

end PartScript.Decimal
