/-
  The layout of a float in 64 bits (a sign, eleven bits of exponent, 52 bits of fraction), and
  the powers that conversions to and from decimals multiply by.
-/
namespace PartScript.Decimal

/-- A power of two. -/
def twoTo (n : Nat) : Nat := Nat.pow 2 n

/-- A power of ten. -/
def tenTo (n : Nat) : Nat := Nat.pow 10 n

/-- The weight of the lowest exponent bit. A mantissa of 53 bits is at least this large. -/
def exponentUnit : Nat := twoTo 52

/-- The number of values of the exponent field. -/
def exponentCount : Nat := twoTo 11

/-- The weight of the sign bit. -/
def signBit : Nat := twoTo 63

/-- The bits of infinity. The bits of every finite magnitude are smaller, those of every NaN
larger. -/
def infinityBits : Nat := 0x7FF0000000000000

theorem infinityBits_eq : infinityBits = (exponentCount - 1) * exponentUnit := rfl

end PartScript.Decimal
