/-
  Structural identities: a digest over a tagged, length-prefixed byte stream. The stream
  depends on values only, and floats that a script cannot tell apart (the two zeros, all
  NaNs) are written alike.
-/
import PartScript.Digest.Sha256
import PartScript.Vec3

namespace PartScript

/-- The identity of a construction: the SHA-256 digest of its byte stream. -/
structure StructuralHash where
  bytes : Vector UInt8 32
deriving DecidableEq

namespace StructuralHash

/-- The identity of whatever a byte stream describes. -/
@[irreducible]
def ofBytes (stream : List UInt8) : StructuralHash := ⟨Sha256.digest stream⟩

/-- The two lowercase hexadecimal digits of a byte. -/
def hexByte (b : UInt8) : List Char :=
  [Nat.digitChar (b.toNat / 16), Nat.digitChar (b.toNat % 16)]

/-- All 64 lowercase hexadecimal digits. -/
def toHex (h : StructuralHash) : String := String.ofList (h.bytes.toList.flatMap hexByte)

/-- The first twelve hexadecimal digits. -/
def short (h : StructuralHash) : String :=
  String.ofList ((h.bytes.toList.take 6).flatMap hexByte)

end StructuralHash

namespace Encoding

/-- The lowest `n` bytes of a number, least significant first. -/
def littleEndian : Nat → Nat → List UInt8
  | 0, _ => []
  | n + 1, x => UInt8.ofNat x :: littleEndian n (x / 256)

/-- A number as eight bytes. -/
def word (n : Nat) : List UInt8 := littleEndian 8 n

/-- A text as its length in bytes followed by its UTF-8 bytes. -/
def text (s : String) : List UInt8 := word s.utf8ByteSize ++ s.toByteArray.data.toList

/-- The bits of a float, with one pattern for both zeros and one for every NaN. -/
def canonicalBits (x : Float) : Nat :=
  if x == 0.0 then 0
  else if x.isNaN then 0x7FF8000000000000
  else x.toBits.toNat

def float (x : Float) : List UInt8 := word (canonicalBits x)

def vector (v : Vec3) : List UInt8 := float v.x ++ float v.y ++ float v.z

def hash (h : StructuralHash) : List UInt8 := h.bytes.toList

end Encoding

end PartScript
