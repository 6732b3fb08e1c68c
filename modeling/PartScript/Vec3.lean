/-
  Vectors of three floats and the operations scripts apply to them. Sums are taken from
  left to right, so that every result is determined to the last bit.
-/
namespace PartScript

/-- A vector of three floats. -/
structure Vec3 where
  x : Float
  y : Float
  z : Float
deriving DecidableEq, Repr, Inhabited

namespace Vec3

/-- Changes the sign of every component. -/
def neg (v : Vec3) : Vec3 := ⟨-v.x, -v.y, -v.z⟩

def add (v w : Vec3) : Vec3 := ⟨v.x + w.x, v.y + w.y, v.z + w.z⟩

def sub (v w : Vec3) : Vec3 := ⟨v.x - w.x, v.y - w.y, v.z - w.z⟩

/-- Multiplies every component by `s`. -/
def scale (v : Vec3) (s : Float) : Vec3 := ⟨v.x * s, v.y * s, v.z * s⟩

/-- Divides every component by `s`. -/
def divide (v : Vec3) (s : Float) : Vec3 := ⟨v.x / s, v.y / s, v.z / s⟩

/-- The scalar product. -/
def dot (v w : Vec3) : Float := v.x * w.x + v.y * w.y + v.z * w.z

/-- The vector product. -/
def cross (v w : Vec3) : Vec3 :=
  ⟨v.y * w.z - w.y * v.z, v.z * w.x - w.z * v.x, v.x * w.y - w.x * v.y⟩

/-- The square of the length. -/
def lengthSquared (v : Vec3) : Float := v.dot v

def length (v : Vec3) : Float := v.lengthSquared.sqrt

/-- Whether all three components are finite. -/
def isFinite (v : Vec3) : Bool := v.x.isFinite && v.y.isFinite && v.z.isFinite

/-- The vector of length one in the same direction, `none` where there is no such
direction: a component is not finite, or the squared length is zero. -/
def unit? (v : Vec3) : Option Vec3 :=
  if v.lengthSquared == 0.0 || !v.isFinite then none else some (v.scale (1.0 / v.length))

end Vec3

end PartScript
