/-
  Evaluated datums: points, axes and planes in space.
-/
import PartScript.Expr
import PartScript.Vec3

namespace PartScript

/-- A point, an axis or a plane. Scripts give directions and normals of length one. -/
inductive Datum where
  | point (location : Vec3)
  | axis (origin direction : Vec3)
  | plane (origin normal : Vec3)
deriving DecidableEq, Repr

namespace Datum

/-- The point that locates a datum. -/
def origin : Datum → Vec3
  | .point location => location
  | .axis origin _ => origin
  | .plane origin _ => origin

def kindName : Datum → String
  | .point _ => "point"
  | .axis _ _ => "axis"
  | .plane _ _ => "plane"

/-- A vector that a datum holds; only axes have a direction and only planes a normal. -/
def part? : Datum → DatumPart → Option Vec3
  | datum, .origin => some datum.origin
  | .axis _ direction, .direction => some direction
  | .plane _ normal, .normal => some normal
  | _, _ => none

end Datum

end PartScript
