/-
  The built-in feature types.
-/
import PartScript.Registry

namespace PartScript.Catalog

/-- A parameter that takes one argument. -/
def param (name : String) (kind : ParamKind) : Param := ⟨name, kind, .required⟩

/-! ## Solids -/

def box : FeatureType :=
  .ofSignature "Box" [param "corner" .vector, param "size" .vector]
    "Axis-aligned box with one corner at `corner` and edge lengths `size`."

def sphere : FeatureType :=
  .ofSignature "Sphere" [param "center" .vector, param "D" .scalar]
    "Sphere of diameter `D` around `center`."

def cylinder : FeatureType :=
  .ofSignature "Cylinder"
    [param "p0" .vector, param "p1" .vector, param "D" .scalar,
     ⟨"Di", .scalar, .optional (.scalar 0.0)⟩]
    "Cylinder from `p0` to `p1` with outer diameter `D`.\nA non-zero inner diameter `Di` makes it a tube."

def cone : FeatureType :=
  .ofSignature "Cone"
    [param "p0" .vector, param "p1" .vector, param "D0" .scalar, param "D1" .scalar]
    "Truncated cone from `p0` (diameter `D0`) to `p1` (diameter `D1`)."

/-! ## Combinations of solids -/

def union : FeatureType :=
  .ofSignature "Union" [⟨"operands", .feature, .variadic 2⟩] "Fuses two or more solids."

def subtract : FeatureType :=
  .ofSignature "Subtract" [param "base" .feature, param "tool" .feature]
    "Removes `tool` from `base`."

def intersection : FeatureType :=
  .ofSignature "Intersection" [param "a" .feature, param "b" .feature]
    "Keeps the volume common to `a` and `b`."

def compound : FeatureType :=
  .ofSignature "Compound" [⟨"parts", .feature, .variadic 1⟩]
    "Groups shapes without fusing them."

/-! ## Transforms -/

def translate : FeatureType :=
  .ofSignature "Translate" [param "base" .feature, param "delta" .vector]
    "Moves `base` by `delta`."

def rotate : FeatureType :=
  .ofSignature "Rotate" [param "base" .feature, param "axis" .datum, param "angle" .scalar]
    "Rotates `base` around `axis` by `angle` radians."

def mirror : FeatureType :=
  .ofSignature "Mirror" [param "base" .feature, param "plane" .datum]
    "Reflects `base` through `plane`."

def scale : FeatureType :=
  .ofSignature "Scale" [param "base" .feature, param "factor" .scalar]
    "Scales `base` uniformly about the origin."

def place : FeatureType :=
  ⟨"Place", Placement.onPlane,
    "Moves `base` from the global frame into a local frame.\nAlso accepts `Place(base: feature, origin: vector, ex: vector, ez: vector)`.",
    .placement, .placement⟩

/-! ## Features derived from existing geometry -/

def fillet : FeatureType :=
  .ofSignature "Fillet" [param "edges" .selection, param "r" .scalar]
    "Rounds the selected edges with radius `r`."

def chamfer : FeatureType :=
  .ofSignature "Chamfer" [param "edges" .selection, param "d" .scalar]
    "Bevels the selected edges by distance `d`."

def extrude : FeatureType :=
  .ofSignature "Extrude"
    [param "profile" .feature, param "direction" .vector,
     ⟨"mode", .keyword ["forward", "centered"], .optional (.keyword "forward")⟩]
    "Sweeps `profile` along `direction`.\n`centered` extends half the distance to each side."

/-- The angle of a full turn in radians. -/
def fullTurn : Float := 6.283185307179586

def revolve : FeatureType :=
  .ofSignature "Revolve"
    [param "profile" .feature, param "axis" .datum,
     ⟨"angle", .scalar, .optional (.scalar fullTurn)⟩]
    "Revolves `profile` around `axis` by `angle` radians (full turn by default)."

/-- All built-in types, in the order of their registration. -/
def types : List FeatureType :=
  [box, sphere, cylinder, cone, union, subtract, intersection, compound, translate, rotate,
   mirror, scale, place, fillet, chamfer, extrude, revolve]

/-- The built-in type of a name. -/
def find? (name : String) : Option FeatureType := types.find? (·.name == name)

/-- The registry of the built-in types. -/
def registry : Registry := ⟨types⟩

end PartScript.Catalog
