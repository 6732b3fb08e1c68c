/-
  Arguments with everything in them evaluated, and the byte streams that identify features
  and their sub-results. Every stream begins with its domain, and every part of variable
  length is preceded by its length.
-/
import PartScript.Build.Result

namespace PartScript

/-- A reference with everything that identifies what it designates. -/
structure ResolvedFeature where
  root : Feature
  /-- The path of sub-results below the root. -/
  path : List String
  hash : StructuralHash

namespace ResolvedFeature

/-- The name of what is designated, in messages. -/
def label (r : ResolvedFeature) : String :=
  r.path.foldl (fun label name => label ++ "!" ++ name) r.root.label

end ResolvedFeature

/-- An argument with everything in it evaluated. -/
inductive ResolvedArgument where
  | scalar (value : Float)
  | vector (value : Vec3)
  | datum (value : Datum)
  | keyword (word : String)
  | feature (value : ResolvedFeature)
  | selection (value : Selection)

namespace Encoding

/-- The byte that begins the stream of an argument. -/
def tag (c : Char) : UInt8 := c.toUInt8

/-- The bytes of a datum: its kind and its vectors. -/
def datum : Datum → List UInt8
  | .point location => 0 :: vector location
  | .axis origin along => 1 :: vector origin ++ vector along
  | .plane origin normal => 2 :: vector origin ++ vector normal

/-- The bytes of an evaluated selection: the identity of its feature, its kind and its
ids. -/
def selection (s : Selection) : List UInt8 :=
  hash s.source ++ text s.kind.name ++ word s.ids.toList.length ++
    s.ids.toList.flatMap fun id => word id.toNat

/-- The bytes of an evaluated argument. A feature stands for itself by its identity. -/
def argument : ResolvedArgument → List UInt8
  | .scalar value => tag 's' :: float value
  | .vector value => tag 'v' :: vector value
  | .datum value => tag 'd' :: datum value
  | .keyword word => tag 'k' :: text word
  | .feature value => tag 'f' :: hash value.hash
  | .selection value => tag 'e' :: selection value

/-- The bytes that identify a construction: its type and its evaluated arguments. -/
def feature (typeName : String) (arguments : List ResolvedArgument) : List UInt8 :=
  text "feature" ++ text typeName ++ word arguments.length ++ arguments.flatMap argument

/-- The bytes that identify a sub-result: the identity of its root and the path below it. -/
def subResult (root : StructuralHash) (path : List String) : List UInt8 :=
  text "sub-result" ++ hash root ++ word path.length ++ path.flatMap text

end Encoding

/-- What an identity is computed from. -/
inductive Description where
  | feature (typeName : String) (arguments : List ResolvedArgument)
  | subResult (root : StructuralHash) (path : List String)

namespace Description

/-- The byte stream that is digested. -/
def stream : Description → List UInt8
  | feature typeName arguments => Encoding.feature typeName arguments
  | subResult root path => Encoding.subResult root path

/-- The identity of what is described. -/
def hash (d : Description) : StructuralHash := .ofBytes d.stream

end Description

end PartScript
