/-
  What a geometry backend receives and gives back: shapes, build results with their named
  points, values and sub-results, evaluated selections, and inputs.
-/
import PartScript.Datum
import PartScript.Digest.Identity
import PartScript.IdSet
import PartScript.Table

namespace PartScript

/-- The number of sub-shapes of each kind. -/
structure EntityCounts where
  solids : UInt32
  faces : UInt32
  edges : UInt32
  vertices : UInt32
deriving DecidableEq, Repr

namespace EntityCounts

def count (counts : EntityCounts) : EntityKind → UInt32
  | .solid => counts.solids
  | .face => counts.faces
  | .edge => counts.edges
  | .vertex => counts.vertices

/-- The sum of two counts, or the largest word where the sum exceeds it. -/
def addSaturating (a b : UInt32) : UInt32 := UInt32.ofNat (min (a.toNat + b.toNat) 0xFFFFFFFF)

/-- Adds the counts of each kind, saturating. -/
def add (a b : EntityCounts) : EntityCounts :=
  ⟨addSaturating a.solids b.solids, addSaturating a.faces b.faces,
    addSaturating a.edges b.edges, addSaturating a.vertices b.vertices⟩

end EntityCounts

/-- A shape that is recorded as the term of its construction. -/
structure SymbolicShape where
  typeName : String
  term : String
  counts : EntityCounts
deriving DecidableEq, Repr

/-- A shape as its backend made it. -/
inductive Shape where
  | symbolic (shape : SymbolicShape)
  /-- A shape that only its own backend can look into. -/
  | foreign
deriving DecidableEq, Repr

/-- The shape as a recorded term, if it is one. -/
def Shape.symbolic? : Shape → Option SymbolicShape
  | .symbolic shape => some shape
  | .foreign => none

/-- The result of one build. `serial` is the number of the backend invocation that gave
it, so that the same result can be told from an equal one. -/
structure BuildResult where
  serial : Nat
  shape : Shape
  /-- Reference points, `F@name`. -/
  points : List (String × Vec3)
  /-- Reference values, `F$name`. -/
  values : List (String × Float)
  /-- Sub-results, `F!name`. -/
  subs : List (String × BuildResult)

namespace BuildResult

/-- A result with a shape and nothing named. -/
def ofShape (shape : Shape) : BuildResult := ⟨0, shape, [], [], []⟩

def point? (r : BuildResult) (name : String) : Option Vec3 := Table.get? r.points name

def value? (r : BuildResult) (name : String) : Option Float := Table.get? r.values name

def sub? (r : BuildResult) (name : String) : Option BuildResult := Table.get? r.subs name

def withPoint (r : BuildResult) (name : String) (p : Vec3) : BuildResult :=
  { r with points := Table.insert r.points name p }

def withValue (r : BuildResult) (name : String) (x : Float) : BuildResult :=
  { r with values := Table.insert r.values name x }

def withSub (r : BuildResult) (name : String) (sub : BuildResult) : BuildResult :=
  { r with subs := Table.insert r.subs name sub }

end BuildResult

/-- An evaluated selection: some sub-shapes of one kind of one built feature. -/
structure Selection where
  /-- The identity of the feature that the ids refer to. -/
  source : StructuralHash
  sourceLabel : String
  kind : EntityKind
  ids : IdSet
  /-- The result that the ids index into. -/
  shape : BuildResult

/-- An input of a build, with everything it depends on built. -/
inductive Input where
  | scalar (value : Float)
  | vector (value : Vec3)
  | datum (value : Datum)
  | keyword (word : String)
  | shape (result : BuildResult)
  | selection (value : Selection)

end PartScript
