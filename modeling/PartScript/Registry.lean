/-
  Feature types and the registry that a grammar is composed from. A type has a signature,
  a form of its argument list and a form in which arguments become a construction.
-/
import PartScript.Arguments

namespace PartScript

/-- The forms an argument list can take: as the signature declares it, or the two
spellings of a placement. -/
inductive CallForm where
  | declared
  | placement
deriving DecidableEq, Repr

/-- A feature type. -/
structure FeatureType where
  name : String
  signature : Signature
  doc : String
  /-- The form in which scripts write the arguments. -/
  written : CallForm
  /-- The form in which arguments are checked. -/
  checked : CallForm
deriving DecidableEq, Repr

namespace Placement

/-- Placement in the frame of a plane. -/
def onPlane : Signature :=
  [⟨"base", .feature, .required⟩, ⟨"plane", .datum, .required⟩]

/-- Placement in a frame given by its origin and two directions. -/
def inFrame : Signature :=
  [⟨"base", .feature, .required⟩, ⟨"origin", .vector, .required⟩,
   ⟨"ex", .vector, .required⟩, ⟨"ez", .vector, .required⟩]

/-- The signature that a number of arguments calls for. A datum that is visibly not a
plane is refused; names are left to evaluation. -/
def signatureFor (arguments : List Argument) : Except ArgumentError Signature :=
  match arguments with
  | [_, .datum (.point _)] => .error (.notPlane "point")
  | [_, .datum (.axis _ _)] => .error (.notPlane "axis")
  | [_, _] => .ok onPlane
  | _ => .ok inFrame

end Placement

namespace FeatureType

/-- A type whose calls follow its signature. -/
def ofSignature (name : String) (signature : Signature) (doc : String) : FeatureType :=
  ⟨name, signature, doc, .declared, .declared⟩

def usage (type : FeatureType) : String := type.signature.usage type.name

/-- The construction of a type from its arguments. -/
def construct (type : FeatureType) (arguments : List Argument) (origin : Origin) :
    Except ArgumentError Feature := do
  let signature ← match type.checked with
    | .declared => pure type.signature
    | .placement => Placement.signatureFor arguments
  let bound ← signature.bind arguments
  return .construct type.name signature bound origin none

end FeatureType

/-- Why a registry refuses a request. -/
inductive RegistryError where
  | duplicateType (name : String)
  | reservedName (name : String)
  | unknownFeatureType (name : String)
  | invalidArguments (name : String) (cause : ArgumentError)

def RegistryError.message : RegistryError → String
  | .duplicateType name => s!"feature type '{name}' is already registered"
  | .reservedName name => s!"'{name}' is reserved and cannot name a feature type"
  | .unknownFeatureType name => s!"Unknown feature type '{name}'"
  | .invalidArguments name cause => s!"invalid arguments for {name}: {cause.message}"

/-- The words of the statements and of the values that are not functions of one scalar or
queries. -/
def keywords : List String :=
  ["import", "export", "as", "Vector", "Point", "Axis", "Plane", "dot", "mag", "cross",
   "normalize"]

/-- Whether the grammar itself uses a word. -/
def isReserved (name : String) : Bool :=
  keywords.contains name || ScalarFn.named.any (·.1 == name) ||
    EntityKind.named.any (·.1 == name)

/-- Feature types in the order of their registration. -/
structure Registry where
  types : List FeatureType
deriving DecidableEq, Repr

namespace Registry

def empty : Registry := ⟨[]⟩

/-- The type of a name. -/
def find? (registry : Registry) (name : String) : Option FeatureType :=
  registry.types.find? (·.name == name)

def contains (registry : Registry) (name : String) : Bool := (registry.find? name).isSome

/-- The type of a name, or the error that there is none. -/
def lookup (registry : Registry) (name : String) : Except RegistryError FeatureType :=
  match registry.find? name with
  | some type => .ok type
  | none => .error (.unknownFeatureType name)

/-- Adds a type at the end. -/
def register (registry : Registry) (type : FeatureType) : Except RegistryError Registry :=
  if isReserved type.name then .error (.reservedName type.name)
  else if registry.contains type.name then .error (.duplicateType type.name)
  else .ok ⟨registry.types ++ [type]⟩

/-- Constructs a feature without a script. -/
def instantiate (registry : Registry) (name : String) (arguments : List Argument)
    (origin : Origin) : Except RegistryError Feature := do
  let type ← registry.lookup name
  (type.construct arguments origin).mapError (.invalidArguments name)

/-- The usage and the indented help text of every type, in order. -/
def documentation (registry : Registry) : String :=
  let entry (type : FeatureType) : String :=
    let help := (Text.lines type.doc).map fun line => "    " ++ line ++ "\n"
    type.usage ++ "\n" ++ String.join help ++ "\n"
  String.join (registry.types.map entry)

end Registry

end PartScript
