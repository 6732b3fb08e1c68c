/-
  Geometry backends. The engine does no geometry itself: a backend builds shapes from
  requests and picks sub-shapes by filters.
-/
import PartScript.Build.Result

namespace PartScript

/-- Why a backend refuses a request. -/
inductive BackendError where
  | infeasible (message : String)
  | unsupported (typeName : String)
  | invalidFilter (message : String)
  | kernelNotAvailable (message : String)
  | operationFailed (message : String)
deriving DecidableEq, Repr

def BackendError.message : BackendError → String
  | .infeasible message => s!"infeasible construction: {message}"
  | .unsupported typeName => s!"unsupported feature type '{typeName}'"
  | .invalidFilter message => s!"invalid selection filter: {message}"
  | .kernelNotAvailable message => s!"geometry kernel not available: {message}"
  | .operationFailed message => s!"operation failed: {message}"

/-- One construction to be made. -/
structure BuildRequest where
  typeName : String
  label : String
  hash : StructuralHash
  signature : Signature
  inputs : List Input

namespace BuildRequest

/-- The inputs with the names of their parameters. -/
def namedInputs (request : BuildRequest) : List (String × Input) :=
  request.inputs.mapIdx fun index input => (request.signature.argumentName index, input)

end BuildRequest

/-- The answer of a backend to a construction. -/
abbrev BuildAnswer := Except BackendError BuildResult

/-- A geometry kernel. Its answers depend on the request alone. -/
structure Backend where
  name : String
  build : BuildRequest → BuildAnswer
  select : BuildResult → EntityKind → String → Except BackendError IdSet

/-- The backend used where there is no geometry kernel: it refuses every request. -/
def Backend.null : Backend where
  name := "null"
  build request :=
    .error (.kernelNotAvailable s!"cannot build {request.typeName} '{request.label}'")
  select _ kind _ := .error (.kernelNotAvailable s!"cannot select {kind.name}")

end PartScript
