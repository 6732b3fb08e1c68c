/-
  The symbolic backend. It does no geometry but records every construction as a term, with
  a nominal number of sub-shapes, which is enough to read reference points and values and
  to evaluate selections.
-/
import PartScript.Build.Filter

namespace PartScript.Symbolic

/-! ## Terms -/

def vectorTerm (v : Vec3) : String :=
  s!"[{Decimal.text v.x}, {Decimal.text v.y}, {Decimal.text v.z}]"

def datumTerm : Datum → String
  | .point location => s!"Point({vectorTerm location})"
  | .axis origin direction => s!"Axis({vectorTerm origin}, {vectorTerm direction})"
  | .plane origin normal => s!"Plane({vectorTerm origin}, {vectorTerm normal})"

/-- The term of an input. -/
def inputTerm : Input → String
  | .scalar value => Decimal.text value
  | .vector value => vectorTerm value
  | .datum value => datumTerm value
  | .keyword word => word
  | .shape result =>
    match result.shape with
    | .symbolic shape => shape.term
    | .foreign => "<shape>"
  | .selection value =>
    value.kind.name ++ "\x7b" ++ ",".intercalate (value.ids.toList.map toString) ++ "\x7d"

/-! ## Counts -/

/-- The number of sub-shapes that an input brings in. -/
def inputCounts? : Input → Option EntityCounts
  | .shape result => result.shape.symbolic?.map (·.counts)
  | .selection value => value.shape.shape.symbolic?.map (·.counts)
  | _ => none

/-- The nominal number of sub-shapes of a construction. Constructions on other shapes have
those of all their inputs, and at least one solid. -/
def entityCounts (typeName : String) (inputs : List Input) : EntityCounts :=
  match typeName with
  | "Box" => ⟨1, 6, 12, 8⟩
  | "Sphere" => ⟨1, 1, 1, 2⟩
  | "Cylinder" => ⟨1, 3, 3, 2⟩
  | "Cone" => ⟨1, 3, 3, 2⟩
  | _ =>
    let total := (inputs.filterMap inputCounts?).foldl EntityCounts.add ⟨0, 0, 0, 0⟩
    { total with solids := max total.solids 1 }

/-! ## Building and selecting -/

/-- Refuses a number that is not finite and a diameter that is not positive. -/
def checkInput (request : BuildRequest) : String × Input → Except BackendError Unit
  | (name, .scalar value) =>
    if !value.isFinite then
      .error (.infeasible s!"{request.typeName} '{request.label}': {name} is not finite")
    else if name = "D" && value ≤ 0.0 then
      .error (.infeasible
        s!"{request.typeName} '{request.label}': diameter must be positive, got {Decimal.text value}")
    else .ok ()
  | _ => .ok ()

/-- Checks all inputs, up to the first that is refused. -/
def checkFeasible (request : BuildRequest) : Except BackendError Unit :=
  request.namedInputs.forM (checkInput request)

/-- Adds an input to a result under the name of its parameter: numbers as values, vectors
and the origins of datums as points, shapes as sub-results. -/
def addInput (result : BuildResult) : String × Input → BuildResult
  | (name, .scalar value) => result.withValue name value
  | (name, .vector value) => result.withPoint name value
  | (name, .datum value) => result.withPoint name value.origin
  | (name, .shape sub) => result.withSub name sub
  | (_, .keyword _) => result
  | (_, .selection _) => result

/-- The shape of a construction. -/
def shape (request : BuildRequest) : SymbolicShape where
  typeName := request.typeName
  term := request.typeName ++ "(" ++ ", ".intercalate (request.inputs.map inputTerm) ++ ")"
  counts := entityCounts request.typeName request.inputs

/-- Records a construction. Types in `failing` are refused. -/
def build (failing : List String) (request : BuildRequest) : BuildAnswer := do
  if failing.contains request.typeName then
    throw (.operationFailed s!"{request.typeName} '{request.label}' rejected by backend")
  checkFeasible request
  return request.namedInputs.foldl addInput (.ofShape (.symbolic (shape request)))

/-- Evaluates a filter on a recorded construction. -/
def select (result : BuildResult) (kind : EntityKind) (filter : String) :
    Except BackendError IdSet :=
  match result.shape with
  | .symbolic shape => Filter.select filter (shape.counts.count kind)
  | .foreign => .error (.operationFailed "shape was not built by the symbolic backend")

/-- The symbolic backend that refuses the types in `failing`. -/
def backend (failing : List String) : Backend where
  name := "symbolic"
  build := build failing
  select := select

end PartScript.Symbolic
