/-
  Evaluating expressions. Expressions are evaluated from the bottom up on every request;
  reading a reference value, a reference point or a selection of a feature builds the
  feature first.
-/
import PartScript.Build.Plan
import PartScript.Build.Reference

namespace PartScript

/-- What expressions are evaluated with: the names bound so far, the backend, and whether
its answers are cached. -/
structure Evaluation where
  model : Model
  backend : Backend
  caching : Bool

namespace Evaluation

/-! ## References to features -/

/-- The identity of what a reference designates. -/
def resolve (ev : Evaluation) (within : Option String) (reference : FeatureRef) :
    Plan ResolvedFeature := do
  let (root, path) ← Plan.ofExcept (ev.model.target reference)
  let rootHash ← Plan.hash within root
  if path.isEmpty then return ⟨root, path, rootHash⟩
  else return ⟨root, path, ← Plan.identity (.subResult rootHash path)⟩

/-- The result of a construction, or of a sub-result of it. -/
def buildBelow (within : Option String) (root : Feature) (path : List String) :
    Plan BuildResult := do
  let result ← Plan.build within root
  Plan.ofExcept (result.descend root.label path)

/-- The result of what a reference designates. -/
def buildReference (ev : Evaluation) (within : Option String) (reference : FeatureRef) :
    Plan BuildResult := do
  let (root, path) ← Plan.ofExcept (ev.model.target reference)
  buildBelow within root path

/-! ## Values -/

/-- What a name is bound to. -/
def bound (ev : Evaluation) (name : String) (kind : SymbolKind) : Plan BoundValue :=
  match ev.model.binding? name with
  | some binding => return binding.value
  | none => Plan.stop (.unresolvedReference kind name)

/-- The direction of a vector, as a vector of length one. -/
def direction (what : String) (v : Vec3) : Plan Vec3 :=
  match v.unit? with
  | some unit => return unit
  | none => Plan.stop (.evaluation (.noDirection what))

/-- The value of a function of one scalar. -/
def applyFn : ScalarFn → Float → Float
  | .sin, x => x.sin
  | .cos, x => x.cos
  | .tan, x => x.tan
  | .asin, x => x.asin
  | .acos, x => x.acos
  | .atan, x => x.atan
  | .sqrt, x => x.sqrt
  | .abs, x => x.abs
  | .ln, x => x.log
  | .exp, x => x.exp

/-- The value of a binary operator. -/
def applyOp : ScalarOp → Float → Float → Float
  | .add, x, y => x + y
  | .sub, x, y => x - y
  | .mul, x, y => x * y
  | .div, x, y => x / y
  | .pow, x, y => x.pow y

/-- A component of a vector. -/
def componentOf : Component → Vec3 → Float
  | .x, v => v.x
  | .y, v => v.y
  | .z, v => v.z

mutual

/-- Evaluates a scalar expression. -/
def scalar (ev : Evaluation) (within : Option String) : ScalarExpr → Plan Float
  | .literal value => pure value
  | .symbol name => do
    match ← ev.bound name .scalar with
    | .scalar value => Plan.scalar within value
    | other => Plan.stop (.kindMismatch name .scalar other.kind)
  | .neg operand => return -(← ev.scalar within operand)
  | .binary op left right => do
    let x ← ev.scalar within left
    let y ← ev.scalar within right
    return applyOp op x y
  | .call fn operand => return applyFn fn (← ev.scalar within operand)
  | .dot left right => do
    let v ← ev.vector within left
    let w ← ev.vector within right
    return v.dot w
  | .magnitude operand => return (← ev.vector within operand).length
  | .component operand which => return componentOf which (← ev.vector within operand)
  | .value feature name => do
    let result ← ev.buildReference within feature
    match result.value? name with
    | some value => return value
    | none => Plan.stop (.missingReference feature.text .value name)

/-- Evaluates a vector expression. -/
def vector (ev : Evaluation) (within : Option String) : VectorExpr → Plan Vec3
  | .literal x y z => do
    let a ← ev.scalar within x
    let b ← ev.scalar within y
    let c ← ev.scalar within z
    return ⟨a, b, c⟩
  | .symbol name => do
    match ← ev.bound name .vector with
    | .vector value => Plan.vector within value
    | other => Plan.stop (.kindMismatch name .vector other.kind)
  | .neg operand => return (← ev.vector within operand).neg
  | .add left right => do
    let v ← ev.vector within left
    let w ← ev.vector within right
    return v.add w
  | .sub left right => do
    let v ← ev.vector within left
    let w ← ev.vector within right
    return v.sub w
  | .scale operand factor => do
    let v ← ev.vector within operand
    let s ← ev.scalar within factor
    return v.scale s
  | .divide operand divisor => do
    let v ← ev.vector within operand
    let s ← ev.scalar within divisor
    return v.divide s
  | .cross left right => do
    let v ← ev.vector within left
    let w ← ev.vector within right
    return v.cross w
  | .normalize operand => do
    direction "normalize argument" (← ev.vector within operand)
  | .point feature name => do
    let result ← ev.buildReference within feature
    match result.point? name with
    | some point => return point
    | none => Plan.stop (.missingReference feature.text .point name)
  | .part datum part => do
    let value ← ev.datum within datum
    match value.part? part with
    | some v => return v
    | none => Plan.stop (.evaluation (.noPart value part))

/-- Evaluates a datum expression. -/
def datum (ev : Evaluation) (within : Option String) : DatumExpr → Plan Datum
  | .point location => return .point (← ev.vector within location)
  | .axis origin along => do
    let o ← ev.vector within origin
    let d ← ev.vector within along
    return .axis o (← direction "axis direction" d)
  | .plane origin normal => do
    let o ← ev.vector within origin
    let n ← ev.vector within normal
    return .plane o (← direction "plane normal" n)
  | .symbol name => do
    match ← ev.bound name .datum with
    | .datum value => Plan.datum within value
    | other => Plan.stop (.kindMismatch name .datum other.kind)

end

/-! ## Selections -/

/-- Combines the ids of two selections of the same sub-shapes. -/
def combine (op : IdSet → IdSet → IdSet) (left right : Selection) : Plan Selection :=
  if left.source = right.source ∧ left.kind = right.kind then
    return { left with ids := op left.ids right.ids }
  else
    Plan.stop (.incompatibleSelections left.kind left.sourceLabel right.kind right.sourceLabel)

/-- Evaluates a query: the feature is built and the backend evaluates the filter. -/
def query (ev : Evaluation) (within : Option String) (kind : EntityKind)
    (feature : FeatureRef) (filter : String) : Plan Selection := do
  let resolved ← ev.resolve within feature
  let shape ← buildBelow within resolved.root resolved.path
  match ev.backend.select shape kind filter with
  | .ok ids => return ⟨resolved.hash, resolved.label, kind, ids, shape⟩
  | .error source => Plan.stop (.selection resolved.label kind source)

/-- Evaluates a selection expression. -/
def selection (ev : Evaluation) (within : Option String) : SelectionExpr → Plan Selection
  | .query kind feature filter => ev.query within kind feature filter
  | .union left right => do
    let s ← ev.selection within left
    let t ← ev.selection within right
    combine .union s t
  | .difference left right => do
    let s ← ev.selection within left
    let t ← ev.selection within right
    combine .difference s t
  | .symbol name => do
    match ← ev.bound name .selection with
    | .selection value => Plan.selection within value
    | other => Plan.stop (.kindMismatch name .selection other.kind)

end Evaluation

end PartScript
