/-
  Datums, vectors, scalars and selections.

    scalar       := scalarTerm (('+' | '-') scalarTerm)*
    scalarTerm   := scalarUnary (('*' | '/') scalarUnary)*
    scalarUnary  := '-' scalarUnary | scalarPrimary ('^' scalarUnary)?
    vector       := vectorTerm (('+' | '-') vectorTerm)*
    vectorTerm   := vectorFactor (('*' | '/') scalarUnary)*
    vectorFactor := scalarUnary '*' vectorFactor | vectorUnary
    vectorUnary  := '-' vectorUnary | vectorPrimary
    selection    := selectionPrimary (('|' | '-') selectionPrimary)*

  Each rule is over the rules `ask` for the parts that begin after something has been read.
-/
import PartScript.Grammar.Call

namespace PartScript.Grammar

open Grammar.Parser

/-! ## Datums -/

/-- Reads `Point(v)`, `Axis(v, v)` or `Plane(v, v)`. -/
def datumCall (ask : Rules) : Parser DatumExpr := do
  trivia
  let start ← position
  let name ← identifier
  let _ ← mark '('
  let datum ← match name with
    | "Point" => DatumExpr.point <$> committed ask.vector
    | "Axis" => (fun p => DatumExpr.axis p.1 p.2) <$> committed (pairOf ask.vector)
    | "Plane" => (fun p => DatumExpr.plane p.1 p.2) <$> committed (pairOf ask.vector)
    | _ => reject start
  let _ ← committed (closing ')')
  return datum

/-- Reads a datum. -/
def datumOver (g : Grammar) (ask : Rules) : Parser DatumExpr :=
  labelled "datum" <| choice [
    datumCall ask,
    parenthesized ask.datum,
    return .symbol (← symbol g .datum)]

/-! ## Vectors -/

/-- Reads three scalars with commas between them, and the closing bracket. -/
def components (ask : Rules) (bracket : Char) : Parser VectorExpr := do
  let v ← committed do
    let x ← ask.scalar
    let _ ← comma
    let y ← ask.scalar
    let _ ← comma
    let z ← ask.scalar
    return VectorExpr.literal x y z
  let _ ← committed (closing bracket)
  return v

/-- Reads `[s, s, s]`. -/
def vectorLiteral (ask : Rules) : Parser VectorExpr := do
  let _ ← mark '['
  components ask ']'

/-- Reads `Vector(s, s, s)`, `cross(v, v)` or `normalize(v)`. -/
def vectorCall (ask : Rules) : Parser VectorExpr := do
  trivia
  let start ← position
  let name ← identifier
  let _ ← mark '('
  match name with
  | "Vector" => components ask ')'
  | "cross" =>
    let left ← committed ask.vector
    let _ ← committed comma
    let right ← committed ask.vector
    let _ ← committed (closing ')')
    return .cross left right
  | "normalize" =>
    let operand ← committed ask.vector
    let _ ← committed (closing ')')
    return .normalize operand
  | _ => reject start

/-- Reads `datum.origin`, `axis.direction` or `plane.normal`. -/
def datumPart (g : Grammar) (ask : Rules) : Parser VectorExpr := do
  trivia
  let start ← position
  let datum ← datumOver g ask
  let _ ← orReject start (mark '.')
  let word ← orReject start (padded identifier)
  match DatumPart.named.lookup word with
  | some part => return .part datum part
  | none => reject start

/-- Reads a reference point, `feature@name`. -/
def featurePoint (g : Grammar) (ask : Rules) : Parser VectorExpr := do
  trivia
  let start ← position
  let feature ← featureOver g ask
  let _ ← orReject start (mark '@')
  let name ← committed (labelled "reference point name" (padded identifier))
  return .point feature name

/-- Reads a vector without operators. -/
def vectorPrimary (g : Grammar) (ask : Rules) : Parser VectorExpr :=
  labelled "vector expression" <| choice [
    vectorLiteral ask,
    vectorCall ask,
    datumPart g ask,
    featurePoint g ask,
    parenthesized ask.vector,
    return .symbol (← symbol g .vector)]

/-! ## Scalars -/

/-- Reads a function of one scalar, `dot(v, v)` or `mag(v)`. -/
def scalarCall (ask : Rules) : Parser ScalarExpr := do
  trivia
  let start ← position
  let name ← identifier
  let _ ← mark '('
  let call ← match name with
    | "dot" => (fun p => ScalarExpr.dot p.1 p.2) <$> committed (pairOf ask.vector)
    | "mag" => ScalarExpr.magnitude <$> committed ask.vector
    | _ =>
      match ScalarFn.named.lookup name with
      | some fn => ScalarExpr.call fn <$> committed ask.scalar
      | none => reject start
  let _ ← committed (closing ')')
  return call

/-- Reads a component of a vector, `v.x`, `v.y` or `v.z`. -/
def component (g : Grammar) (ask : Rules) : Parser ScalarExpr := do
  trivia
  let start ← position
  let operand ← vectorPrimary g ask
  let _ ← orReject start (mark '.')
  let word ← padded identifier
  match Component.named.lookup word with
  | some which => return .component operand which
  | none => reject start

/-- Reads a reference value, `feature$name`. -/
def featureValue (g : Grammar) (ask : Rules) : Parser ScalarExpr := do
  trivia
  let start ← position
  let feature ← featureOver g ask
  let _ ← orReject start (mark '$')
  let name ← committed (labelled "reference value name" (padded identifier))
  return .value feature name

/-- Reads a scalar without operators. -/
def scalarPrimary (g : Grammar) (ask : Rules) : Parser ScalarExpr :=
  labelled "scalar expression" <| choice [
    return .literal (← number),
    scalarCall ask,
    component g ask,
    parenthesized ask.scalar,
    featureValue g ask,
    return .symbol (← symbol g .scalar)]

/-- Reads a signed power. Powers group to the right and bind tighter than signs. -/
def scalarUnaryOver (g : Grammar) (ask : Rules) : Parser ScalarExpr := do
  match ← optional (mark '-') with
  | some _ => return .neg (← ask.scalarUnary)
  | none =>
    let base ← scalarPrimary g ask
    match ← optional (mark '^') with
    | some _ => return .binary .pow base (← ask.scalarUnary)
    | none => return base

/-- Reads a product of scalars. -/
def scalarTerm (g : Grammar) (ask : Rules) : Parser ScalarExpr :=
  chain (scalarUnaryOver g ask) (operator '*' '/') fun op left => do
    let right ← scalarUnaryOver g ask
    return .binary (if op = '*' then .mul else .div) left right

/-- Reads a sum of scalars. -/
def scalarOver (g : Grammar) (ask : Rules) : Parser ScalarExpr :=
  chain (scalarTerm g ask) (operator '+' '-') fun op left => do
    let right ← scalarTerm g ask
    return .binary (if op = '+' then .add else .sub) left right

/-! ## Sums and products of vectors -/

/-- Reads a signed vector. -/
def vectorUnaryOver (g : Grammar) (ask : Rules) : Parser VectorExpr := do
  match ← optional (mark '-') with
  | some _ => return .neg (← ask.vectorUnary)
  | none => vectorPrimary g ask

/-- Reads a vector with a scalar factor on its left. -/
def scaledVector (g : Grammar) (ask : Rules) : Parser VectorExpr := do
  let factor ← scalarUnaryOver g ask
  let _ ← mark '*'
  let operand ← ask.vectorFactor
  return .scale operand factor

/-- Reads a vector with any number of scalar factors on its left. -/
def vectorFactorOver (g : Grammar) (ask : Rules) : Parser VectorExpr := do
  match ← optional (scaledVector g ask) with
  | some scaled => return scaled
  | none => vectorUnaryOver g ask

/-- Reads a vector with scalar factors and divisors. -/
def vectorTerm (g : Grammar) (ask : Rules) : Parser VectorExpr :=
  chain (vectorFactorOver g ask) (operator '*' '/') fun op left => do
    let right ← scalarUnaryOver g ask
    return if op = '*' then .scale left right else .divide left right

/-- Reads a sum of vectors. -/
def vectorOver (g : Grammar) (ask : Rules) : Parser VectorExpr :=
  chain (vectorTerm g ask) (operator '+' '-') fun op left => do
    let right ← vectorTerm g ask
    return if op = '+' then .add left right else .sub left right

/-! ## Selections -/

/-- Reads a query, `edges(F)` or `edges(F, "filter")`. -/
def query (ask : Rules) : Parser SelectionExpr := do
  trivia
  let start ← position
  let name ← identifier
  match EntityKind.named.lookup name with
  | none => reject start
  | some kind =>
    let _ ← mark '('
    let feature ← committed ask.feature
    let filter ← optional do
      let _ ← mark ','
      committed (labelled "filter string" (padded stringLiteral))
    let _ ← committed (closing ')')
    return .query kind feature (filter.getD "")

/-- Reads a selection without operators. -/
def selectionPrimary (g : Grammar) (ask : Rules) : Parser SelectionExpr :=
  labelled "selection" <| choice [
    query ask,
    parenthesized ask.selection,
    return .symbol (← symbol g .selection)]

/-- Reads unions and differences of selections. -/
def selectionOver (g : Grammar) (ask : Rules) : Parser SelectionExpr :=
  chain (selectionPrimary g ask) (operator '|' '-') fun op left => do
    let right ← selectionPrimary g ask
    return if op = '|' then .union left right else .difference left right

end PartScript.Grammar
