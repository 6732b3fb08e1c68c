/-
  Feature references, constructor calls and their argument lists. A call commits once the
  type name and the opening parenthesis have been read.
-/
import PartScript.Grammar.Rule

namespace PartScript.Grammar

open Grammar.Parser

/-! ## Arguments -/

/-- Reads one of a fixed set of words. -/
def optionWord (choices : List String) : Parser String := do
  trivia
  let start ← position
  let missing : Parser String :=
    fun _ => .error [⟨start, .word⟩, ⟨start, .phrase "option word"⟩]
  match ← optional identifier with
  | some word =>
    if choices.contains word then
      trivia
      return word
    else missing
  | none => missing

/-- Reads one argument for a parameter of a kind. -/
def argument (ask : Rules) : ParamKind → Parser Argument
  | .scalar => return .scalar (← ask.scalar)
  | .vector => return .vector (← ask.vector)
  | .datum => return .datum (← ask.datum)
  | .feature => return .feature (← ask.feature)
  | .selection => return .selection (← ask.selection)
  | .keyword choices => return .keyword (← optionWord choices)

/-- Reads the next argument of a call together with the comma before it, or nothing where
the list may end. After a comma an argument has to follow. -/
def nextArgument (ask : Rules) (typeName : String) (param : Param) (mandatory first : Bool) :
    Parser (Option Argument) := do
  if first then
    if mandatory then return some (← argument ask param.kind)
    else optional (argument ask param.kind)
  else
    let here ← position
    match ← optional (mark ',') with
    | some _ => return some (← argument ask param.kind)
    | none =>
      if mandatory then
        refuse here here .malformed
          s!"Syntax error: {typeName} expects argument '{param.usage}'"
      else return none

/-- Reads arguments of a variadic parameter until the list ends. Each takes at least one
character, so the text left bounds their number. -/
def variadicArguments (ask : Rules) (typeName : String) (param : Param) (least : Nat) :
    Nat → Nat → List Argument → Parser (List Argument)
  | 0, _, read => pure read
  | n + 1, count, read => do
    match ← nextArgument ask typeName param (count < least) read.isEmpty with
    | some argument =>
      variadicArguments ask typeName param least n (count + 1) (read ++ [argument])
    | none => return read

/-- Reads the arguments for the remaining parameters after those in `read`. An omitted
optional argument ends the list. -/
def argumentsFrom (ask : Rules) (typeName : String) :
    Signature → List Argument → Parser (List Argument)
  | [], read => pure read
  | param :: params, read =>
    match param.arity with
    | .variadic least => fun c =>
      variadicArguments ask typeName param least (c.rest.length + 1) 0 read c
    | .required => do
      match ← nextArgument ask typeName param true read.isEmpty with
      | some argument => argumentsFrom ask typeName params (read ++ [argument])
      | none => return read
    | .optional _ => do
      match ← nextArgument ask typeName param false read.isEmpty with
      | some argument => argumentsFrom ask typeName params (read ++ [argument])
      | none => return read

/-- Reads an argument list as the signature of a type declares it. -/
def declaredArguments (ask : Rules) (type : FeatureType) : Parser (List Argument) :=
  argumentsFrom ask type.name type.signature []

/-- The kind of datum that an expression denotes, following names through at most `n`
bindings; `none` where a name is not bound to a datum. -/
def datumKind? (model : Model) : Nat → DatumExpr → Option String
  | 0, _ => none
  | _ + 1, .point _ => some "point"
  | _ + 1, .axis _ _ => some "axis"
  | _ + 1, .plane _ _ => some "plane"
  | n + 1, .symbol name =>
    match model.binding? name with
    | some ⟨_, .datum value, _, _⟩ => datumKind? model n value
    | _ => none

/-- Reads the datum that closes the argument list of a placement on a plane. -/
def placementPlane (ask : Rules) : Parser DatumExpr := do
  let plane ← ask.datum
  let _ ← ahead (mark ')')
  return plane

/-- Reads the arguments of a placement: a feature and a plane, or a feature and a frame.
A datum that closes the list has to denote a plane. -/
def placementArguments (g : Grammar) (ask : Rules) : Parser (List Argument) := do
  let base ← labelled "feature" ask.feature
  let _ ← comma
  let start ← position
  match ← optional (placementPlane ask) with
  | some plane =>
    let stop ← position
    match datumKind? g.model (g.model.bindings.length + 1) plane with
    | some "point" =>
      refuse start stop .malformed "Syntax error: Place expects a plane datum, found point"
    | some "axis" =>
      refuse start stop .malformed "Syntax error: Place expects a plane datum, found axis"
    | _ => return [.feature base, .datum plane]
  | none =>
    let origin ← labelled "origin vector" ask.vector
    let _ ← comma
    let ex ← labelled "x direction" ask.vector
    let _ ← comma
    let ez ← labelled "z direction" ask.vector
    return [.feature base, .vector origin, .vector ex, .vector ez]

/-- Reads what stands between the parentheses of a call. -/
def callArguments (g : Grammar) (ask : Rules) (type : FeatureType) : Parser (List Argument) :=
  match type.written with
  | .declared => declaredArguments ask type
  | .placement => placementArguments g ask

/-! ## Constructions and references -/

/-- Reads a constructor call. A call of a word that is neither registered nor reserved is
an error of its own. -/
def constructor (g : Grammar) (ask : Rules) : Parser Feature := do
  trivia
  let start ← position
  let name ← identifier
  let afterName ← position
  let _ ← mark '('
  match g.registry.find? name with
  | none =>
    if isReserved name then reject start
    else
      refuse start afterName .unknownFeatureType
        (RegistryError.unknownFeatureType name).message
  | some type =>
    let arguments ← committed (callArguments g ask type)
    let _ ← committed (closing ')')
    let stop ← position
    match type.construct arguments (.text g.model.sources (.between start stop)) with
    | .ok feature => return feature
    | .error cause =>
      refuse start stop .malformed s!"Invalid arguments for {type.name}: {cause.message}"

/-- Reads the name of a feature, which may be bound later. -/
def featureName (g : Grammar) : Parser FeatureRef := do
  trivia
  let start ← position
  let name ← identifier
  if isReserved name || g.registry.contains name then reject start
  else
    match g.model.kindOf? name with
    | none | some .feature =>
      trivia
      return .named name
    | some _ => reject start

/-- Reads a feature without accesses to sub-results. -/
def featurePrimary (g : Grammar) (ask : Rules) : Parser FeatureRef :=
  choice [
    return .inline (← constructor g ask),
    do
      let _ ← mark '('
      let feature ← ask.feature
      let _ ← mark ')'
      return feature,
    featureName g]

/-- Reads an access to a sub-result. -/
def subResult (base : FeatureRef) : Parser FeatureRef := do
  let _ ← mark '!'
  let name ← padded identifier
  return .sub base name

/-- Reads a feature with any number of accesses to sub-results. -/
def featureOver (g : Grammar) (ask : Rules) : Parser FeatureRef := do
  let primary ← labelled "feature" (featurePrimary g ask)
  fun c => extend subResult c.rest.length primary c

end PartScript.Grammar
