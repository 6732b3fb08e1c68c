/-
  The statements of a script: imports, bindings and output requests.
-/
import PartScript.Grammar.Parse

namespace PartScript.Grammar

open Grammar.Parser

/-- A declaration `import "path";`. -/
structure ImportDeclaration where
  path : String
  span : SourceSpan
deriving DecidableEq, Repr

/-- A statement after the imports. -/
inductive Statement where
  | binding (name : String) (value : BoundValue)
  | output (feature : FeatureRef) (path : Option String)

/-- Reads the semicolon that ends a statement. -/
def semicolon : Parser Char := labelled "';'" (mark ';')

/-- Reads a phrase that a semicolon ends. -/
def ended {α : Type} (p : Parser α) : Parser α := do
  let a ← p
  let _ ← semicolon
  return a

/-- Reads an import declaration. -/
def importDeclaration : Parser ImportDeclaration := do
  trivia
  let start ← position
  let _ ← keyword "import"
  let path ← committed (labelled "import path" (padded stringLiteral))
  let _ ← committed semicolon
  let stop ← position
  return ⟨path, .between start stop⟩

/-- Reads an output request after its keyword. -/
def outputBody (g : Grammar) : Parser Statement := do
  let feature ← g.parse.feature
  let path ← optional do
    let _ ← keyword "as"
    committed (labelled "output path" (padded stringLiteral))
  let _ ← semicolon
  return .output feature path

/-- Reads the right-hand side of a binding with its semicolon, as a feature, a selection, a
datum, a vector or a scalar. -/
def boundValue (g : Grammar) : Parser BoundValue :=
  furthestChoice none [
    return .feature (← ended g.parse.feature),
    return .selection (← ended g.parse.selection),
    return .datum (← ended g.parse.datum),
    return .vector (← ended g.parse.vector),
    return .scalar (← ended g.parse.scalar)]

/-- Reads a binding. Its name must be free. -/
def bindingStatement (g : Grammar) : Parser Statement := do
  trivia
  let start ← position
  let name ← labelled "statement" identifier
  let afterName ← position
  let _ ← labelled "'='" (mark '=')
  if isReserved name || g.registry.contains name then
    refuse start afterName .reservedName s!"'{name}' is reserved and cannot be bound"
  else
    match g.model.binding? name with
    | some previous =>
      refuse start afterName .duplicateSymbol
        s!"Duplicate symbol '{name}' (first bound at {previous.file}:{previous.span.line})"
    | none => return .binding name (← committed (boundValue g))

/-- Reads a binding or an output request. -/
def statement (g : Grammar) : Parser Statement := do
  match ← optional (keyword "export") with
  | some _ => committed (outputBody g)
  | none => bindingStatement g

end PartScript.Grammar
