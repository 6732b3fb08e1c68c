/-
  Errors of evaluating and building, and the chains they form when the failure of a feature
  reaches the features that depend on it.
-/
import PartScript.Build.Backend

namespace PartScript

/-- Why an evaluation has no value although every name in it is bound. -/
inductive EvaluationError where
  /-- A direction cannot be brought to length one. -/
  | noDirection (what : String)
  /-- A datum has no part of the kind. -/
  | noPart (datum : Datum) (part : DatumPart)
  /-- A name designates a sub-result where a feature is needed. -/
  | subResult (name : String) (path : List String) (owner : String)
deriving DecidableEq, Repr

def EvaluationError.message : EvaluationError → String
  | .noDirection what => s!"{what} must be a finite, non-zero vector"
  | .noPart datum part => s!"a {datum.kindName} datum has no {part.name}"
  | .subResult name path owner =>
    s!"'{name}' designates sub-result '" ++ "!".intercalate path ++
      s!"' of '{owner}', not a feature"

/-- What a feature is asked for by name. -/
inductive ReferenceCategory where
  | value
  | point
deriving DecidableEq, Repr

def ReferenceCategory.name : ReferenceCategory → String
  | .value => "value"
  | .point => "point"

/-- Why a value cannot be evaluated or a feature cannot be built. -/
inductive BuildError where
  /-- A feature, or a chain of names, needs itself. -/
  | circularDependency (feature : String)
  | unresolvedReference (kind : SymbolKind) (name : String)
  | kindMismatch (name : String) (expected found : SymbolKind)
  /-- The backend refused a construction. -/
  | backend (feature : String) (source : BackendError)
  /-- An input of a feature failed. -/
  | failedInput (feature : String) (source : BuildError)
  /-- The backend refused a selection. -/
  | selection (feature : String) (kind : EntityKind) (source : BackendError)
  | missingSubResult (feature name : String)
  | missingReference (feature : String) (category : ReferenceCategory) (name : String)
  /-- Two selections do not pick from the same sub-shapes. -/
  | incompatibleSelections (leftKind : EntityKind) (left : String) (rightKind : EntityKind)
      (right : String)
  | evaluation (cause : EvaluationError)
  | noOutputs
deriving DecidableEq, Repr

namespace BuildError

def message : BuildError → String
  | .circularDependency feature => s!"circular dependency involving feature '{feature}'"
  | .unresolvedReference kind name => s!"unresolved {kind.name} reference '{name}'"
  | .kindMismatch name expected found =>
    s!"'{name}' is a {found.name}, expected a {expected.name}"
  | .backend feature source => s!"feature '{feature}' failed: {source.message}"
  | .failedInput feature source =>
    s!"feature '{feature}' depends on a failed input: " ++ source.message
  | .selection feature kind source =>
    s!"selecting {kind.name} of '{feature}' failed: {source.message}"
  | .missingSubResult feature name => s!"feature '{feature}' has no sub-result '{name}'"
  | .missingReference feature category name =>
    s!"feature '{feature}' has no reference {category.name} '{name}'"
  | .incompatibleSelections leftKind left rightKind right =>
    s!"cannot combine {leftKind.name} of '{left}' with {rightKind.name} of '{right}'"
  | .evaluation cause => cause.message
  | .noOutputs => "the session has no output feature"

/-- The error at the end of a chain of failed inputs. -/
def rootCause : BuildError → BuildError
  | .failedInput _ source => source.rootCause
  | error => error

/-- The labels of the features that a failure went through, outermost first. -/
def path : BuildError → List String
  | .failedInput feature source => feature :: source.path
  | _ => []

/-- Whether an error can go away when more names are bound. -/
def isDeferred (error : BuildError) : Bool :=
  match error.rootCause with
  | .unresolvedReference _ _ => true
  | _ => false

end BuildError

end PartScript
