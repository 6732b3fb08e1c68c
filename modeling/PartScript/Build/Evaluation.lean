/-
  Building features. A feature is identified by the digest of its type and its evaluated
  arguments; it is built at most once, and constructions with equal identities share one
  invocation of the backend.

  Every step is written over the answers `ask` to the demands it makes; `Evaluation.answer`
  ties the knot.
-/
import PartScript.Build.Value

namespace PartScript.Evaluation

/-! ## Identities -/

/-- Evaluates an argument. -/
def argument (ev : Evaluation) (within : Option String) : Argument → Plan ResolvedArgument
  | .scalar value => return .scalar (← ev.scalar within value)
  | .vector value => return .vector (← ev.vector within value)
  | .datum value => return .datum (← ev.datum within value)
  | .keyword word => return .keyword word
  | .feature value => return .feature (← ev.resolve within value)
  | .selection value => return .selection (← ev.selection within value)

/-- Evaluates arguments in order, up to the first error. -/
def argumentList (ev : Evaluation) (within : Option String) :
    List Argument → Plan (List ResolvedArgument)
  | [] => return []
  | argument :: rest => do
    let value ← ev.argument within argument
    return value :: (← ev.argumentList within rest)

/-- Evaluates the arguments of a feature. -/
def arguments (ev : Evaluation) (f : Feature) : Plan (List ResolvedArgument) :=
  ev.argumentList (some f.label) f.arguments

/-- Evaluates the arguments of a feature and computes its identity, which is remembered.
Coming back to the feature meanwhile is a circular dependency. -/
def fingerprint (ev : Evaluation) (ask : Answers) (f : Feature) :
    Build (StructuralHash × List ResolvedArgument) := do
  if (← Build.featureState f).hashing then Build.fail (.circularDependency f.label)
  else
    Build.updateFeature f fun s => { s with hashing := true }
    let outcome ← Build.attempt ((ev.arguments f).run ask)
    Build.updateFeature f fun s => { s with hashing := false }
    let arguments ← Build.resume outcome
    let hash ← Build.identify (.feature f.typeName arguments)
    Build.updateFeature f fun s => { s with hash? := s.hash?.or (some hash) }
    return (hash, arguments)

/-- The identity of a feature, computed once. -/
def hashOver (ev : Evaluation) (ask : Answers) (f : Feature) : Build StructuralHash := do
  match (← Build.featureState f).hash? with
  | some hash => return hash
  | none => return (← ev.fingerprint ask f).1

/-! ## Builds -/

/-- The input of a build for an evaluated argument; features are built. -/
def input (within : Option String) : ResolvedArgument → Plan Input
  | .scalar value => return .scalar value
  | .vector value => return .vector value
  | .datum value => return .datum value
  | .keyword word => return .keyword word
  | .feature value => return .shape (← buildBelow within value.root value.path)
  | .selection value => return .selection value

/-- The inputs of a build, in order, up to the first error. -/
def inputs (within : Option String) : List ResolvedArgument → Plan (List Input)
  | [] => return []
  | argument :: rest => do
    let first ← input within argument
    return first :: (← inputs within rest)

/-- The request for a feature of a known identity and known inputs. -/
def request (f : Feature) (hash : StructuralHash) (inputs : List Input) : BuildRequest :=
  ⟨f.typeName, f.label, hash, f.signature, inputs⟩

/-- The backend's answer as the result of a feature. -/
def answered (f : Feature) : BuildAnswer → Build BuildResult
  | .ok result => return result
  | .error source => Build.fail (.backend f.label source)

/-- Builds a feature that has no result yet: by an answer in the cache, or else by building
its inputs and invoking the backend. -/
def buildAnew (ev : Evaluation) (ask : Answers) (f : Feature) : Build BuildResult := do
  let (hash, arguments) ← ev.fingerprint ask f
  let known ← if ev.caching then Build.lookup hash else pure none
  match known with
  | some answer => answered f answer
  | none =>
    let inputs ← (inputs (some f.label) arguments).run ask
    answered f (← Build.invoke ev.backend ev.caching f (request f hash inputs))

/-- The progress after a build has ended. Failures are remembered, except where a name is
not bound yet. -/
def progressAfter : Except Halt BuildResult → Progress
  | .ok result => .built result
  | .error (.failed error) => if error.isDeferred then .unbuilt else .failed error
  | .error .exhausted => .unbuilt

/-- Builds a feature once. Coming back to it meanwhile is a circular dependency. -/
def buildOver (ev : Evaluation) (ask : Answers) (f : Feature) : Build BuildResult := do
  match (← Build.featureState f).progress with
  | .built result => return result
  | .failed error => Build.fail error
  | .building => Build.fail (.circularDependency f.label)
  | .unbuilt =>
    Build.updateFeature f fun s => { s with progress := .building }
    let outcome ← Build.attempt (ev.buildAnew ask f)
    Build.updateFeature f fun s => { s with progress := progressAfter outcome }
    Build.resume outcome

/-! ## Answering demands -/

/-- The answer to a demand, over the answers to the demands that it makes in turn. -/
def answerOver (ev : Evaluation) (ask : Answers) : Answers
  | .scalar within value => (ev.scalar within value).run ask
  | .vector within value => (ev.vector within value).run ask
  | .datum within value => (ev.datum within value).run ask
  | .selection within value => (ev.selection within value).run ask
  | .hash feature => ev.hashOver ask feature
  | .build feature => ev.buildOver ask feature

/-- The answers to demands that nest less than `depth` deep. -/
def answer (ev : Evaluation) : (depth : Nat) → Answers
  | 0, _ => Build.halt .exhausted
  | depth + 1, demand => answerOver ev (answer ev depth) demand

/-- A depth that no demand exceeds. Along a chain of demands no feature is entered twice
before a circular dependency is found, and between two features each name that is followed
was bound before the last one. `extra` counts constructions outside the model. -/
def depth (ev : Evaluation) (extra : Nat) : Nat :=
  (ev.model.constructions.length + extra + 2) * (ev.model.bindings.length + 2)

/-- The answers to all demands that arise from an expression with `extra` constructions. -/
def answers (ev : Evaluation) (extra : Nat) : Answers := ev.answer (ev.depth extra)

end PartScript.Evaluation
