/-
  What building remembers, and computations on it. A computation that fails keeps what it
  has remembered up to its failure.
-/
import PartScript.Build.Cache
import PartScript.Build.Error
import PartScript.Build.Resolved

namespace PartScript

/-- How far the build of a feature has come. -/
inductive Progress where
  | unbuilt
  /-- The build is under way. -/
  | building
  | built (result : BuildResult)
  | failed (error : BuildError)

/-- What is remembered about a feature: its progress, its identity once known, and whether
its identity is being computed. -/
structure FeatureState where
  progress : Progress
  hash? : Option StructuralHash
  hashing : Bool

/-- Nothing is remembered about a feature at first. -/
def FeatureState.initial : FeatureState := ⟨.unbuilt, none, false⟩

/-- What building remembers: the states of features and the result cache, and a record of
what has been done: the requests that the backend was given, in order, each with the
construction that needed it, and the descriptions of which identities were computed, the
latest first. -/
structure BuildState where
  features : Table Origin FeatureState
  cache : ResultCache
  requests : List (Origin × BuildRequest)
  described : List Description

namespace BuildState

/-- The state of a feature. -/
def feature (s : BuildState) (f : Feature) : FeatureState :=
  (s.features.get? f.origin).getD .initial

/-- Replaces the state of a feature. -/
def setFeature (s : BuildState) (f : Feature) (state : FeatureState) : BuildState :=
  { s with features := s.features.insert f.origin state }

end BuildState

/-- Why a computation has no value: an error, or nesting deeper than was allowed for. -/
inductive Halt where
  | failed (error : BuildError)
  | exhausted
deriving DecidableEq, Repr

/-- A computation on what building remembers. -/
def Build (α : Type) : Type := BuildState → Except Halt α × BuildState

namespace Build

variable {α : Type}

instance : Monad Build where
  pure a := fun s => (.ok a, s)
  bind m f := fun s =>
    match m s with
    | (.ok a, s') => f a s'
    | (.error halt, s') => (.error halt, s')

/-- Stops. -/
def halt (h : Halt) : Build α := fun s => (.error h, s)

/-- Stops with an error. -/
def fail (error : BuildError) : Build α := halt (.failed error)

/-- Runs a computation to its end and gives its outcome as a value. -/
def attempt (m : Build α) : Build (Except Halt α) := fun s =>
  let (outcome, s') := m s
  (.ok outcome, s')

/-- Goes on with an outcome as if it had just been computed. -/
def resume : Except Halt α → Build α
  | .ok a => pure a
  | .error h => halt h

/-- The error of an input, as the feature that needs it reports it. -/
def asInput (within : Option String) (m : Build α) : Build α := fun s =>
  match m s with
  | (.error (.failed error), s') =>
    match within with
    | some label => (.error (.failed (.failedInput label error)), s')
    | none => (.error (.failed error), s')
  | outcome => outcome

/-- The state of a feature. -/
def featureState (f : Feature) : Build FeatureState := fun s => (.ok (s.feature f), s)

/-- Changes the state of a feature. -/
def updateFeature (f : Feature) (update : FeatureState → FeatureState) : Build Unit :=
  fun s => (.ok (), s.setFeature f (update (s.feature f)))

/-- Looks into the result cache. -/
def lookup (hash : StructuralHash) : Build (Option BuildAnswer) := fun s =>
  let (entry, cache) := s.cache.lookup hash
  (.ok entry, { s with cache := cache })

/-- Computes an identity. -/
def identify (description : Description) : Build StructuralHash := fun s =>
  (.ok description.hash, { s with described := description :: s.described })

/-- Invokes a backend for a feature and counts the invocation. The answer is stored where
answers are cached. A result is numbered by the requests before it. -/
def invoke (backend : Backend) (caching : Bool) (f : Feature) (request : BuildRequest) :
    Build BuildAnswer := fun s =>
  let answer := (backend.build request).map fun result =>
    { result with serial := s.requests.length }
  let counted := s.cache.countBuild
  let cache := if caching then counted.insert request.hash answer else counted
  (.ok answer, { s with cache := cache, requests := s.requests ++ [(f.origin, request)] })

end Build

end PartScript
