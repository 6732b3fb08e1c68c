/-
  Sessions: a symbol table with what has been built of it, and the questions that can be
  asked of it. Loading only adds names, and a load that fails changes nothing; features are
  built when a question needs them.
-/
import PartScript.Build.Evaluation
import PartScript.Catalog
import PartScript.Project.Modules

namespace PartScript

/-! ## Questions -/

/-- A feature to output, and where to. -/
structure OutputTarget where
  feature : FeatureRef
  label : String
  path : Option String

/-- An output that has been built. -/
structure BuiltOutput where
  label : String
  path : Option String
  hash : StructuralHash
  result : BuildResult

namespace Evaluation

/-! The value that a name is bound to. -/

def scalarNamed (ev : Evaluation) (name : String) : Plan Float := ev.scalar none (.symbol name)

def vectorNamed (ev : Evaluation) (name : String) : Plan Vec3 := ev.vector none (.symbol name)

def datumNamed (ev : Evaluation) (name : String) : Plan Datum := ev.datum none (.symbol name)

def selectionNamed (ev : Evaluation) (name : String) : Plan Selection :=
  ev.selection none (.symbol name)

/-- The construction that a name designates. -/
def featureNamed (ev : Evaluation) (name : String) : Except BuildError Feature := do
  let (root, path) ← ev.model.target (.named name)
  if path.isEmpty then return root
  else throw (.evaluation (.subResult name path root.label))

/-- The identity of what a name designates. -/
def hashNamed (ev : Evaluation) (name : String) : Plan StructuralHash := do
  return (← ev.resolve none (.named name)).hash

/-- The result of what a name designates. -/
def buildNamed (ev : Evaluation) (name : String) : Plan BuildResult :=
  ev.buildReference none (.named name)

end Evaluation

/-- The features to output: those requested, in order, or else the last one bound. -/
def Model.outputTargets (model : Model) : List OutputTarget :=
  if model.outputs.isEmpty then
    match model.lastFeature? with
    | some binding => [⟨.named binding.name, binding.name, none⟩]
    | none => []
  else model.outputs.map fun output => ⟨output.feature, output.feature.text, output.path⟩

namespace Evaluation

/-- Builds one output. -/
def buildOutput (ev : Evaluation) (output : OutputTarget) : Plan BuiltOutput := do
  let resolved ← ev.resolve none output.feature
  let result ← ev.buildReference none output.feature
  return ⟨output.label, output.path, resolved.hash, result⟩

/-- Builds outputs in order, up to the first error. -/
def buildEach (ev : Evaluation) : List OutputTarget → Plan (List BuiltOutput)
  | [] => return []
  | output :: rest => do
    let first ← ev.buildOutput output
    return first :: (← buildEach ev rest)

/-- Builds every output of the session. -/
def buildOutputs (ev : Evaluation) : Plan (List BuiltOutput) :=
  if ev.model.outputTargets.isEmpty then Plan.stop .noOutputs
  else ev.buildEach ev.model.outputTargets

end Evaluation

/-! ## Sessions in a workshop -/

/-- Where the answers of the backend are cached. -/
inductive CacheScope where
  /-- In a cache of each session. -/
  | session
  /-- In one cache of all sessions. -/
  | shared
  /-- Nowhere. -/
  | disabled
deriving DecidableEq, Repr

/-- What a session remembers: its names, the states of its features, and its own cache. -/
structure Session where
  model : Model
  features : Table Origin FeatureState
  cache : ResultCache

def Session.empty : Session := ⟨.empty, [], .empty⟩

/-- Sessions that share a backend and a registry, and a cache if so configured. -/
structure Workshop where
  registry : Registry
  backend : Backend
  scope : CacheScope
  sessions : Table Nat Session
  sharedCache : ResultCache
  /-- The requests that the backend was given, in order, each with the session and the
  construction that needed it. -/
  requests : List (Nat × Origin × BuildRequest)
  /-- The descriptions of which identities were computed, the latest first. -/
  described : List Description

namespace Workshop

/-- A workshop without sessions. -/
def create (registry : Registry) (backend : Backend) (scope : CacheScope) : Workshop :=
  ⟨registry, backend, scope, [], .empty, [], []⟩

/-- A session; it is empty before its first use. -/
def session (shop : Workshop) (id : Nat) : Session := (shop.sessions.get? id).getD .empty

def setSession (shop : Workshop) (id : Nat) (session : Session) : Workshop :=
  { shop with sessions := shop.sessions.insert id session }

/-- Whether answers of the backend are cached. -/
def caching (shop : Workshop) : Bool := shop.scope ≠ .disabled

/-- The cache that a session uses. Without caching it only counts. -/
def cacheOf (shop : Workshop) (id : Nat) : ResultCache :=
  if shop.scope = .shared then shop.sharedCache else (shop.session id).cache

/-- Replaces the cache that a session uses. -/
def setCache (shop : Workshop) (id : Nat) (cache : ResultCache) : Workshop :=
  if shop.scope = .shared then { shop with sharedCache := cache }
  else shop.setSession id { shop.session id with cache := cache }

/-- Forgets all answers and counts of the cache that a session uses. -/
def clearCache (shop : Workshop) (id : Nat) : Workshop := shop.setCache id .empty

/-- What the expressions of a session are evaluated with. -/
def evaluation (shop : Workshop) (id : Nat) : Evaluation :=
  ⟨(shop.session id).model, shop.backend, shop.caching⟩

/-- What building starts from in a session. -/
def state (shop : Workshop) (id : Nat) : BuildState :=
  ⟨(shop.session id).features, shop.cacheOf id, shop.requests.map (·.2), shop.described⟩

/-- Takes over what building has remembered in a session. -/
def setState (shop : Workshop) (id : Nat) (state : BuildState) : Workshop :=
  let fresh := state.requests.drop shop.requests.length
  { (shop.setSession id { shop.session id with features := state.features }).setCache id
      state.cache with
    requests := shop.requests ++ fresh.map fun request => (id, request)
    described := state.described }

/-- Asks a question in a session. `extra` counts the constructions in it that the model does
not hold. -/
def ask {α : Type} (shop : Workshop) (id extra : Nat) (question : Evaluation → Plan α) :
    Except Halt α × Workshop :=
  let ev := shop.evaluation id
  let (outcome, after) := (question ev).run (ev.answers extra) (shop.state id)
  (outcome, shop.setState id after)

/-- Replaces the symbol table of a session. -/
def setModel (shop : Workshop) (id : Nat) (model : Model) : Workshop :=
  shop.setSession id { shop.session id with model := model }

/-- Takes over a loaded model; an error leaves everything as it was. -/
def adopt (shop : Workshop) (id : Nat) :
    Except CompileError Model → Except CompileError Unit × Workshop
  | .ok model => (.ok (), shop.setModel id model)
  | .error error => (.error error, shop)

/-- Loads a script into a session. -/
def loadScript (shop : Workshop) (id : Nat) (source : String) :
    Except CompileError Unit × Workshop :=
  shop.adopt id ((shop.session id).model.readScript shop.registry source)

/-- Loads the modules that an entry module needs from a library; gives also the paths that
the library was asked for. -/
def loadFrom (shop : Workshop) (id : Nat) (entry : String) (library : Library) :
    (Except CompileError Unit × List String) × Workshop :=
  let (loaded, asked) := (shop.session id).model.readProject shop.registry library entry
  let (outcome, shop) := shop.adopt id loaded
  ((outcome, asked), shop)

/-- Loads a project from the given module texts. -/
def loadProject (shop : Workshop) (id : Nat) (entry : String)
    (sources : List (String × String)) : Except CompileError Unit × Workshop :=
  match Library.ofSources entry sources with
  | .ok library =>
    let ((outcome, _), shop) := shop.loadFrom id entry library
    (outcome, shop)
  | .error error => (.error error, shop)

end Workshop

/-! ## Single scripts -/

/-- Why a single script has no outputs. -/
inductive ScriptError where
  | compile (error : CompileError)
  | build (halt : Halt)

/-- Loads a script into a fresh session and builds all its outputs. -/
def evaluateScript (source : String) (backend : Backend) :
    Except ScriptError (List BuiltOutput) :=
  match (Workshop.create Catalog.registry backend .session).loadScript 0 source with
  | (.error error, _) => .error (.compile error)
  | (.ok (), shop) =>
    match (shop.ask 0 0 fun ev => ev.buildOutputs).1 with
    | .ok outputs => .ok outputs
    | .error halt => .error (.build halt)

end PartScript
