/-
  Sessions in a workshop. A question or a load in one session leaves the names and the
  features of the others as they are; what a question remembers is where the next one starts.
-/
import PartScript.Proofs.Loading
import PartScript.Session

namespace PartScript

/-! ## Loads -/

/-- What a session can load: a script, a project from module texts, or an entry module from a
library. -/
inductive Load where
  | script (source : String)
  | project (entry : String) (sources : List (String × String))
  | modules (entry : String) (library : Library)

/-- Loads into a session. -/
def Workshop.load (shop : Workshop) (id : Nat) : Load → Except CompileError Unit × Workshop
  | .script source => shop.loadScript id source
  | .project entry sources => shop.loadProject id entry sources
  | .modules entry library =>
    let ((outcome, _), shop) := shop.loadFrom id entry library
    (outcome, shop)

/-- The model that a load gives. -/
def Model.loaded (M : Model) (registry : Registry) : Load → Except CompileError Model
  | .script source => M.readScript registry source
  | .project entry sources => do
    let library ← Library.ofSources entry sources
    (M.readProject registry library entry).1
  | .modules entry library => (M.readProject registry library entry).1

theorem Model.Proper.loaded {registry : Registry} {M M' : Model} {made : List Feature}
    (h : M.Proper registry made 0) {what : Load} (hM' : M.loaded registry what = .ok M') :
    M'.Proper registry made 0 ∧ M'.Continues M := by
  cases what with
  | script source => exact h.readScript hM'
  | project entry sources =>
    obtain ⟨library, -, hM'⟩ := ok_of_bind hM'
    exact h.readProject hM'
  | modules entry library => exact h.readProject hM'

namespace Workshop

variable (shop : Workshop) (id other : Nat)

/-- A load takes over the model that it gives, or leaves everything as it was. -/
theorem load_eq (what : Load) :
    shop.load id what = shop.adopt id ((shop.session id).model.loaded shop.registry what) := by
  cases what with
  | script source => rfl
  | project entry sources =>
    simp only [load, loadProject, Model.loaded]
    cases Library.ofSources entry sources <;> rfl
  | modules entry library => rfl

/-- Whoever shares it, a cache is empty at first. -/
theorem cacheOf_create (registry : Registry) (backend : Backend) (scope : CacheScope) (id : Nat) :
    (create registry backend scope).cacheOf id = .empty := by
  unfold cacheOf
  split <;> rfl

/-! ## What operations leave as it was -/

theorem session_setSession (session : Session) :
    (shop.setSession id session).session other =
      if id = other then session else shop.session other := by
  unfold Workshop.session setSession
  rw [Table.get?_insert]
  split <;> rfl

@[simp] theorem registry_setState (state : BuildState) :
    (shop.setState id state).registry = shop.registry := by
  unfold setState setCache
  split <;> rfl

@[simp] theorem backend_setState (state : BuildState) :
    (shop.setState id state).backend = shop.backend := by
  unfold setState setCache
  split <;> rfl

@[simp] theorem scope_setState (state : BuildState) :
    (shop.setState id state).scope = shop.scope := by
  unfold setState setCache
  split <;> rfl

@[simp] theorem described_setState (state : BuildState) :
    (shop.setState id state).described = state.described := rfl

theorem requests_setState (state : BuildState) :
    (shop.setState id state).requests =
      shop.requests ++ (state.requests.drop shop.requests.length).map fun q => (id, q) := rfl

theorem session_setCache (cache : ResultCache) :
    ((shop.setCache id cache).session other).model = (shop.session other).model ∧
      ((shop.setCache id cache).session other).features = (shop.session other).features := by
  unfold setCache
  split
  · exact ⟨rfl, rfl⟩
  · rw [session_setSession]
    split
    · next h =>
      subst h
      exact ⟨rfl, rfl⟩
    · exact ⟨rfl, rfl⟩

/-- A cache is replaced without leaving a trace elsewhere. -/
theorem setup_setCache (cache : ResultCache) :
    (shop.setCache id cache).backend = shop.backend ∧
      (shop.setCache id cache).scope = shop.scope ∧
      (shop.setCache id cache).requests = shop.requests ∧
      (shop.setCache id cache).described = shop.described := by
  unfold setCache
  split <;> exact ⟨rfl, rfl, rfl, rfl⟩

theorem cacheOf_setCache (cache : ResultCache) : (shop.setCache id cache).cacheOf id = cache := by
  unfold setCache
  split
  · next h => exact if_pos h
  · next h =>
    refine (if_neg h).trans ?_
    rw [session_setSession, if_pos rfl]

/-- A session uses the cache that is replaced, or its cache stays as it was. -/
theorem cacheOf_setCache_or (cache : ResultCache) :
    (shop.setCache id cache).cacheOf other = cache ∨
      (shop.setCache id cache).cacheOf other = shop.cacheOf other := by
  by_cases hscope : shop.scope = .shared
  · left
    unfold setCache
    rw [if_pos hscope]
    exact if_pos hscope
  · have hown : (shop.setCache id cache).cacheOf other =
        ((shop.setCache id cache).session other).cache :=
      if_neg (by rwa [(shop.setup_setCache id cache).2.1])
    have hsession : shop.setCache id cache =
        shop.setSession id { shop.session id with cache := cache } := if_neg hscope
    rw [hown, hsession, session_setSession]
    split
    · exact .inl rfl
    · exact .inr (if_neg hscope).symm

/-- Another session uses the cache of a question, or its own as it was. -/
theorem cacheOf_setState_or (state : BuildState) :
    (shop.setState id state).cacheOf other = state.cache ∨
      (shop.setState id state).cacheOf other = shop.cacheOf other := by
  have hsession : (shop.setSession id { shop.session id with features := state.features }).cacheOf
      other = shop.cacheOf other := by
    have hown : ((shop.setSession id { shop.session id with features := state.features }).session
        other).cache = (shop.session other).cache := by
      rw [session_setSession]
      split
      · next h => rw [h]
      · rfl
    unfold cacheOf
    rw [hown]
    rfl
  rcases cacheOf_setCache_or
    (shop.setSession id { shop.session id with features := state.features }) id other state.cache
    with h | h
  · exact .inl h
  · exact .inr (h.trans hsession)

/-- Where sessions have caches of their own, those of the others stay as they were. -/
theorem cacheOf_setState_ne (hscope : shop.scope ≠ .shared) (hne : id ≠ other)
    (state : BuildState) : (shop.setState id state).cacheOf other = shop.cacheOf other := by
  have hsession : (shop.setState id state).session other =
      ((shop.setSession id { shop.session id with features := state.features }).setCache id
        state.cache).session other := rfl
  have hunshared : (shop.setSession id { shop.session id with
      features := state.features }).scope ≠ .shared := hscope
  unfold cacheOf
  rw [scope_setState, if_neg hscope, if_neg hscope, hsession, setCache, if_neg hunshared,
    session_setSession, if_neg hne, session_setSession, if_neg hne]

@[simp] theorem model_setState (state : BuildState) :
    ((shop.setState id state).session other).model = (shop.session other).model := by
  have hcache := session_setCache
    (shop.setSession id { shop.session id with features := state.features }) id other state.cache
  refine hcache.1.trans ?_
  rw [session_setSession]
  split
  · next h => rw [h]
  · rfl

theorem features_setState (state : BuildState) :
    ((shop.setState id state).session other).features =
      if id = other then state.features else (shop.session other).features := by
  have hcache := session_setCache
    (shop.setSession id { shop.session id with features := state.features }) id other state.cache
  refine hcache.2.trans ?_
  rw [session_setSession]
  split <;> rfl

/-- The requests of a question are those of its session. -/
theorem requests_append {shop : Workshop} {id : Nat} {state : BuildState}
    {fresh : List (Origin × BuildRequest)} (h : state.requests = shop.requests.map (·.2) ++ fresh) :
    (shop.setState id state).requests = shop.requests ++ fresh.map fun q => (id, q) := by
  have hlen : shop.requests.length = (shop.requests.map (·.2)).length := by
    rw [List.length_map]
  rw [requests_setState, h, hlen, List.drop_left]

/-- All requests, without the sessions that needed them, are those after the question. -/
theorem requests_map_setState {state : BuildState}
    (h : shop.requests.map (·.2) <+: state.requests) :
    (shop.setState id state).requests.map (·.2) = state.requests := by
  obtain ⟨fresh, hfresh⟩ := h
  rw [requests_append hfresh.symm, List.map_append, List.map_map, ← hfresh]
  exact congrArg _ (List.map_id _)

/-- A question starts where the one before it has ended. -/
theorem state_setState {state : BuildState} (h : shop.requests.map (·.2) <+: state.requests) :
    (shop.setState id state).state id = state := by
  have hcache : (shop.setState id state).cacheOf id = state.cache :=
    cacheOf_setCache (shop.setSession id { shop.session id with features := state.features }) id
      state.cache
  unfold Workshop.state
  rw [features_setState, if_pos rfl, hcache, requests_map_setState shop id h]
  rfl

@[simp] theorem evaluation_setState (state : BuildState) :
    (shop.setState id state).evaluation other = shop.evaluation other := by
  unfold evaluation caching
  rw [model_setState, backend_setState, scope_setState]

theorem session_setModel (M : Model) :
    (shop.setModel id M).session other =
      if id = other then { shop.session id with model := M } else shop.session other :=
  session_setSession shop id other _

@[simp] theorem state_setModel (M : Model) : (shop.setModel id M).state other = shop.state other := by
  unfold Workshop.state cacheOf
  rw [session_setModel]
  split
  · next h =>
    subst h
    rfl
  · rfl

end Workshop

end PartScript
