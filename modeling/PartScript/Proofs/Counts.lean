/-
  How often the backend is invoked. Sessions that share a cache invoke it at most once for
  each identity between two clears of the cache, and the counts of the cache tell how often.
  Without a cache it is invoked at most once for each construction.
-/
import PartScript.Build.Symbolic
import PartScript.Catalog
import PartScript.Proofs.Invariants
import PartScript.Proofs.Once

namespace PartScript

open Relation

namespace Workbench

variable {registries : Nat → Registry} {b b' : Workbench}

/-! ## One step -/

theorem described_works (h : Works registries b b') (hb : b.Kept registries) :
    b.shop.described ⊆ b'.shop.described := by
  obtain ⟨-, ⟨hunasked, -⟩ | ⟨id, q, -, rfl⟩⟩ := h.cases hb.sessions
  · exact (hunasked 0).described
  · exact (b.outcome_advances id q).described.subset

theorem scope_works (h : Works registries b b') (hb : b.Kept registries) :
    b'.shop.scope = b.shop.scope := by
  obtain ⟨-, ⟨hunasked, -⟩ | ⟨id, q, -, rfl⟩⟩ := h.cases hb.sessions
  · exact (hunasked 0).scope
  · exact Workshop.scope_setState _ _ _

/-- From one workbench to another the backend was invoked with the requests in `fresh`, and
each time its answer was stored in the shared cache. -/
def Stores (b : Workbench) (fresh : List (Nat × Origin × BuildRequest)) (b' : Workbench) : Prop :=
  b'.shop.requests = b.shop.requests ++ fresh ∧
    b.shop.sharedCache.Stores (fresh.map (·.2.2.hash)) b'.shop.sharedCache

theorem Stores.trans {b'' : Workbench} {fresh fresh' : List (Nat × Origin × BuildRequest)}
    (h : b.Stores fresh b') (h' : b'.Stores fresh' b'') : b.Stores (fresh ++ fresh') b'' := by
  refine ⟨?_, ?_⟩
  · rw [h'.1, h.1, List.append_assoc]
  · rw [List.map_append]
    exact h.2.trans h'.2

/-- A query stores an answer of the backend for each time that it is invoked. -/
theorem Kept.stores_ask (hb : b.Kept registries) (hshared : b.shop.scope = .shared) {id : Nat}
    {q : Query} (hq : q.constructions ⊆ b.constructions id)
    (hlegible : Description.Legible (b.ask id q).2.shop.described) :
    ∃ fresh, b.Stores fresh (b.ask id q).2 := by
  have hid := hb.sessions id
  have hcaching : (b.shop.evaluation id).caching = true := by
    show b.shop.caching = true
    unfold Workshop.caching
    rw [hshared]
    rfl
  have hcache : ∀ shop : Workshop, shop.scope = .shared → shop.cacheOf id = shop.sharedCache :=
    fun _ h => if_pos h
  obtain ⟨hrecollects, -⟩ := hid.recollects_ask hq hid.closed (List.Subset.refl _)
  obtain ⟨user, hwalks⟩ := q.plan_walks (b.shop.evaluation id)
  have hadds := Evaluation.adds_at hid.closed
    (Description.not_uses_self hlegible hrecollects.inOrder) hcaching
  obtain ⟨fresh, hrequests, hstores, -⟩ := Evaluation.run_adds (P := fun _ => True) hid.closed
    (hadds _) hwalks (Query.items_within (List.subset_append_left _ _) hq) (by simp)
    (hid.recollects _ hid.closed (List.Subset.refl _)) (fun _ _ _ _ _ _ _ _ => True.intro) rfl
    (List.Subset.refl _)
  refine ⟨fresh.map fun p => (id, p), Workshop.requests_append hrequests, ?_⟩
  have hafter : (b.ask id q).2.shop.sharedCache = (b.outcome id q).2.cache := by
    rw [← hcache (b.ask id q).2.shop ((Workshop.scope_setState _ _ _).trans hshared), ← state_ask]
    rfl
  have hbefore : (b.shop.state id).cache = b.shop.sharedCache := hcache b.shop hshared
  rw [List.map_map, hafter, ← hbefore]
  exact hstores

theorem Works.stores (h : Works registries b b') (hb : b.Kept registries)
    (hshared : b.shop.scope = .shared) (hlegible : Description.Legible b'.shop.described) :
    ∃ fresh, b.Stores fresh b' := by
  obtain ⟨-, ⟨-, hrequests, hcache, -⟩ | ⟨id, q, hq, rfl⟩⟩ := h.cases hb.sessions
  · refine ⟨[], by rw [hrequests, List.append_nil], ?_⟩
    rw [hcache]
    exact .refl _
  · exact hb.stores_ask hshared hq hlegible

/-! ## Runs -/

/-- What sessions keep while they work. -/
theorem Kept.run (hb : b.Kept registries) (hrun : ReflTransGen (Works registries) b b') :
    b'.Kept registries ∧ b'.shop.scope = b.shop.scope := by
  induction hrun with
  | refl => exact ⟨hb, rfl⟩
  | tail _ hworks ih => exact ⟨(Step.works hworks).kept ih.1, (scope_works hworks ih.1).trans ih.2⟩

theorem Kept.stores_run (hb : b.Kept registries) (hshared : b.shop.scope = .shared)
    (hrun : ReflTransGen (Works registries) b b')
    (hlegible : Description.Legible b'.shop.described) : ∃ fresh, b.Stores fresh b' := by
  induction hrun with
  | refl => exact ⟨[], (List.append_nil _).symm, .refl _⟩
  | tail hrun hworks ih =>
    obtain ⟨hkept, hscope⟩ := hb.run hrun
    obtain ⟨fresh, hfresh⟩ := ih (hlegible.mono (described_works hworks hkept))
    obtain ⟨last, hlast⟩ := hworks.stores hkept (hscope.trans hshared) hlegible
    exact ⟨fresh ++ last, hfresh.trans hlast⟩

theorem Reachable.scope {backend : Backend} {scope : CacheScope}
    (h : Reachable registries backend scope b) : b.shop.scope = scope := by
  induction h with
  | refl => rfl
  | tail hreachable hstep ih =>
    cases hstep with
    | works hworks => exact (scope_works hworks (Reachable.kept hreachable)).trans ih
    | clear id => exact (Workshop.setup_setCache _ id .empty).2.1.trans ih

/-- Nothing is cached in a run without a cache. -/
theorem Reachable.not_caching {backend : Backend}
    (h : Reachable registries backend .disabled b) {id : Nat} :
    (b.shop.evaluation id).caching = false := by
  show decide (b.shop.scope ≠ .disabled) = false
  rw [Reachable.scope h]
  rfl

/-- A shared cache holds what was stored since it was cleared. -/
theorem Reachable.stored {backend : Backend} (h : Reachable registries backend .shared b)
    (hlegible : Description.Legible b.shop.described) :
    ∃ hashes, ResultCache.empty.Stores hashes b.shop.sharedCache := by
  induction h with
  | refl => exact ⟨[], .refl _⟩
  | @tail b b' hreachable hstep ih =>
    have hshared : b.shop.scope = .shared := Reachable.scope hreachable
    cases hstep with
    | works hworks =>
      have hkept := Reachable.kept hreachable
      obtain ⟨hashes, hhashes⟩ := ih (hlegible.mono (described_works hworks hkept))
      obtain ⟨fresh, -, hfresh⟩ := hworks.stores hkept hshared hlegible
      exact ⟨_, hhashes.trans hfresh⟩
    | clear id =>
      have hempty : (b.clear id).shop.sharedCache = .empty := by
        show (b.shop.setCache id .empty).sharedCache = _
        unfold Workshop.setCache
        rw [if_pos hshared]
      exact ⟨[], hempty ▸ .refl _⟩

/-! ## How often the backend is invoked -/

/-- The backend is invoked at most once for each identity between two clears of a cache that
sessions share, and in every state the cache holds one answer for each invocation, of which
there are no more than looks that found none. Wherever answers are cached, and if nowhere, it
is invoked at most once for each construction of each session. -/
theorem invoked_once (registries : Nat → Registry) (backend : Backend) :
    (∀ b b' : Workbench, Reachable registries backend .shared b →
      ReflTransGen (Works registries) b b' → Description.Legible b'.shop.described →
      ∃ fresh, b'.shop.requests = b.shop.requests ++ fresh ∧
        (fresh.map (·.2.2.hash)).Nodup ∧
        b'.shop.sharedCache.size = b'.shop.sharedCache.builds ∧
        b'.shop.sharedCache.builds ≤ b'.shop.sharedCache.misses) ∧
    ∀ (scope : CacheScope) (b : Workbench), Reachable registries backend scope b →
      (b.shop.requests.map fun r => (r.1, r.2.1)).Nodup ∧
      ∀ r ∈ b.shop.requests, ∃ f ∈ b.constructions r.1, f.origin = r.2.1 ∧
        ∀ g ∈ b.constructions r.1, g.origin = r.2.1 → g = f := by
  refine ⟨fun b b' hb hrun hlegible => ?_, fun scope b hb => ⟨hb.kept.distinct, fun r hr => ?_⟩⟩
  · have hreachable : Reachable registries backend .shared b' :=
      hb.trans (ReflTransGen.mono (fun _ _ => Step.works) _ _ hrun)
    obtain ⟨fresh, hrequests, hfresh⟩ := hb.kept.stores_run hb.scope hrun hlegible
    obtain ⟨hashes, hstored⟩ := hreachable.stored hlegible
    have hkeys : b'.shop.sharedCache.entries.keys = hashes := hstored.keys
    have hdistinct := hstored.distinct List.nodup_nil
    refine ⟨fresh, hrequests, ?_, ?_, ?_⟩
    · rw [hfresh.keys] at hdistinct
      exact hdistinct.of_append_right
    · have hsize : b'.shop.sharedCache.entries.keys.length = b'.shop.sharedCache.size :=
        List.length_map _
      rw [← hsize, hkeys, hstored.builds]
      exact (Nat.zero_add _).symm
    · rw [hstored.builds]
      exact hstored.misses
  · obtain ⟨f, hf, horigin, -⟩ := hb.kept.requested r hr
    have hclosed := (hb.kept.sessions r.1).closed
    exact ⟨f, hf, horigin, fun g hg heq => hclosed.unique g hg f hf (heq.trans horigin.symm)⟩

/-- A sphere that is made without a script. -/
def sphere : Feature :=
  .construct "Sphere" [⟨"center", .vector, .required⟩, ⟨"D", .scalar, .required⟩]
    [.vector (.literal (.literal 0) (.literal 0) (.literal 0)), .scalar (.literal 1)] (.made 0) none

/-- Two sessions with a sphere each. -/
def spheres : Workbench :=
  ((create Catalog.registry (Symbolic.backend []) .shared).make 0 [sphere]).make 1 [sphere]

/-- Both spheres have been built. -/
def spheresBuilt : Workbench := ((spheres.ask 0 (.result sphere)).2.ask 1 (.result sphere)).2

set_option maxRecDepth 100000 in
theorem invoked_once_spheres : spheresBuilt.shop.sharedCache.builds = 1 ∧
    spheresBuilt.shop.sharedCache.size = 1 ∧
    (spheresBuilt.shop.requests.map (·.2.2.hash)).Nodup := by
  have hmakes : ∀ {b : Workbench} {id : Nat}, (b.shop.session id).model.sources = 0 →
      Works (fun _ => Catalog.registry) b (b.make id [sphere]) := fun hsources =>
    .make (by simpa [sphere, Feature.origin, Origin.number] using hsources.symm) (by decide)
      (List.forall_mem_singleton.mpr (List.nil_subset _))
  have hreachable : Reachable (fun _ => Catalog.registry) (Symbolic.backend []) .shared spheres :=
    .tail (.single (.works (hmakes rfl))) (.works (hmakes rfl))
  have hown : ∀ {b : Workbench} {id : Nat}, sphere ∈ b.made id →
      (Query.result sphere).constructions ⊆ b.constructions id := fun hmade =>
    List.cons_subset.mpr ⟨List.mem_append_right _ hmade, List.nil_subset _⟩
  have hrun : ReflTransGen (Works fun _ => Catalog.registry) spheres spheresBuilt :=
    .tail (.single (.ask (hown List.mem_cons_self))) (.ask (hown List.mem_cons_self))
  have hsame : ∀ d ∈ spheresBuilt.shop.described, d.Fits ∧
      d.stream = (Description.feature "Sphere" [.vector ⟨0, 0, 0⟩, .scalar 1]).stream := by
    decide +kernel
  have hlegible : Description.Legible spheresBuilt.shop.described :=
    ⟨fun d hd => (hsame d hd).1, fun d hd d' hd' _ => (hsame d hd).2.trans (hsame d' hd').2.symm⟩
  obtain ⟨fresh, hrequests, hdistinct, hsize, -⟩ :=
    (invoked_once _ _).1 spheres spheresBuilt hreachable hrun hlegible
  have hbuilds : spheresBuilt.shop.sharedCache.builds = 1 := by decide +kernel
  refine ⟨hbuilds, hsize.trans hbuilds, ?_⟩
  rw [hrequests]
  exact hdistinct

end Workbench

end PartScript
