/-
  The life of a construction between queries. Nothing is under way, no failure is remembered
  that more names could mend, what has a result depends only on constructions that have an
  identity, and nothing that is remembered is ever taken back.
-/
import PartScript.Catalog
import PartScript.Build.Symbolic
import PartScript.Proofs.Invariants

namespace PartScript

open Relation

/-! ## Failures that are remembered -/

/-- No failure is remembered that could go away when more names are bound. -/
def BuildState.Definite (s : BuildState) : Prop :=
  ∀ f e, (s.feature f).progress = .failed e → e.isDeferred = false

namespace Evaluation

variable {ev : Evaluation} {fs : List Feature} {s s' : BuildState}

/-- No progress has changed. -/
theorem definite_congr (h : s.Definite)
    (hprogress : ∀ f, (s'.feature f).progress = (s.feature f).progress) : s'.Definite := by
  intro f e he
  rw [hprogress] at he
  exact h f e he

theorem definite_setProgress (h : s.Definite) {f : Feature} {progress : Progress}
    (hprogress : ∀ e, progress = .failed e → e.isDeferred = false) :
    (s.setProgress f progress).Definite := by
  intro g e he
  rw [BuildState.progress_setProgress] at he
  split at he
  · exact hprogress e he
  · exact h g e he

theorem Change.definite (hchange : ev.Change fs s s') (h : s.Definite) : s'.Definite := by
  cases hchange with
  | describe _ => exact h
  | hit => exact h
  | missed _ => exact definite_congr h fun g => by rw [BuildState.feature_missed]
  | hashing _ _ => exact definite_congr h fun g => BuildState.progress_setHashing _ _ g _
  | identify _ _ _ => exact definite_congr h fun g => BuildState.progress_identified _ _ g _
  | begin _ => exact definite_setProgress h fun e he => by cases he
  | settle _ _ => exact definite_setProgress h fun _ he => (progressAfter_failed he).2
  | invoke _ _ _ _ _ => exact definite_setProgress h fun _ he => (progressAfter_failed he).2

theorem Changes.definite (hchanges : ev.Changes fs s s') (h : s.Definite) : s'.Definite := by
  induction hchanges with
  | refl => exact h
  | tail _ hchange ih => exact hchange.definite ih

/-- What has a result has an identity, and so has everything that it depends on. -/
theorem Recollects.dependencies (h : ev.Recollects fs s) (hfs : Closed ev.model fs)
    {f g : Feature} (hf : f ∈ fs) (hhash : (s.feature f).hash? ≠ none)
    (hdepends : ReflTransGen ev.model.DependsOn f g) :
    g ∈ fs ∧ (s.feature g).hash? ≠ none := by
  induction hdepends with
  | refl => exact ⟨hf, hhash⟩
  | tail _ hlast ih =>
    obtain ⟨hk, hkhash⟩ := ih
    obtain ⟨hash, hhash⟩ := Option.ne_none_iff_exists'.mp hkhash
    obtain ⟨args, hargs, -⟩ := h.identified _ hk hash hhash
    exact depends_identified hfs h hk hargs hlast

end Evaluation

/-! ## Stages -/

theorem exists_ok {ε α : Type} {x : Except ε α} (h : x.isOk = true) : ∃ a, x = .ok a := by
  cases x with
  | error e => cases h
  | ok a => exact ⟨a, rfl⟩

namespace Progress

/-- How far a build has come, without what it came to. -/
inductive Stage where
  | unbuilt
  | building
  | built
  | failed
deriving DecidableEq, Repr

def stage : Progress → Stage
  | unbuilt => .unbuilt
  | building => .building
  | built _ => .built
  | failed _ => .failed

theorem stage_unbuilt {progress : Progress} (h : progress.stage = .unbuilt) :
    progress = .unbuilt := by
  cases progress with
  | unbuilt => rfl
  | _ => cases h

theorem stage_built {progress : Progress} (h : progress.stage = .built) :
    ∃ result, progress = .built result := by
  cases progress with
  | built result => exact ⟨result, rfl⟩
  | _ => cases h

theorem stage_failed {progress : Progress} (h : progress.stage = .failed) :
    ∃ e, progress = .failed e := by
  cases progress with
  | failed e => exact ⟨e, rfl⟩
  | _ => cases h

end Progress

namespace Workbench

/-! ## Steps -/

variable {registries : Nat → Registry} {b b' : Workbench}

/-- From one workbench to another a session has only stood by: it was not asked anything, and it
finds its cache as it was, empty, or as another session left it with which it shares the cache. -/
structure Bystander (b b' : Workbench) (id : Nat) : Prop extends Unasked b b' id where
  requests : (b.shop.state id).requests <+: (b'.shop.state id).requests
  cache : (b'.shop.state id).cache = (b.shop.state id).cache ∨
    (b'.shop.state id).cache = .empty ∨
    ∃ asked q, b.shop.scope = .shared ∧ q.constructions ⊆ b.constructions asked ∧
      b' = (b.ask asked q).2 ∧ (b'.shop.state id).cache = (b'.shop.state asked).cache

theorem bystander_ask (b : Workbench) {asked id : Nat} (hne : asked ≠ id) {q : Query}
    (hq : q.constructions ⊆ b.constructions asked) : Bystander b (b.ask asked q).2 id where
  toUnasked := b.unasked_ask hne q
  requests := by
    have hadvances := (b.outcome_advances asked q).requests
    rw [show ((b.ask asked q).2.shop.state id).requests = (b.outcome asked q).2.requests from
      Workshop.requests_map_setState _ _ hadvances]
    exact hadvances
  cache := by
    by_cases hscope : b.shop.scope = .shared
    · rcases b.shop.cacheOf_setState_or asked id (b.outcome asked q).2 with heq | heq
      · exact .inr (.inr ⟨asked, q, hscope, hq, rfl, by rw [state_ask]; exact heq⟩)
      · exact .inl heq
    · exact .inl (b.shop.cacheOf_setState_ne asked id hscope hne _)

theorem bystander_clear (b : Workbench) (cleared id : Nat) : Bystander b (b.clear cleared) id where
  toUnasked := b.unasked_clear cleared id
  requests := by
    have hsame : ((b.clear cleared).shop.state id).requests = (b.shop.state id).requests :=
      congrArg (List.map Prod.snd) (b.shop.setup_setCache cleared .empty).2.2.1
    exact hsame.symm ▸ List.prefix_refl _
  cache := (b.shop.cacheOf_setCache_or cleared id .empty).elim (fun h => .inr (.inl h)) .inl

/-- In the view of one session, a step asks it or finds it standing by. -/
theorem Step.views (hstep : Step registries b b') (h : b.Kept registries) (id : Nat) :
    (∃ q, q.constructions ⊆ b.constructions id ∧ b' = (b.ask id q).2) ∨ Bystander b b' id := by
  cases hstep with
  | works hworks =>
    obtain ⟨-, ⟨hunasked, hrequests, -, hcache⟩ | ⟨asked, q, hq, rfl⟩⟩ := hworks.cases h.sessions
    · have hsame : (b'.shop.state id).requests = (b.shop.state id).requests :=
        congrArg (List.map Prod.snd) hrequests
      exact .inr ⟨hunasked id, hsame.symm ▸ List.prefix_refl _, .inl (hcache id)⟩
    · by_cases hne : asked = id
      · exact .inl (hne ▸ ⟨q, hq, rfl⟩)
      · exact .inr (b.bystander_ask hne hq)
  | clear cleared => exact .inr (b.bystander_clear cleared id)

theorem Step.constructions (hstep : Step registries b b') (h : b.Kept registries) (id : Nat) :
    b.constructions id ⊆ b'.constructions id := by
  rcases hstep.views h id with ⟨q, -, rfl⟩ | hstands
  · rw [constructions_ask]
    exact List.Subset.refl _
  · exact hstands.constructions

/-- No step takes back what is remembered of a construction. -/
theorem Step.advances (hstep : Step registries b b') (h : b.Kept registries) (id : Nat)
    (f : Feature) : ((b.shop.state id).feature f).Advances ((b'.shop.state id).feature f) := by
  rcases hstep.views h id with ⟨q, -, rfl⟩ | hstands
  · rw [state_ask]
    exact (b.outcome_advances id q).feature f
  · rw [hstands.feature]
    exact .refl _

theorem Step.definite (hstep : Step registries b b') (h : b.Kept registries) {id : Nat}
    (hid : (b.shop.state id).Definite) : (b'.shop.state id).Definite := by
  rcases hstep.views h id with ⟨q, hq, rfl⟩ | hstands
  · have hkeeps := h.sessions id
    rw [state_ask]
    exact (hkeeps.changes_ask hq hkeeps.closed (List.Subset.refl _)).definite hid
  · exact Evaluation.definite_congr hid fun f => by rw [hstands.feature]

/-- No run takes back what is remembered of a construction. -/
theorem Kept.advances (h : b.Kept registries) (hrun : ReflTransGen (Step registries) b b')
    (id : Nat) (f : Feature) :
    ((b.shop.state id).feature f).Advances ((b'.shop.state id).feature f) := by
  suffices b'.Kept registries ∧
      ((b.shop.state id).feature f).Advances ((b'.shop.state id).feature f) from this.2
  induction hrun with
  | refl => exact ⟨h, .refl _⟩
  | tail _ hstep ih => exact ⟨hstep.kept ih.1, ih.2.trans (hstep.advances ih.1 id f)⟩

theorem Reachable.definite {backend : Backend} {scope : CacheScope}
    (h : Reachable registries backend scope b) (id : Nat) : (b.shop.state id).Definite := by
  induction h with
  | refl => exact nofun
  | tail hreachable hstep ih => exact hstep.definite (Reachable.kept hreachable) ih

/-! ## The life of a construction -/

/-- Between the steps of a workbench nothing is being identified or built, and no failure is
remembered whose root cause is a name that is not bound. A construction with a result has an
identity, and so has every construction that its arguments lead to. Whatever the sessions do
next, a result, a failure and an identity stay the very same. -/
theorem lifecycle {backend : Backend} {scope : CacheScope}
    (hb : Reachable registries backend scope b) (id : Nat) :
    (∀ f, ((b.shop.state id).feature f).hashing = false ∧
      ((b.shop.state id).feature f).progress ≠ .building ∧
      ∀ e, ((b.shop.state id).feature f).progress = .failed e →
        ∀ kind name, e.rootCause ≠ .unresolvedReference kind name) ∧
    (∀ f ∈ b.constructions id, ∀ result,
      ((b.shop.state id).feature f).progress = .built result →
        ∀ g, ReflTransGen (b.shop.session id).model.DependsOn f g →
          ((b.shop.state id).feature g).hash? ≠ none) ∧
    ∀ b', ReflTransGen (Step registries) b b' → ∀ f,
      (∀ result, ((b.shop.state id).feature f).progress = .built result →
        ((b'.shop.state id).feature f).progress = .built result) ∧
      (∀ e, ((b.shop.state id).feature f).progress = .failed e →
        ((b'.shop.state id).feature f).progress = .failed e) ∧
      ∀ hash, ((b.shop.state id).feature f).hash? = some hash →
        ((b'.shop.state id).feature f).hash? = some hash := by
  have hkeeps := hb.kept.sessions id
  refine ⟨fun f => ⟨(hkeeps.resting f).1, (hkeeps.resting f).2, fun e he kind name hcause => ?_⟩,
    fun f hf result hbuilt g hdepends => ?_, fun b' hrun f => ?_⟩
  · have hdefinite := hb.definite id f e he
    rw [BuildError.isDeferred, hcause] at hdefinite
    cases hdefinite
  · have hrecollects := hkeeps.recollects _ hkeeps.closed (List.Subset.refl _)
    have hhash := hrecollects.built f hf result hbuilt
    exact (hrecollects.dependencies hkeeps.closed hf hhash hdepends).2
  · have hadvances := hb.kept.advances hrun id f
    exact ⟨fun _ => hadvances.built, fun _ => hadvances.failed, fun _ => hadvances.hash?⟩

/-- How far the builds in a session have come, by the labels of the constructions. -/
def stages (b : Workbench) (id : Nat) : List (String × Progress.Stage) :=
  (b.constructions id).map fun f => (f.label, ((b.shop.state id).feature f).progress.stage)

theorem exists_of_stages (b : Workbench) (id : Nat) {label : String} {stage : Progress.Stage}
    (h : (label, stage) ∈ b.stages id) : ∃ f ∈ b.constructions id, f.label = label ∧
      ((b.shop.state id).feature f).progress.stage = stage := by
  obtain ⟨f, hf, heq⟩ := List.mem_map.mp h
  exact ⟨f, hf, Prod.mk.inj heq⟩

/-- A compound of a sphere, a compound of itself, and a compound that waits for a name. -/
def assorted : Workbench :=
  (create Catalog.registry (Symbolic.backend []) .session).load Catalog.registry 0 (.script
    "s = Sphere([0, 0, 0], 1); c = Compound(s); n = Compound(n); w = Compound(x);")

/-- All of them have been asked for. -/
def assortedAsked : Workbench :=
  (((assorted.ask 0 (.named (.build "c"))).2.ask 0 (.named (.build "n"))).2.ask 0
    (.named (.build "w"))).2

set_option maxRecDepth 100000 in
theorem lifecycle_assorted :
    assortedAsked.stages 0 = [("s", .built), ("c", .built), ("n", .failed), ("w", .unbuilt)] ∧
    (∃ f ∈ assortedAsked.constructions 0, f.label = "c" ∧
      ∀ g, ReflTransGen (assortedAsked.shop.session 0).model.DependsOn f g →
        ((assortedAsked.shop.state 0).feature g).hash? ≠ none) ∧
    ∃ f ∈ assortedAsked.constructions 0, f.label = "n" ∧ ∃ e,
      (∀ kind name, e.rootCause ≠ .unresolvedReference kind name) ∧
      (((assortedAsked.clear 0).shop.state 0).feature f).progress = .failed e := by
  have hreachable : Reachable (fun _ => Catalog.registry) (Symbolic.backend []) .session
      assortedAsked :=
    (((ReflTransGen.single (.works (.load 0 _))).tail (.works (.ask (List.nil_subset _)))).tail
      (.works (.ask (List.nil_subset _)))).tail (.works (.ask (List.nil_subset _)))
  obtain ⟨hquiet, hclosure, hlater⟩ := lifecycle hreachable 0
  have hstages : assortedAsked.stages 0 =
      [("s", .built), ("c", .built), ("n", .failed), ("w", .unbuilt)] := by
    decide +kernel
  refine ⟨hstages, ?_, ?_⟩
  · obtain ⟨f, hf, hlabel, hstage⟩ := exists_of_stages assortedAsked 0
      (show ("c", .built) ∈ _ by simp [hstages])
    obtain ⟨result, hbuilt⟩ := Progress.stage_built hstage
    exact ⟨f, hf, hlabel, hclosure f hf result hbuilt⟩
  · obtain ⟨f, hf, hlabel, hstage⟩ := exists_of_stages assortedAsked 0
      (show ("n", .failed) ∈ _ by simp [hstages])
    obtain ⟨e, hfailed⟩ := Progress.stage_failed hstage
    exact ⟨f, hf, hlabel, e, (hquiet f).2.2 e hfailed,
      (hlater _ (.single (.clear 0)) f).2.1 e hfailed⟩

end Workbench

end PartScript
