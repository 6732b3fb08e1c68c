/-
  What holds of every session of every workbench that can be reached: its model is proper, it
  rests between queries, and what it remembers is what its model says. What one session does
  leaves the others as they are, but for the records that all of them share.
-/
import PartScript.Proofs.Failures
import PartScript.Proofs.Invocations
import PartScript.Proofs.Workbench

namespace PartScript

open Relation

namespace Evaluation

variable {ev : Evaluation} {fs : List Feature} {s s' : BuildState}

/-- More has been described elsewhere. -/
theorem Recollects.later (h : ev.Recollects fs s) (hfeatures : s'.features = s.features)
    (hdescribed : s.described ⊆ s'.described) (horder : Description.InOrder s'.described) :
    ev.Recollects fs s' := by
  have hfeature : ∀ f, s'.feature f = s.feature f := fun f => by
    rw [BuildState.feature, hfeatures, BuildState.feature]
  have hrem : s'.Remembers s := by
    refine ⟨fun hh => ?_, fun hr => ?_, hdescribed⟩
    · rwa [hfeature]
    · rwa [hfeature]
  refine ⟨fun f hf h' hh => ?_, fun f hf r hr => ?_, horder⟩
  · rw [hfeature] at hh
    obtain ⟨args, hargs, hd, heq⟩ := h.identified f hf h' hh
    exact ⟨args, hargs.mono hrem, hdescribed hd, heq⟩
  · rw [hfeature] at hr ⊢
    exact h.built f hf r hr

theorem Founded.changes (h : ev.Founded fs s) (hchanges : ev.Changes fs s s') :
    ev.Founded fs s' := by
  induction hchanges with
  | refl => exact h
  | tail _ hchange ih => exact ih.change hchange

end Evaluation

theorem Closed.of_continues {M M' : Model} {fs : List Feature} (h : Closed M' fs)
    (hM : M'.Continues M) : Closed M fs :=
  ⟨fun b hb => h.bindings b (hM.bindings.subset hb), h.arguments, h.unique⟩

namespace Workbench

/-! ## One session -/

/-- What holds of a session between queries, for every collection in which its evaluation
stays. -/
structure Keeps (registry : Registry) (b : Workbench) (id : Nat) : Prop where
  proper : (b.shop.session id).model.Proper registry (b.made id) 0
  resting : (b.shop.state id).Resting
  recollects : ∀ fs, Closed (b.shop.session id).model fs → b.constructions id ⊆ fs →
    (b.shop.evaluation id).Recollects fs (b.shop.state id)
  founded : ∀ fs, Closed (b.shop.session id).model fs → b.constructions id ⊆ fs →
    (b.shop.evaluation id).Founded fs (b.shop.state id)
  accounts : ∀ fs, Closed (b.shop.session id).model fs → b.constructions id ⊆ fs →
    (b.shop.evaluation id).Accounts fs (b.shop.state id)

/-- From one workbench to another a session was not asked anything. -/
structure Unasked (b b' : Workbench) (id : Nat) : Prop where
  model : (b'.shop.session id).model.Continues (b.shop.session id).model
  made : b.made id ⊆ b'.made id
  features : (b'.shop.session id).features = (b.shop.session id).features
  backend : b'.shop.backend = b.shop.backend
  scope : b'.shop.scope = b.shop.scope
  described : b.shop.described ⊆ b'.shop.described

variable {registry : Registry} {b b' : Workbench} {id : Nat}

theorem Unasked.constructions (h : Unasked b b' id) : b.constructions id ⊆ b'.constructions id := by
  intro f hf
  rcases List.mem_append.mp hf with hf | hf
  · exact List.mem_append_left _ (h.model.constructions hf)
  · exact List.mem_append_right _ (h.made hf)

theorem Unasked.evaluation (h : Unasked b b' id) : b'.shop.evaluation id =
    { b.shop.evaluation id with model := (b'.shop.session id).model } := by
  unfold Workshop.evaluation Workshop.caching
  rw [h.backend, h.scope]

theorem Unasked.feature (h : Unasked b b' id) (f : Feature) :
    (b'.shop.state id).feature f = (b.shop.state id).feature f := by
  show ((b'.shop.session id).features.get? f.origin).getD .initial = _
  rw [h.features]
  rfl

/-- What holds of a session holds as long as it is not asked. -/
theorem Keeps.unasked (h : b.Keeps registry id) (hu : Unasked b b' id)
    (hproper : (b'.shop.session id).model.Proper registry (b'.made id) 0)
    (horder : Description.InOrder b'.shop.described) : b'.Keeps registry id := by
  have hclosed : ∀ fs, Closed (b'.shop.session id).model fs →
      Closed (b.shop.session id).model fs := fun _ hfs => hfs.of_continues hu.model
  refine ⟨hproper, fun f => ?_, fun fs hfs hsub => ?_, fun fs hfs hsub => ?_,
    fun fs hfs hsub => ?_⟩
  · rw [hu.feature]
    exact h.resting f
  · rw [hu.evaluation]
    exact ((h.recollects fs (hclosed fs hfs) (List.Subset.trans hu.constructions hsub)).extends
      hu.model.toExtends).later hu.features hu.described horder
  · rw [hu.evaluation]
    exact ((h.founded fs (hclosed fs hfs) (List.Subset.trans hu.constructions hsub)).extends
      hu.model.toExtends).congr fun f => by rw [hu.feature]
  · rw [hu.evaluation]
    exact ((h.accounts fs (hclosed fs hfs) (List.Subset.trans hu.constructions hsub)).extends
      hu.model.toExtends).congr fun f e he => by rwa [hu.feature] at he

/-- All constructions of a session are a collection in which its evaluation stays. -/
theorem Keeps.closed (h : b.Keeps registry id) :
    Closed (b.shop.session id).model (b.constructions id) := h.proper.closed

theorem Keeps.inOrder (h : b.Keeps registry id) : Description.InOrder b.shop.described :=
  (h.recollects _ h.closed (List.Subset.refl _)).inOrder

/-! ## Queries -/

/-- What a query comes to, and what is remembered afterwards. -/
def outcome (b : Workbench) (id : Nat) (q : Query) : Except Halt q.Answer × BuildState :=
  (q.plan (b.shop.evaluation id)).run ((b.shop.evaluation id).answers (b.made id).length)
    (b.shop.state id)

theorem ask_eq (b : Workbench) (id : Nat) (q : Query) : b.ask id q =
    ((b.outcome id q).1, { b with shop := b.shop.setState id (b.outcome id q).2 }) := rfl

theorem outcome_advances (b : Workbench) (id : Nat) (q : Query) :
    (b.shop.state id).Advances (b.outcome id q).2 :=
  Plan.run_advances (Evaluation.answer_advances _ _) _ _

/-- What a session remembers after a query. -/
theorem state_ask (b : Workbench) (id : Nat) (q : Query) :
    (b.ask id q).2.shop.state id = (b.outcome id q).2 :=
  b.shop.state_setState id (b.outcome_advances id q).requests

theorem model_ask (b : Workbench) (id other : Nat) (q : Query) :
    ((b.ask id q).2.shop.session other).model = (b.shop.session other).model :=
  Workshop.model_setState _ _ _ _

theorem evaluation_ask (b : Workbench) (id other : Nat) (q : Query) :
    (b.ask id q).2.shop.evaluation other = b.shop.evaluation other :=
  Workshop.evaluation_setState _ _ _ _

theorem constructions_ask (b : Workbench) (id : Nat) (q : Query) (other : Nat) :
    (b.ask id q).2.constructions other = b.constructions other := by
  unfold constructions
  rw [model_ask]
  rfl

variable {q : Query}

/-- A query about the constructions of a session asks for nothing else. -/
theorem items_within_ask {fs : List Feature} (hq : q.constructions ⊆ b.constructions id)
    (hsub : b.constructions id ⊆ fs) : ItemsWithin fs (q.items (b.shop.session id).model) :=
  Query.items_within (List.Subset.trans (List.subset_append_left _ _) hsub)
    (List.Subset.trans hq hsub)

section Asking

variable (h : b.Keeps registry id) (hq : q.constructions ⊆ b.constructions id)
  {fs : List Feature} (hfs : Closed (b.shop.session id).model fs) (hsub : b.constructions id ⊆ fs)
include h hq hfs hsub

theorem Keeps.recollects_ask : (b.shop.evaluation id).Recollects fs (b.outcome id q).2 ∧
    ∀ a, (b.outcome id q).1 = .ok a →
      (q.plan (b.shop.evaluation id)).Recalls (b.shop.evaluation id) (b.outcome id q).2 a := by
  obtain ⟨user, hwalks⟩ := q.plan_walks (b.shop.evaluation id)
  have hitems := items_within_ask hq hsub
  exact Evaluation.run_recollects hfs (Evaluation.recollects_at hfs _) hwalks hitems (by simp)
    (h.recollects fs hfs hsub) rfl

theorem Keeps.turns_ask :
    (b.shop.evaluation id).Turns fs (b.shop.state id) (b.outcome id q).2 := by
  obtain ⟨user, hwalks⟩ := q.plan_walks (b.shop.evaluation id)
  have hitems := items_within_ask hq hsub
  exact Evaluation.run_turns hfs (Evaluation.turns_at hfs _) hwalks hitems (by simp)
    (h.recollects fs hfs hsub) rfl

theorem Keeps.changes_ask :
    (b.shop.evaluation id).Changes fs (b.shop.state id) (b.outcome id q).2 :=
  (h.turns_ask hq hfs hsub).changes

theorem Keeps.accounts_ask : (b.shop.evaluation id).Accounts fs (b.outcome id q).2 ∧
    ∀ e, (b.outcome id q).1 = .error (.failed e) →
      (b.shop.session id).model.Fails (q.items (b.shop.session id).model) e := by
  obtain ⟨user, hwalks⟩ := q.plan_walks (b.shop.evaluation id)
  have hitems := items_within_ask hq hsub
  exact Evaluation.run_accounts hfs (Evaluation.accounts_at hfs _) hwalks hitems
    (h.accounts fs hfs hsub) (.resting h.resting) rfl

end Asking

/-! ## One step -/

theorem Keeps.ask (h : b.Keeps registry id) (hq : q.constructions ⊆ b.constructions id) :
    (b.ask id q).2.Keeps registry id := by
  have hall : ∀ fs, (b.ask id q).2.constructions id ⊆ fs → b.constructions id ⊆ fs :=
    fun fs hsub => b.constructions_ask id q id ▸ hsub
  refine ⟨?_, ?_, fun fs hfs hsub => ?_, fun fs hfs hsub => ?_, fun fs hfs hsub => ?_⟩
  · rw [model_ask]
    exact h.proper
  · rw [state_ask]
    exact h.resting.advances (b.outcome_advances id q)
  · rw [model_ask] at hfs
    rw [evaluation_ask, state_ask]
    exact (h.recollects_ask hq hfs (hall fs hsub)).1
  · rw [model_ask] at hfs
    rw [evaluation_ask, state_ask]
    exact (h.founded fs hfs (hall fs hsub)).changes (h.changes_ask hq hfs (hall fs hsub))
  · rw [model_ask] at hfs
    rw [evaluation_ask, state_ask]
    exact (h.accounts_ask hq hfs (hall fs hsub)).1

theorem unasked_ask (b : Workbench) {id other : Nat} (hne : id ≠ other) (q : Query) :
    Unasked b (b.ask id q).2 other where
  model := by
    show ((b.shop.setState id _).session other).model.Continues _
    rw [Workshop.model_setState]
    exact .refl _
  made := List.Subset.refl _
  features := by
    show ((b.shop.setState id _).session other).features = _
    rw [Workshop.features_setState, if_neg hne]
  backend := Workshop.backend_setState _ _ _
  scope := Workshop.scope_setState _ _ _
  described := (b.outcome_advances id q).described.subset

theorem unasked_clear (b : Workbench) (id other : Nat) : Unasked b (b.clear id) other where
  model := by
    show ((b.shop.setCache id .empty).session other).model.Continues _
    rw [(Workshop.session_setCache _ _ _ _).1]
    exact .refl _
  made := List.Subset.refl _
  features := (Workshop.session_setCache _ _ _ _).2
  backend := (b.shop.setup_setCache id .empty).1
  scope := (b.shop.setup_setCache id .empty).2.1
  described := by
    show _ ⊆ (b.shop.setCache id .empty).described
    rw [(b.shop.setup_setCache id .empty).2.2.2]
    exact List.Subset.refl _

/-- A session gets another model and made constructions. -/
def rebind (b : Workbench) (registry : Registry) (id : Nat) (M : Model) (made : Nat → List Feature) :
    Workbench := ⟨{ b.shop with registry := registry }.setModel id M, made⟩

theorem session_rebind (b : Workbench) (registry : Registry) (id other : Nat) (M : Model)
    (made : Nat → List Feature) : (b.rebind registry id M made).shop.session other =
      if id = other then { b.shop.session id with model := M } else b.shop.session other :=
  Workshop.session_setModel _ _ _ _

theorem unasked_rebind (b : Workbench) {registry : Registry} {id : Nat} {M : Model}
    {made : Nat → List Feature} (hM : M.Continues (b.shop.session id).model)
    (hmade : ∀ other, b.made other ⊆ made other) (other : Nat) :
    Unasked b (b.rebind registry id M made) other where
  model := by
    rw [session_rebind]
    split
    · next h => exact h ▸ hM
    · exact .refl _
  made := hmade other
  features := by
    rw [session_rebind]
    split
    · next h => rw [h]
    · rfl
  backend := rfl
  scope := rfl
  described := List.Subset.refl _

variable {registries : Nat → Registry}

theorem keeps_rebind (h : ∀ id, b.Keeps (registries id) id) {registry : Registry} {M : Model}
    {made : Nat → List Feature} (hM : M.Continues (b.shop.session id).model)
    (hproper : M.Proper (registries id) (made id) 0) (hmore : b.made id ⊆ made id)
    (hmade : ∀ other, id ≠ other → made other = b.made other) (other : Nat) :
    (b.rebind registry id M made).Keeps (registries other) other := by
  have hall : ∀ other, b.made other ⊆ made other := by
    intro other
    by_cases hne : id = other
    · exact hne ▸ hmore
    · rw [hmade other hne]
      exact List.Subset.refl _
  refine (h other).unasked (b.unasked_rebind hM hall other) ?_ (h other).inOrder
  rw [session_rebind]
  split
  · next heq => exact heq ▸ hproper
  · next hne =>
    rw [show (b.rebind registry id M made).made other = b.made other from hmade other hne]
    exact (h other).proper

/-- A load takes over the model that it gives, or leaves all sessions as they were. -/
theorem load_eq (b : Workbench) (registry : Registry) (id : Nat) (what : Load) :
    b.load registry id what = { b with shop := { b.shop with registry := registry } } ∨
      ∃ M, (b.shop.session id).model.loaded registry what = .ok M ∧
        b.load registry id what = b.rebind registry id M b.made := by
  have hload : b.load registry id what = { b with shop := ({ b.shop with
      registry := registry }.adopt id ((b.shop.session id).model.loaded registry what)).2 } := by
    unfold load
    rw [Workshop.load_eq]
    rfl
  rw [hload]
  cases (b.shop.session id).model.loaded registry what with
  | error e => exact .inl rfl
  | ok M => exact .inr ⟨M, rfl, rfl⟩

/-- Whatever is done asks in one session, or leaves all that was asked as it was. -/
theorem Works.cases (h : Works registries b b') (hb : ∀ id, b.Keeps (registries id) id) :
    (∀ id, b'.Keeps (registries id) id) ∧
      ((∀ id, Unasked b b' id) ∧ b'.shop.requests = b.shop.requests ∧
        b'.shop.sharedCache = b.shop.sharedCache ∧
        (∀ id, (b'.shop.state id).cache = (b.shop.state id).cache) ∨
        ∃ id q, q.constructions ⊆ b.constructions id ∧ b' = (b.ask id q).2) := by
  cases h with
  | load id what =>
    rcases b.load_eq (registries id) id what with heq | ⟨M, hM, heq⟩
    · rw [heq]
      have hunasked : ∀ other, Unasked b
          { b with shop := { b.shop with registry := registries id } } other := fun other =>
        ⟨.refl _, List.Subset.refl _, rfl, rfl, rfl, List.Subset.refl _⟩
      exact ⟨fun other => (hb other).unasked (hunasked other) (hb other).proper (hb other).inOrder,
        .inl ⟨hunasked, rfl, rfl, fun _ => rfl⟩⟩
    · obtain ⟨hproper, hmore⟩ := (hb id).proper.loaded hM
      rw [heq]
      exact ⟨keeps_rebind hb hmore hproper (List.Subset.refl _) fun _ _ => rfl,
        .inl ⟨b.unasked_rebind hmore fun _ => List.Subset.refl _, rfl, rfl,
          fun _ => congrArg _ (Workshop.state_setModel _ _ _ _)⟩⟩
  | @make id fs hnumber hdistinct hargs =>
    let made : Nat → List Feature := fun other => if id = other then b.made id ++ fs else b.made other
    have hown : made id = b.made id ++ fs := if_pos rfl
    have hother : ∀ other, id ≠ other → made other = b.made other := fun _ hne => if_neg hne
    have hmore : (b.shop.session id).model.nextSource.Continues (b.shop.session id).model :=
      ⟨List.prefix_refl _, List.prefix_refl _⟩
    have hall : ∀ other, b.made other ⊆ made other := by
      intro other
      by_cases hne : id = other
      · rw [← hne, hown]
        exact List.subset_append_left _ _
      · rw [hother other hne]
        exact List.Subset.refl _
    refine ⟨keeps_rebind hb hmore ?_ (hall id) hother, .inl ⟨b.unasked_rebind hmore hall, rfl, rfl,
      fun _ => congrArg _ (Workshop.state_setModel _ _ _ _)⟩⟩
    show Model.Proper (registries id) _ (made id) 0
    rw [hown]
    exact (hb id).proper.make hnumber hdistinct hargs
  | @ask id q hq =>
    have hid := (hb id).ask hq
    refine ⟨fun other => ?_, .inr ⟨id, q, hq, rfl⟩⟩
    by_cases hne : id = other
    · exact hne ▸ hid
    · refine (hb other).unasked (b.unasked_ask hne q) ?_ hid.inOrder
      rw [model_ask]
      exact (hb other).proper

/-! ## All sessions -/

/-- What holds of a workbench: each session keeps to its model, and the backend was invoked at
most once for each construction. A construction for which it was invoked has an identity, and
its build has come to its end. -/
structure Kept (registries : Nat → Registry) (b : Workbench) : Prop where
  sessions : ∀ id, b.Keeps (registries id) id
  requested : ∀ q ∈ b.shop.requests, ∃ f ∈ b.constructions q.1, f.origin = q.2.1 ∧
    ((b.shop.state q.1).feature f).progress.Settled ∧
    ((b.shop.state q.1).feature f).hash? ≠ none
  distinct : (b.shop.requests.map fun q => (q.1, q.2.1)).Nodup

theorem create_kept (registries : Nat → Registry) (backend : Backend) (scope : CacheScope) :
    (create (registries 0) backend scope).Kept registries := by
  have hfeature : ∀ id f, ((create (registries 0) backend scope).shop.state id).feature f = .initial :=
    fun _ _ => rfl
  refine ⟨fun id => ⟨.empty _, fun f => ?_, fun fs _ _ => ⟨fun f _ h hh => ?_, fun f _ r hr => ?_,
    True.intro⟩, fun fs _ _ M _ _ f _ hh => ?_, fun fs _ _ f _ e he => ?_⟩, nofun, List.nodup_nil⟩
  · rw [hfeature]
    exact ⟨rfl, nofun⟩
  · rw [hfeature] at hh
    cases hh
  · rw [hfeature] at hr
    cases hr
  · rw [hfeature] at hh
    exact absurd rfl hh
  · rw [hfeature] at he
    cases he

/-- No session was asked. -/
theorem Kept.unasked (h : b.Kept registries) (hsessions : ∀ id, b'.Keeps (registries id) id)
    (hunasked : ∀ id, Unasked b b' id) (hrequests : b'.shop.requests = b.shop.requests) :
    b'.Kept registries := by
  refine ⟨hsessions, fun q hq => ?_, ?_⟩
  · rw [hrequests] at hq
    obtain ⟨f, hf, horigin, hsettled⟩ := h.requested q hq
    refine ⟨f, (hunasked q.1).constructions hf, horigin, ?_⟩
    rw [(hunasked q.1).feature]
    exact hsettled
  · rw [hrequests]
    exact h.distinct

theorem Kept.ask (h : b.Kept registries)
    (hsessions : ∀ other, (b.ask id q).2.Keeps (registries other) other)
    (hq : q.constructions ⊆ b.constructions id) : (b.ask id q).2.Kept registries := by
  have hid := h.sessions id
  obtain ⟨fresh, hfresh⟩ := (hid.changes_ask hq hid.closed (List.Subset.refl _)).invokes
  have hrequests : (b.ask id q).2.shop.requests =
      b.shop.requests ++ fresh.map fun p => (id, p) := Workshop.requests_append hfresh.requests
  refine ⟨hsessions, fun p hp => ?_, ?_⟩
  · rw [hrequests] at hp
    rw [constructions_ask]
    rcases List.mem_append.mp hp with hp | hp
    · obtain ⟨f, hf, horigin, hsettled, hhash⟩ := h.requested p hp
      refine ⟨f, hf, horigin, ?_⟩
      by_cases hne : id = p.1
      · rw [← hne] at hsettled hhash ⊢
        rw [state_ask]
        exact ⟨(hfresh.keeps f).settled hsettled, (hfresh.keeps f).hash? hhash⟩
      · rw [(b.unasked_ask hne q).feature]
        exact ⟨hsettled, hhash⟩
    · obtain ⟨p', hp', rfl⟩ := List.mem_map.mp hp
      obtain ⟨f, hf, horigin, -, hafter⟩ := hfresh.invoked p' hp'
      refine ⟨f, hf, horigin, ?_⟩
      rw [state_ask]
      exact hafter
  · rw [hrequests, List.map_append, List.map_map]
    have hnew : (fresh.map fun p => (id, p.1)).Nodup := by
      have hinj : Function.Injective fun origin : Origin => (id, origin) :=
        fun _ _ heq => (Prod.mk.inj heq).2
      have hmap := hfresh.distinct.map hinj
      rwa [List.map_map] at hmap
    refine List.Nodup.append h.distinct hnew fun x hx hx' => ?_
    -- What was invoked before has come to its end, and is not invoked again.
    obtain ⟨p, hp, rfl⟩ := List.mem_map.mp hx
    obtain ⟨p', hp', heq⟩ := List.mem_map.mp hx'
    obtain ⟨hsession, horigin'⟩ := Prod.mk.inj heq
    obtain ⟨f, hf, horigin, hsettled, -⟩ := h.requested p hp
    obtain ⟨g, hg, horigin'', hnot, -⟩ := hfresh.invoked p' hp'
    rw [← hsession] at hsettled
    rw [BuildState.feature_congr _ (horigin''.trans (horigin'.trans horigin.symm))] at hnot
    exact hnot hsettled

/-- What one step keeps. -/
theorem Step.kept (hstep : Step registries b b') (h : b.Kept registries) : b'.Kept registries := by
  cases hstep with
  | works hworks =>
    obtain ⟨hsessions, ⟨hunasked, hrequests, -⟩ | ⟨id, q, hq, rfl⟩⟩ := hworks.cases h.sessions
    · exact h.unasked hsessions hunasked hrequests
    · exact h.ask hsessions hq
  | clear id =>
    have hsetup := b.shop.setup_setCache id .empty
    refine h.unasked (fun other => ?_) (b.unasked_clear id) hsetup.2.2.1
    refine (h.sessions other).unasked (b.unasked_clear id other) ?_ ?_
    · rw [show ((b.clear id).shop.session other).model = _ from (Workshop.session_setCache _ _ _ _).1]
      exact (h.sessions other).proper
    · rw [show (b.clear id).shop.described = _ from hsetup.2.2.2]
      exact (h.sessions other).inOrder

/-- What every workbench keeps. -/
theorem Reachable.kept {backend : Backend} {scope : CacheScope}
    (h : Reachable registries backend scope b) : b.Kept registries := by
  induction h with
  | refl => exact create_kept registries backend scope
  | tail _ hstep ih => exact hstep.kept ih

end Workbench

end PartScript
