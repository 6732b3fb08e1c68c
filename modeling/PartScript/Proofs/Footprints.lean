/-
  Asking for an identity builds only what is read on the way, in every session that can be reached.
  Constructions that are taken as arguments keep their state. Where nothing is read, neither the
  backend nor a cache is used, and the answer is a matter of the names alone: it is the same in all
  workshops, whatever has been asked in them before.
-/
import PartScript.Build.Symbolic
import PartScript.Catalog
import PartScript.Proofs.Afresh

namespace PartScript

open Relation

namespace Model

variable {M : Model} {r : FeatureRef} {f g : Feature}

/-- Whether nothing is read: a construction has only features among its arguments, and these are such
constructions again, at most so many times over. -/
def quiet (M : Model) : Nat → Feature → Bool
  | 0, _ => false
  | n + 1, f => f.items.all fun
    | .identity r => (M.target r).toOption.all fun designated => M.quiet n designated.1
    | _ => false

theorem quiet_takes {n : Nat} (h : M.quiet n f) (hg : ReflTransGen M.Takes f g) :
    ∃ n, M.quiet n g := by
  induction hg with
  | refl => exact ⟨n, h⟩
  | tail _ htakes ih =>
    obtain ⟨m, hm⟩ := ih
    obtain ⟨r, path, ha, ht⟩ := htakes
    cases m with
    | zero => cases hm
    | succ m =>
      have hr := List.all_eq_true.mp hm _ (Argument.items_subset ha List.mem_cons_self)
      simp only [ht] at hr
      exact ⟨m, hr⟩

theorem quiet_reads {n : Nat} (h : M.quiet n f) : ¬ M.Reads f.items g := by
  rintro ⟨r, path, hr, -⟩
  cases n with
  | zero => cases h
  | succ n =>
    have hall := List.all_eq_true.mp h
    cases hr with
    | result hr => cases hall _ hr
    | symbol hr => cases hall _ hr

/-- What is quiet is identified with nothing that reads. -/
theorem IdentifiedWith.quiet {n : Nat} (hf : M.IdentifiedWith r f)
    (h : (M.target r).toOption.all fun designated => M.quiet n designated.1) :
    ¬ M.Reads f.items g := by
  obtain ⟨root, path, ht, htakes⟩ := hf
  rw [ht] at h
  obtain ⟨m, hm⟩ := quiet_takes h htakes
  exact quiet_reads hm

end Model

namespace Workshop

/-- A question that does not use the cache leaves all caches as they were. -/
theorem cacheOf_setState_same {shop : Workshop} {id : Nat} {state : BuildState}
    (h : state.cache = (shop.state id).cache) (other : Nat) :
    (shop.setState id state).cacheOf other = shop.cacheOf other := by
  by_cases hscope : shop.scope = .shared
  · have hone : ∀ id, shop.cacheOf id = shop.sharedCache := fun _ => if_pos hscope
    rcases shop.cacheOf_setState_or id other state with heq | heq
    · rw [heq, h, hone other]
      exact hone id
    · exact heq
  · by_cases hne : id = other
    · subst hne
      rcases shop.cacheOf_setState_or id id state with heq | heq
      · exact heq.trans h
      · exact heq
    · exact shop.cacheOf_setState_ne id other hscope hne state

end Workshop

namespace Workbench

variable {registry : Registry} {b : Workbench} {id : Nat} {name : String}

/-- An identity that reads nothing is, at every great depth, what it is from nothing. -/
theorem Keeps.hash_afresh (h : b.Keeps registry id)
    (hunread : ∀ g, ¬ (b.shop.session id).model.Needs (.named name) g) {n : Nat}
    (hn : (b.shop.evaluation id).depth (b.made id).length ≤ n) :
    (b.ask id (.named (.hash name))).1 =
      (((b.shop.evaluation id).hashNamed name).run ((b.shop.evaluation id).answer n) .blank).1 := by
  have hq : (Query.named (.hash name)).constructions ⊆ b.constructions id := List.nil_subset _
  have hwalks := (Question.hash name).plan_walks (b.shop.evaluation id)
  have hitems := items_within_ask hq (List.Subset.refl _)
  have hlength : (b.constructions id).length ≤
      (b.shop.session id).model.constructions.length + (b.made id).length :=
    Nat.le_of_eq List.length_append
  have hresting : BuildState.blank.Resting := fun _ => ⟨rfl, nofun⟩
  have hended := Evaluation.answers_not_exhausted h.closed (Model.ordered_of_scoped h.proper.names)
    hlength hwalks hitems hresting.ready
  have hblank := Evaluation.run_refines ((b.shop.evaluation id).answer_refines hn) _ _ hended
  have hrecollects := h.recollects _ h.closed (List.Subset.refl _)
  have hfounded := h.founded _ h.closed (List.Subset.refl _) _ (.refl _) h.closed
  have hjoins := Evaluation.run_joins (r := .named name) h.closed
    (Evaluation.joins_at h.closed hunread hrecollects hfounded n) hwalks hitems
    (fun item hitem user d hm => by
      obtain rfl := List.mem_singleton.mp hitem
      cases hm with
      | identity ht => exact .inl ⟨_, _, ht, .refl⟩)
    (.resting hresting) h.resting.joins (by rw [hblank]; exact hended)
  rw [show (b.ask id (.named (.hash name))).1 = _ from (congrArg Prod.fst (h.outcome_eq hq hn)).symm]
  exact hjoins.1

/-- An identity that reads nothing is the same with every backend. -/
theorem outcome_unread (b : Workbench)
    (hunread : ∀ g, ¬ (b.shop.session id).model.Needs (.named name) g) {ev : Evaluation}
    (hM : ev.model = (b.shop.evaluation id).model) :
    (ev.hashNamed name).run (ev.answers (b.made id).length) (b.shop.state id) =
      b.outcome id (.named (.hash name)) := by
  have hdepth : ev.depth (b.made id).length = (b.shop.evaluation id).depth (b.made id).length := by
    rw [Evaluation.depth, hM, Evaluation.depth]
  show (ev.hashNamed name).run (ev.answer (ev.depth (b.made id).length)) _ = _
  rw [hdepth]
  exact Evaluation.hashNamed_congr hM hunread _ _

/-- An identity that reads nothing is the same in two workbenches, for sessions with the same names. -/
theorem Keeps.hash_unread (h : b.Keeps registry id) {registry' : Registry} {b' : Workbench} {id' : Nat}
    (h' : b'.Keeps registry' id') (hM : (b'.shop.session id').model = (b.shop.session id).model)
    (hunread : ∀ g, ¬ (b.shop.session id).model.Needs (.named name) g) :
    (b'.ask id' (.named (.hash name))).1 = (b.ask id (.named (.hash name))).1 := by
  let n := max ((b.shop.evaluation id).depth (b.made id).length)
    ((b'.shop.evaluation id').depth (b'.made id').length)
  have hmodel : (b'.shop.evaluation id').model = (b.shop.evaluation id).model := hM
  rw [h.hash_afresh hunread (Nat.le_max_left _ _ : _ ≤ n),
    h'.hash_afresh (by rw [hM]; exact hunread) (Nat.le_max_right _ _ : _ ≤ n),
    Evaluation.hashNamed_congr hmodel hunread n .blank]

/-- Asking for the identity of what a name designates builds only what is read on the way, and what
this depends on: every other construction has the progress that it had, and so have the constructions
of all other sessions, and the backend is invoked for no others. Where nothing is read, the backend is
not invoked at all and no cache is used, no construction gets on, and the answer depends neither on the
backend nor on where its answers are cached: with any other it is computed in the same way, and it is
the same in every workbench that can be reached, in every session with these names. -/
theorem hash_builds_reads {registries : Nat → Registry} {backend : Backend} {scope : CacheScope}
    {b : Workbench} (hb : Reachable registries backend scope b) (id : Nat) (name : String) :
    let M := (b.shop.session id).model
    let q : Query := .named (.hash name)
    let after := (b.ask id q).2.shop
    (∀ f ∈ b.constructions id, ¬ M.Needs (.named name) f →
      ((after.state id).feature f).progress = ((b.shop.state id).feature f).progress) ∧
    (∀ other, id ≠ other → ∀ f, (after.state other).feature f = (b.shop.state other).feature f) ∧
    (∃ fresh : List (Origin × BuildRequest),
      after.requests = b.shop.requests ++ fresh.map (fun p => (id, p)) ∧
      ∀ p ∈ fresh, ∃ f ∈ b.constructions id, M.Needs (.named name) f ∧ f.origin = p.1) ∧
    ((∀ f g, M.IdentifiedWith (.named name) f → ¬ M.Reads f.items g) →
      after.requests = b.shop.requests ∧
      (∀ other, after.cacheOf other = b.shop.cacheOf other) ∧
      (∀ other f,
        ((after.state other).feature f).progress = ((b.shop.state other).feature f).progress) ∧
      (∀ ev : Evaluation, ev.model = M →
        (q.plan ev).run (ev.answers (b.made id).length) (b.shop.state id) = b.outcome id q) ∧
      ∀ (registries' : Nat → Registry) (backend' : Backend) (scope' : CacheScope) (b' : Workbench)
        (id' : Nat), Reachable registries' backend' scope' b' →
        (b'.shop.session id').model = M → (b'.ask id' q).1 = (b.ask id q).1) := by
  intro M q after
  have hkeeps := hb.kept.sessions id
  have hclosed := hkeeps.closed
  have hstate : after.state id = (b.outcome id q).2 := b.state_ask id q
  have hothers : ∀ other, id ≠ other →
      ∀ f, (after.state other).feature f = (b.shop.state other).feature f :=
    fun other hne f => (b.unasked_ask hne q).feature f
  have honly : BuildState.BuildsOnly (M.Needs (.named name)) (b.shop.state id) (b.outcome id q).2 :=
    (b.shop.evaluation id).hashNamed_buildsOnly name _ _
  have hwithin : ∀ {g}, M.Needs (.named name) g → g ∈ b.constructions id := fun hg =>
    hg.within hclosed
  have hrequests : ∀ {fresh}, (b.outcome id q).2.requests = (b.shop.state id).requests ++ fresh →
      after.requests = b.shop.requests ++ fresh.map fun p => (id, p) := fun h =>
    Workshop.requests_append h
  refine ⟨fun f hf hneeds => ?_, hothers, ?_, fun hreads => ?_⟩
  · rw [hstate]
    exact honly.progress f fun g hg heq =>
      hneeds (hclosed.unique g (hwithin hg) f hf heq ▸ hg)
  · obtain ⟨fresh, hfresh, hbuilt⟩ := honly.requests
    refine ⟨fresh, hrequests hfresh, fun p hp => ?_⟩
    obtain ⟨g, hg, horigin⟩ := hbuilt p hp
    exact ⟨g, hwithin hg, hg, horigin⟩
  · have hunread : ∀ g, ¬ M.Needs (.named name) g := fun _ ⟨f, g, hf, hg, _⟩ => hreads f g hf hg
    obtain ⟨hprogress, hnone, hcache⟩ := honly.nothing hunread
    refine ⟨?_, ?_, fun other f => ?_, fun ev hM => ?_, ?_⟩
    · simpa using hrequests (hnone.trans (List.append_nil _).symm)
    · exact Workshop.cacheOf_setState_same hcache
    · by_cases hne : id = other
      · subst hne
        rw [hstate]
        exact hprogress f
      · rw [hothers other hne]
    · exact b.outcome_unread hunread hM
    · exact fun _ _ _ _ _ hb' hM => (hb.kept.sessions id).hash_unread (hb'.kept.sessions _) hM hunread

/-! ## Constructions that read nothing -/

/-- A load that succeeds puts the names that it gives in the place of those that there are. -/
theorem model_load (b : Workbench) (registry : Registry) (id : Nat) (what : Load) :
    ((b.load registry id what).shop.session id).model =
      ((b.shop.session id).model.loaded registry what).toOption.getD (b.shop.session id).model := by
  unfold load
  rw [Workshop.load_eq]
  show ((({ b.shop with registry := registry }.adopt id
    ((b.shop.session id).model.loaded registry what)).2).session id).model = _
  cases (b.shop.session id).model.loaded registry what with
  | error e => rfl
  | ok M =>
    show ((Workshop.setModel _ id M).session id).model = M
    rw [Workshop.session_setModel, if_pos rfl]

/-- A sphere as large as another one, and a compound of each. -/
def compounds : Load :=
  .script "a = Sphere([0, 0, 0], 1); b = Sphere([0, 0, 0], a$D); c = Compound(b); d = Compound(a);"

def resized : Workbench :=
  (create Catalog.registry (Symbolic.backend []) .session).load Catalog.registry 0 compounds

/-- The same without a cache and with a backend that refuses spheres, after one has been asked for. -/
def deprived : Workbench :=
  (((create Catalog.registry (Symbolic.backend ["Sphere"]) .disabled).load Catalog.registry 0
    compounds).ask 0 (.named (.build "a"))).2

theorem model_deprived : (deprived.shop.session 0).model = (resized.shop.session 0).model := by
  unfold deprived resized
  rw [model_ask, model_load, model_load]
  rfl

set_option maxRecDepth 100000 in
/-- For the compound of the second sphere one construction is built that it needs. For the compound of
the first one none is built, and where it cannot be built the answer is the same. -/
theorem hash_builds_reads_resized :
    (∃ f ∈ resized.constructions 0,
      (resized.shop.session 0).model.Needs (.named "c") f ∧
      (resized.ask 0 (.named (.hash "c"))).2.shop.requests.map (fun p => p.2.1) = [f.origin]) ∧
    (resized.ask 0 (.named (.hash "d"))).2.shop.requests = [] ∧
    (deprived.ask 0 (.named (.hash "d"))).1 = (resized.ask 0 (.named (.hash "d"))).1 := by
  have hresized : Reachable (fun _ => Catalog.registry) (Symbolic.backend []) .session resized :=
    .single (.works (.load 0 _))
  have hdeprived : Reachable (fun _ => Catalog.registry) (Symbolic.backend ["Sphere"]) .disabled
      deprived := (ReflTransGen.single (.works (.load 0 _))).tail (.works (.ask (List.nil_subset _)))
  have hfirst : resized.shop.requests = [] := by decide +kernel
  constructor
  · obtain ⟨-, -, ⟨fresh, hfresh, hbuilt⟩, -⟩ := hash_builds_reads hresized 0 "c"
    have hone : (resized.ask 0 (.named (.hash "c"))).2.shop.requests.length = 1 := by decide +kernel
    rw [hfresh, hfirst, List.nil_append, List.length_map] at hone
    obtain ⟨p, rfl⟩ := List.length_eq_one_iff.mp hone
    obtain ⟨f, hf, hneeds, horigin⟩ := hbuilt p List.mem_cons_self
    refine ⟨f, hf, hneeds, ?_⟩
    rw [hfresh, hfirst, horigin]
    rfl
  · obtain ⟨-, -, -, hunread⟩ := hash_builds_reads hresized 0 "d"
    have hquiet : ((resized.shop.session 0).model.target (.named "d")).toOption.all
        (fun designated => (resized.shop.session 0).model.quiet 2 designated.1) = true := by
      decide +kernel
    obtain ⟨hrequests, -, -, -, hsame⟩ := hunread fun f g hf => hf.quiet hquiet
    exact ⟨hrequests.trans hfirst, hsame _ _ _ deprived 0 hdeprived model_deprived⟩

end Workbench

end PartScript
