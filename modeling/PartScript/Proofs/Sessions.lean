/-
  What a session remembers is faithful to what its names mean, after every load and every
  question. So two sessions with the same names give the same answers, however each of them
  has come to its memory.
-/
import PartScript.Proofs.Questions
import PartScript.Proofs.Sharing

namespace PartScript

/-! ## Outcomes that are the same -/

/-- Outcomes that are the same: related values, or errors with root causes of one kind. No
evaluation may have been cut off. -/
def SameOutcome {α : Type} (R : α → α → Prop) : Except Halt α → Except Halt α → Prop
  | .ok a, .ok a' => R a a'
  | .error (.failed e), .error (.failed e') => e.cause = e'.cause
  | _, _ => False

/-- Two outcomes of what one plan means are the same. -/
theorem Plan.Meets.same {ev : Evaluation} {α : Type} {R : α → α → Prop} {p : Plan α}
    (hjoin : ∀ a b c, R a c → R b c → R a b) {o o' : Except Halt α} (h : p.Meets ev R o)
    (h' : p.Meets ev R o') (hended : o ≠ .error .exhausted) (hended' : o' ≠ .error .exhausted) :
    SameOutcome R o o' := by
  -- A failure is no value of the plan, and its cause is determined by the plan.
  have hfailed : ∀ {e : BuildError}, p.Meets ev R (.error (.failed e)) →
      ∀ x, p.Settles ev x → e.cause ≠ .circular ∧ x = .error e.cause := by
    intro e he x hx
    simp only [Plan.Meets] at he
    split at he
    · exact absurd he hx.not_loops
    · next hc => exact ⟨hc, hx.unique he⟩
  cases o with
  | ok a =>
    obtain ⟨c, hc, hac⟩ := h
    cases o' with
    | ok b =>
      obtain ⟨c', hc', hbc⟩ := h'
      obtain rfl := Except.ok.inj (hc.unique hc')
      exact hjoin a b c hac hbc
    | error halt =>
      cases halt with
      | exhausted => exact absurd rfl hended'
      | failed e => cases (hfailed h' _ hc).2
  | error halt =>
    cases halt with
    | exhausted => exact absurd rfl hended
    | failed e =>
      cases o' with
      | ok b =>
        obtain ⟨c', hc', -⟩ := h'
        cases (hfailed h _ hc').2
      | error halt' =>
        cases halt' with
        | exhausted => exact absurd rfl hended'
        | failed e' =>
          show e.cause = e'.cause
          by_cases hc : e.cause = .circular
          · simp only [Plan.Meets, if_pos hc] at h
            by_cases hc' : e'.cause = .circular
            · exact hc.trans hc'.symm
            · simp only [Plan.Meets, if_neg hc'] at h'
              exact absurd h h'.not_loops
          · simp only [Plan.Meets, if_neg hc] at h
            exact Except.error.inj (hfailed h' _ h).2

/-! ## Evaluation with and without a cache -/

/-- Two evaluations that differ in whether answers are cached. -/
def Pairing.cached (ev : Evaluation) (caching : Bool) : Pairing :=
  ⟨ev, { ev with caching := caching }, False, Eq⟩

theorem Pairing.cached_complete (ev : Evaluation) (caching : Bool) :
    (Pairing.cached ev caching).Complete := complete_of_backend rfl (.inl rfl)

/-- What a question means does not depend on whether answers are cached. -/
theorem Question.meets_cached {ev : Evaluation} (caching : Bool) (q : Question)
    {o : Except Halt q.Answer} (h : (q.plan ev).Meets ev (q.Related BuildResult.Alike) o) :
    (q.plan { ev with caching := caching }).Meets { ev with caching := caching }
      (q.Related BuildResult.Alike) o := by
  have hc := Pairing.cached_complete ev caching
  have hlike := (q.plan_matches hc.toSound rfl).like
  refine hlike.meets hc (fun a a' a'' ha ha' => ?_) h nofun
  rw [← ha'.eq]
  exact ha

/-! ## Sessions with a faithful memory -/

/-- A collection that holds all constructions of a model and in which evaluation stays; they
have the signatures of their types. -/
structure Covers (registry : Registry) (M : Model) (fs : List Feature) : Prop where
  closed : Closed M fs
  all : M.constructions ⊆ fs
  registered : ∀ f ∈ fs, f.Registered registry

theorem Covers.of_continues {registry : Registry} {M M' : Model} {fs : List Feature}
    (h : Covers registry M' fs) (hM : M'.Continues M) : Covers registry M fs where
  closed := ⟨fun b hb => h.closed.bindings b (hM.bindings.subset hb), h.closed.arguments,
    h.closed.unique⟩
  all := List.Subset.trans hM.constructions h.all
  registered := h.registered

theorem Model.Proper.covers {registry : Registry} {M : Model} (h : M.Proper registry [] 0) :
    Covers registry M M.constructions where
  closed := by simpa using h.closed
  all := List.Subset.refl _
  registered := h.registered

/-- The identities of what is described tell everything apart that the backend can: streams
and zeros alike. -/
structure Description.Exact (log : List Description) : Prop extends Description.Legible log where
  zeros : ∀ d ∈ log, ∀ d' ∈ log, d.stream = d'.stream → d.numbers = d'.numbers

instance (log : List Description) : Decidable (Description.Exact log) :=
  decidable_of_iff (Description.Legible log ∧ ∀ d ∈ log, ∀ d' ∈ log, d.stream = d'.stream →
    d.numbers = d'.numbers) ⟨fun h => ⟨h.1, h.2⟩, fun h => ⟨h.toLegible, h.zeros⟩⟩

theorem Description.Exact.mono {log log' : List Description} (h : Exact log)
    (hsub : log' ⊆ log) : Exact log' :=
  ⟨h.toLegible.mono hsub, fun d hd d' hd' => h.zeros d (hsub hd) d' (hsub hd')⟩

theorem Evaluation.shares_exact {registry : Registry} {ev : Evaluation} {fs : List Feature}
    (hfs : Covers registry ev.model fs) (hblind : ev.backend.Blind) {log : List Description}
    (hlog : ev.caching = true → Description.Exact log) : ev.Shares fs log := by
  intro hcaching
  have hexact := hlog hcaching
  refine Evaluation.shares hfs.closed hblind (fun f hf g hg => ?_) hexact.toLegible hexact.zeros
    hcaching
  exact (hfs.registered f hf).signature_eq (hfs.registered g hg)

namespace Workshop

/-- A session that rests and whose memory is faithful to its names, for every collection that
covers them. -/
structure Sound (shop : Workshop) (id : Nat) : Prop where
  proper : (shop.session id).model.Proper shop.registry [] 0
  resting : (shop.state id).Resting
  recollects : ∀ fs, Covers shop.registry (shop.session id).model fs →
    (shop.evaluation id).Recollects fs (shop.state id)
  faithful : ∀ fs, Covers shop.registry (shop.session id).model fs →
    (shop.evaluation id).Faithful fs (shop.state id)

theorem create_sound (registry : Registry) (backend : Backend) (scope : CacheScope) (id : Nat) :
    (create registry backend scope).Sound id := by
  have hfeature : ∀ f, ((create registry backend scope).state id).feature f = .initial :=
    fun f => rfl
  have hcache : ((create registry backend scope).state id).cache = .empty :=
    cacheOf_create registry backend scope id
  refine ⟨.empty registry, fun f => ?_, fun fs _ => ⟨fun f _ h hh => ?_, fun f _ r hr => ?_,
    True.intro⟩, fun fs _ => ⟨fun f _ h hh => ?_, fun f _ r hr => ?_, fun f _ e he => ?_,
    fun _ h answer hh => ?_⟩⟩
  · rw [hfeature]
    exact ⟨rfl, nofun⟩
  · rw [hfeature] at hh
    cases hh
  · rw [hfeature] at hr
    cases hr
  · rw [hfeature] at hh
    cases hh
  · rw [hfeature] at hr
    cases hr
  · rw [hfeature] at he
    cases he
  · rw [hcache] at hh
    cases hh

variable {shop : Workshop} {id : Nat}

/-- More names are bound. -/
theorem Sound.setModel (h : shop.Sound id) {M : Model} (hM : M.Proper shop.registry [] 0)
    (hmore : M.Continues (shop.session id).model) : (shop.setModel id M).Sound id := by
  have hmodel : ((shop.setModel id M).session id).model = M := by
    rw [session_setModel, if_pos rfl]
  have hev : (shop.setModel id M).evaluation id = { shop.evaluation id with model := M } := by
    unfold evaluation
    rw [hmodel]
    rfl
  refine ⟨?_, ?_, fun fs hfs => ?_, fun fs hfs => ?_⟩
  · rw [hmodel]
    exact hM
  · rw [state_setModel]
    exact h.resting
  · rw [hmodel] at hfs
    rw [state_setModel, hev]
    exact (h.recollects fs (hfs.of_continues hmore)).extends hmore.toExtends
  · rw [hmodel] at hfs
    rw [state_setModel, hev]
    exact (h.faithful fs (hfs.of_continues hmore)).extends hmore.toExtends

theorem Sound.load (h : shop.Sound id) (what : Load) : (shop.load id what).2.Sound id := by
  rw [load_eq]
  cases hM : (shop.session id).model.loaded shop.registry what with
  | error e => exact h
  | ok M =>
    obtain ⟨hproper, hmore⟩ := h.proper.loaded hM
    exact h.setModel hproper hmore

/-- A question is answered by what it means, and leaves the memory faithful. -/
theorem Sound.ask (h : shop.Sound id) (hblind : shop.backend.Blind) (q : Question)
    {o : Except Halt q.Answer} {after : Workshop} (hask : shop.ask id 0 q.plan = (o, after))
    (hlog : shop.caching = true → Description.Exact after.described) :
    after.Sound id ∧ o ≠ .error .exhausted ∧
      (q.plan (shop.evaluation id)).Meets (shop.evaluation id)
        (q.Related BuildResult.Alike) o := by
  let ev := shop.evaluation id
  have hadv := Plan.run_advances (ev.answer_advances (ev.depth 0)) (q.plan ev) (shop.state id)
  rcases hr : (q.plan ev).run (ev.answer (ev.depth 0)) (shop.state id) with ⟨o', s'⟩
  rw [hr] at hadv
  obtain ⟨rfl, rfl⟩ : o' = o ∧ shop.setState id s' = after := by
    simp only [Workshop.ask, Evaluation.answers] at hask
    rw [show (q.plan (shop.evaluation id)).run _ (shop.state id) = (o', s') from hr] at hask
    exact ⟨congrArg Prod.fst hask, congrArg Prod.snd hask⟩
  have hstate : (shop.setState id s').state id = s' := shop.state_setState id hadv.requests
  have hcovers := h.proper.covers
  have hrecollects : ∀ fs, Covers shop.registry ev.model fs → ev.Recollects fs s' := by
    intro fs hfs
    exact (Evaluation.run_recollects hfs.closed (ev.recollects_at hfs.closed _)
      (q.plan_walks ev) ((q.items_within ev.model).mono hfs.all) (by simp) (h.recollects fs hfs)
      hr).1
  have hfaithful : ∀ fs, Covers shop.registry ev.model fs → ev.Faithful fs s' ∧
      (q.plan ev).Meets ev (q.Related BuildResult.Alike) o' := by
    intro fs hfs
    have hshare := Evaluation.shares_exact hfs hblind hlog
    exact Evaluation.run_faithful hfs.closed
      (Evaluation.faithful_at hfs.closed hblind hshare _)
      (q.plan_matches (Pairing.alike_complete hblind).toSound rfl)
      ((q.items_within ev.model).mono hfs.all) (by simp) (h.recollects fs hfs)
      (h.faithful fs hfs) (.resting h.resting) hr (List.Subset.refl _)
  have hordered := Model.ordered_of_scoped h.proper.names
  have hended := Evaluation.answers_not_exhausted hcovers.closed hordered
    (Nat.le_add_right _ 0) (q.plan_walks ev) (q.items_within ev.model) h.resting.ready
  rw [show (q.plan ev).run (ev.answers 0) (shop.state id) = (o', s') from hr] at hended
  refine ⟨⟨?_, ?_, ?_, ?_⟩, hended, (hfaithful _ hcovers).2⟩
  · rw [model_setState, registry_setState]
    exact h.proper
  · rw [hstate]
    exact h.resting.advances hadv
  · rw [model_setState, registry_setState, evaluation_setState, hstate]
    exact hrecollects
  · rw [model_setState, registry_setState, evaluation_setState, hstate]
    exact fun fs hfs => (hfaithful fs hfs).1

/-- Two sessions with the same names and backends that are the same give the same answers. -/
theorem Sound.ask_same {shop' : Workshop} (h : shop.Sound id) (h' : shop'.Sound id)
    (hmodel : (shop'.session id).model = (shop.session id).model)
    (hbackend : shop'.backend = shop.backend) (hblind : shop.backend.Blind) (q : Question)
    (hlog : shop.caching = true → Description.Exact (shop.ask id 0 q.plan).2.described)
    (hlog' : shop'.caching = true → Description.Exact (shop'.ask id 0 q.plan).2.described) :
    SameOutcome (q.Related BuildResult.Alike) (shop.ask id 0 q.plan).1
      (shop'.ask id 0 q.plan).1 := by
  obtain ⟨-, hended, hmeets⟩ := h.ask hblind q rfl hlog
  obtain ⟨-, hended', hmeets'⟩ := h'.ask (hbackend ▸ hblind) q rfl hlog'
  have hev : { shop'.evaluation id with caching := shop.caching } = shop.evaluation id := by
    unfold evaluation
    rw [hmodel, hbackend]
  have hmeets' := q.meets_cached shop.caching hmeets'
  rw [hev] at hmeets'
  have hjoin : ∀ a b c, q.Related BuildResult.Alike a c → q.Related BuildResult.Alike b c →
      q.Related BuildResult.Alike a b := fun _ _ _ => Question.Related.join q
  exact hmeets.same hjoin hmeets' hended hended'

end Workshop

end PartScript
