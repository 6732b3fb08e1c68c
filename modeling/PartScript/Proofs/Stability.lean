/-
  Answers last. A query that has a value is answered from what the session remembers by then,
  nothing that the evaluation has read is ever taken back, and names that are bound later change
  nothing of it. So the same query has the very same value for as long as the session lives,
  even if the backend would build otherwise by then.
-/
import PartScript.Proofs.Acyclicity
import PartScript.Proofs.Lifecycle
import PartScript.Proofs.Once

namespace PartScript

open Relation

/-! ## Evaluation from what is remembered -/

namespace Plan

variable {ev : Evaluation} {s t t' : BuildState} {α : Type}

/-- A run that gives the value `a`, unless it is cut off. -/
def Gives (ask : Answers) (t : BuildState) (p : Plan α) (a : α) : Prop :=
  (p.run ask t).1 = .ok a ∨ (p.run ask t).1 = .error .exhausted

theorem Gives.demand {ask : Answers} {d : Demand} {user : Option String}
    {next : d.Answer → Plan α} {x : d.Answer} {a : α}
    (hx : (ask d t).1 = .ok x ∨ (ask d t).1 = .error .exhausted)
    (hnext : (next x).Gives ask (ask d t).2 a) : (Plan.demand d user next).Gives ask t a := by
  unfold Gives
  rw [run_demand]
  rcases hr : ask d t with ⟨h | y, t1⟩
  · rw [hr] at hx
    rcases hx with hx | hx
    · cases hx
    · obtain rfl := Except.error.inj hx
      refine .inr ?_
      cases user <;> rfl
  · rw [hr] at hx hnext
    rcases hx with hx | hx
    · obtain rfl := Except.ok.inj hx
      exact hnext
    · cases hx

/-- Evaluating what is remembered gives the value that is remembered. -/
theorem Recalls.gives {p : Plan α} {a : α} (h : p.Recalls ev s a) (n : Nat)
    (ht : t.Remembers s) : p.Gives (ev.answer n) t a := by
  have hrem : ∀ (d : Demand) {t : BuildState}, t.Remembers s → (ev.answer n d t).2.Remembers s :=
    fun d t ht => ht.trans (ev.answer_advances n d t).remembers
  induction h generalizing n t with
  | done => exact .inl rfl
  | @hash _ f _ _ h _ hh _ ih =>
    refine .demand ?_ (ih n (hrem _ ht) hrem)
    cases n with
    | zero => exact .inr rfl
    | succ n =>
      rw [Evaluation.answer, Evaluation.answerOver, ev.hashOver_remembered _ (ht.hash? hh)]
      exact .inl rfl
  | @build _ f _ _ r _ hr _ ih =>
    refine .demand ?_ (ih n (hrem _ ht) hrem)
    cases n with
    | zero => exact .inr rfl
    | succ n =>
      rw [Evaluation.answer, Evaluation.answerOver, ev.buildOver_remembered _ (ht.built hr)]
      exact .inl rfl
  | @value _ d _ _ x _ hv _ _ ihx ih =>
    refine .demand ?_ (ih n (hrem _ ht) hrem)
    cases n with
    | zero => exact .inr rfl
    | succ n =>
      have hrem' : ∀ (d : Demand) {t : BuildState}, t.Remembers s →
          (ev.answer n d t).2.Remembers s :=
        fun d t ht => ht.trans (ev.answer_advances n d t).remembers
      cases d with
      | hash f => exact hv.elim
      | build f => exact hv.elim
      | _ => exact ihx n ht hrem'
  | identify _ _ ih => exact ih n (ht.trans (BuildState.Quiet.describe t _).remembers) hrem

end Plan

/-- What is remembered gives the same answer to a query for an evaluation that keeps step. -/
theorem Query.recalls_alongside {c : Pairing} (hc : c.Sound) (hB : c.B = Eq) {q : Query}
    (hq : q.Lasting) {s : BuildState} {a : q.Answer}
    (h : (q.plan c.ev).Recalls c.ev s a) : (q.plan c.ev').Recalls c.ev' s a := by
  obtain ⟨user, hmatches⟩ := q.plan_matches hc hq
  refine h.alongside hc hB (fun x x' hx => ?_) hmatches
  rw [hB] at hx
  exact hx.eq

/-! ## Backends that come to build otherwise -/

/-- An evaluation beside one over a model that binds more names and a backend that selects
alike. -/
def Pairing.later (ev : Evaluation) (M : Model) (backend : Backend) : Pairing :=
  ⟨ev, { ev with model := M, backend := backend }, True, Eq⟩

theorem Pairing.later_sound {ev : Evaluation} {M : Model} {backend : Backend}
    (hM : M.Extends ev.model) (hselect : backend.select = ev.backend.select) :
    (later ev M backend).Sound where
  congruence := .eq
  select := by
    rintro r _ rfl kind filter
    show ev.backend.select r kind filter = backend.select r kind filter
    rw [hselect]
  names := .inr ⟨True.intro, hM⟩

namespace Workbench

variable {registries : Nat → Registry} {b b' b'' : Workbench} {id : Nat}

/-- From now on the backend builds otherwise, and selects as before. -/
def refit (b : Workbench) (build : BuildRequest → BuildAnswer) : Workbench :=
  { b with shop := { b.shop with backend := { b.shop.backend with build := build } } }

/-- A step of a workbench whose backend may come to build otherwise. -/
inductive Event (registries : Nat → Registry) (b : Workbench) : Workbench → Prop where
  | step {b' : Workbench} : Step registries b b' → Event registries b b'
  | refit (build : BuildRequest → BuildAnswer) : Event registries b (b.refit build)

theorem Keeps.refit {registry : Registry} (h : b.Keeps registry id)
    (build : BuildRequest → BuildAnswer) : (b.refit build).Keeps registry id := by
  refine ⟨h.proper, h.resting, fun fs hfs hsub => ?_, h.founded, h.accounts⟩
  have hs := h.recollects fs hfs hsub
  refine ⟨fun f hf hash hh => ?_, hs.built, hs.inOrder⟩
  obtain ⟨args, hargs, hdescribed⟩ := hs.identified f hf hash hh
  refine ⟨args, ?_, hdescribed⟩
  have hc : (Pairing.later (b.shop.evaluation id) (b.shop.evaluation id).model
      { b.shop.backend with build := build }).Sound := Pairing.later_sound (.refl _) rfl
  exact hargs.alongside hc rfl (fun _ _ => ResolvedArgument.forall₂_eq)
    (Evaluation.arguments_matches hc f [])

theorem Event.kept (h : Event registries b b') (hb : b.Kept registries) : b'.Kept registries := by
  cases h with
  | step hstep => exact hstep.kept hb
  | refit build => exact ⟨fun id => (hb.sessions id).refit build, hb.requested, hb.distinct⟩

/-- What later events leave of a session: its names, and all that it remembers. -/
structure Later (b b' : Workbench) (id : Nat) : Prop where
  model : (b'.shop.session id).model.Continues (b.shop.session id).model
  made : b.made id ⊆ b'.made id
  select : b'.shop.backend.select = b.shop.backend.select
  scope : b'.shop.scope = b.shop.scope
  remembers : (b'.shop.state id).Remembers (b.shop.state id)

theorem Later.refl (b : Workbench) (id : Nat) : Later b b id :=
  ⟨.refl _, List.Subset.refl _, rfl, rfl, ⟨fun h => h, fun h => h, List.Subset.refl _⟩⟩

theorem Later.trans (h : Later b b' id) (h' : Later b' b'' id) : Later b b'' id where
  model := h'.model.trans h.model
  made := List.Subset.trans h.made h'.made
  select := h'.select.trans h.select
  scope := h'.scope.trans h.scope
  remembers := h.remembers.trans h'.remembers

theorem Unasked.later (h : Unasked b b' id) : Later b b' id where
  model := h.model
  made := h.made
  select := by rw [h.backend]
  scope := h.scope
  remembers := ⟨fun hh => by rwa [h.feature], fun hr => by rwa [h.feature], h.described⟩

theorem later_ask (b : Workbench) (id : Nat) (q : Query) : Later b (b.ask id q).2 id where
  model := by
    show ((b.shop.setState id _).session id).model.Continues _
    rw [Workshop.model_setState]
    exact .refl _
  made := List.Subset.refl _
  select := congrArg Backend.select (Workshop.backend_setState _ _ _)
  scope := Workshop.scope_setState _ _ _
  remembers := by
    rw [state_ask]
    exact (b.outcome_advances id q).remembers

theorem Event.later (h : Event registries b b') (hb : b.Kept registries) (id : Nat) :
    Later b b' id := by
  cases h with
  | refit build =>
    exact ⟨.refl _, List.Subset.refl _, rfl, rfl, ⟨fun h => h, fun h => h, List.Subset.refl _⟩⟩
  | step hstep =>
    rcases hstep.views hb id with ⟨q, -, rfl⟩ | hstands
    · exact b.later_ask id q
    · exact hstands.toUnasked.later

/-- Whatever events follow, a workbench stays sound and a session keeps all it remembers. -/
theorem Kept.later (hb : b.Kept registries) (hrun : ReflTransGen (Event registries) b b')
    (id : Nat) : b'.Kept registries ∧ Later b b' id := by
  induction hrun with
  | refl => exact ⟨hb, .refl b id⟩
  | tail _ hevent ih => exact ⟨hevent.kept ih.1, ih.2.trans (hevent.later ih.1 id)⟩

theorem kept_of_events {backend : Backend} {scope : CacheScope}
    (hb : ReflTransGen (Event registries) (create (registries 0) backend scope) b) :
    b.Kept registries :=
  ((create_kept registries backend scope).later hb 0).1

/-! ## Answers last -/

theorem Later.constructions (h : Later b b' id) : b.constructions id ⊆ b'.constructions id := by
  intro f hf
  rcases List.mem_append.mp hf with hf | hf
  · exact List.mem_append_left _ (h.model.constructions hf)
  · exact List.mem_append_right _ (h.made hf)

/-- A session evaluates over a model with more names, and the backend selects alike. -/
theorem Later.evaluation (h : Later b b' id) : b'.shop.evaluation id = { b.shop.evaluation id with
    model := (b'.shop.session id).model, backend := b'.shop.backend } := by
  unfold Workshop.evaluation Workshop.caching
  rw [h.scope]

/-- A query that is answered from what a session remembered earlier. -/
theorem Keeps.answer {registry : Registry} (h : b'.Keeps registry id) (hlater : Later b b' id)
    {q : Query} (hlasting : q.Lasting) (hq : q.constructions ⊆ b.constructions id)
    {a : q.Answer} (hrecalls : (q.plan (b.shop.evaluation id)).Recalls (b.shop.evaluation id)
      (b.shop.state id) a) : (b'.ask id q).1 = .ok a := by
  have hc : (Pairing.later (b.shop.evaluation id) (b'.shop.session id).model
      b'.shop.backend).Sound := Pairing.later_sound hlater.model.toExtends hlater.select
  have hlate := q.recalls_alongside hc rfl hlasting (hrecalls.mono hlater.remembers)
  have hq' := List.Subset.trans hq hlater.constructions
  have hgives : (q.plan (b'.shop.evaluation id)).Gives
      ((b'.shop.evaluation id).answers (b'.made id).length) (b'.shop.state id) a := by
    rw [hlater.evaluation]
    exact hlate.gives _ ⟨fun h => h, fun h => h, List.Subset.refl _⟩
  exact hgives.resolve_right (h.ended hq')

/-- In every run of a workbench, a query about names, expressions or constructions of a session
that has had a value has the very same value from then on, whatever all sessions load, make and
ask, whichever caches are cleared, and however the backend comes to build. -/
theorem answers_last {backend : Backend} {scope : CacheScope} {q : Query} {a : q.Answer}
    (hb : ReflTransGen (Event registries) (create (registries 0) backend scope) b)
    (hlasting : q.Lasting) (hq : q.constructions ⊆ b.constructions id)
    (hanswer : (b.ask id q).1 = .ok a)
    (hrun : ReflTransGen (Event registries) (b.ask id q).2 b') : (b'.ask id q).1 = .ok a := by
  have hkept := ((create_kept registries backend scope).later hb id).1
  have hasked : (b.ask id q).2.Kept registries :=
    Step.kept (.works (.ask hq)) hkept
  obtain ⟨hkept', hlater⟩ := hasked.later hrun id
  have hkeeps := hkept.sessions id
  have hrecalls := (hkeeps.recollects_ask hq hkeeps.closed (List.Subset.refl _)).2 a hanswer
  have hsame : (b.ask id q).2.shop.evaluation id = b.shop.evaluation id :=
    Workshop.evaluation_setState _ _ _ _
  refine (hkept'.sessions id).answer hlater hlasting ?_ ?_
  · exact List.Subset.trans hq (b.later_ask id q).constructions
  · rw [state_ask, hsame]
    exact hrecalls

/-- A sphere and a compound of it, in a session with a cache. -/
def grouped : Workbench :=
  (create Catalog.registry (Symbolic.backend []) .session).load Catalog.registry 0 (.script
    "s = Sphere([0, 0, 0], 1); c = Compound(s);")

/-- The compound has been built. Then another session has loaded and built the same, the cache
has been cleared, more has been loaded, and the backend refuses every build. -/
def groupedLater : Workbench :=
  let asked := (grouped.ask 0 (.named (.build "c"))).2
  let other := asked.load Catalog.registry 1 (.script "c = Compound(Sphere([0, 0, 0], 1));")
  let cleared := (other.ask 1 (.named (.build "c"))).2.clear 0
  (cleared.load Catalog.registry 0 (.script "d = Compound(c, s);")).refit Backend.null.build

set_option maxRecDepth 100000 in
theorem answers_last_grouped : ∃ result, (grouped.ask 0 (.named (.build "c"))).1 = .ok result ∧
    (groupedLater.ask 0 (.named (.build "c"))).1 = .ok result := by
  have hok : (grouped.ask 0 (.named (.build "c"))).1.isOk = true := by decide +kernel
  obtain ⟨result, hresult⟩ : ∃ result, (grouped.ask 0 (.named (.build "c"))).1 = .ok result := by
    revert hok
    cases (grouped.ask 0 (.named (.build "c"))).1 with
    | ok result => exact fun _ => ⟨result, rfl⟩
    | error h => nofun
  have hreachable : ReflTransGen (Event fun _ => Catalog.registry)
      (create Catalog.registry (Symbolic.backend []) .session) grouped :=
    .single (.step (.works (.load 0 _)))
  have hrun : ReflTransGen (Event fun _ => Catalog.registry)
      (grouped.ask 0 (.named (.build "c"))).2 groupedLater :=
    ((((ReflTransGen.single (.step (.works (.load 1 _)))).tail
      (.step (.works (.ask (List.nil_subset _))))).tail (.step (.clear 0))).tail
      (.step (.works (.load 0 _)))).tail (.refit _)
  exact ⟨result, hresult,
    answers_last hreachable True.intro (List.nil_subset _) hresult hrun⟩

end Workbench

end PartScript
