/-
  Histories of a session. Without a cache, the answer to a question does not depend on what
  was asked before. With a cache the answers are those without, as long as identities tell
  apart what the backend can.
-/
import PartScript.Proofs.Sessions

namespace PartScript

/-! ## Histories -/

/-- What is done in a session. -/
inductive Act where
  | load (what : Load)
  | ask (question : Question)

def Act.isLoad : Act → Bool
  | load _ => true
  | ask _ => false

/-- What comes of it. -/
inductive Response where
  | loaded (outcome : Except CompileError Unit)
  | answered (question : Question) (outcome : Except Halt question.Answer)

/-- Responses that are the same: to loads the same outcome, to questions the same value up to
the numbers of backend invocations, or errors with root causes of one kind. -/
inductive Response.Same : Response → Response → Prop where
  | loaded (outcome : Except CompileError Unit) : Same (.loaded outcome) (.loaded outcome)
  | answered {question : Question} {o o' : Except Halt question.Answer} :
      SameOutcome (question.Related BuildResult.Alike) o o' →
      Same (.answered question o) (.answered question o')

namespace Workshop

/-- One act in a session. -/
def act (shop : Workshop) (id : Nat) : Act → Response × Workshop
  | .load what => (.loaded (shop.load id what).1, (shop.load id what).2)
  | .ask question =>
    (.answered question (shop.ask id 0 question.plan).1, (shop.ask id 0 question.plan).2)

/-- Acts in a session, one after another. -/
def acts (id : Nat) : List Act → Workshop → List Response × Workshop
  | [], shop => ([], shop)
  | act :: rest, shop =>
    ((shop.act id act).1 :: (acts id rest (shop.act id act).2).1,
      (acts id rest (shop.act id act).2).2)

/-! ## Sessions side by side -/

/-- Two sessions with the same names, and the same registry and backend. -/
structure Twins (id : Nat) (shop shop' : Workshop) : Prop where
  model : (shop'.session id).model = (shop.session id).model
  registry : shop'.registry = shop.registry
  backend : shop'.backend = shop.backend

variable {shop shop' : Workshop} {id : Nat}

theorem Twins.refl (id : Nat) (shop : Workshop) : Twins id shop shop := ⟨rfl, rfl, rfl⟩

theorem Twins.ask (h : Twins id shop shop') {α : Type} (question : Evaluation → Plan α) :
    Twins id shop (shop'.ask id 0 question).2 := by
  refine ⟨?_, ?_, ?_⟩
  · exact (model_setState _ _ _ _).trans h.model
  · exact (registry_setState _ _ _).trans h.registry
  · exact (backend_setState _ _ _).trans h.backend

theorem Twins.symm (h : Twins id shop shop') : Twins id shop' shop :=
  ⟨h.model.symm, h.registry.symm, h.backend.symm⟩

/-- A load has the same outcome in both. -/
theorem Twins.load (h : Twins id shop shop') (what : Load) :
    (shop'.load id what).1 = (shop.load id what).1 ∧
      Twins id (shop.load id what).2 (shop'.load id what).2 := by
  rw [load_eq, load_eq, h.model, h.registry]
  cases (shop.session id).model.loaded shop.registry what with
  | error e => exact ⟨rfl, h⟩
  | ok M =>
    refine ⟨rfl, ?_, h.registry, h.backend⟩
    show ((shop'.setModel id M).session id).model = ((shop.setModel id M).session id).model
    rw [session_setModel, session_setModel, if_pos rfl, if_pos rfl]

theorem Twins.act (h : Twins id shop shop') (act : Act) :
    Twins id (shop.act id act).2 (shop'.act id act).2 := by
  cases act with
  | load what => exact (h.load what).2
  | ask question => exact ((h.ask question.plan).symm.ask question.plan).symm

/-- Questions leave no trace in what a session has loaded. -/
theorem twins_loads (acts : List Act) {shop shop' : Workshop} (h : Twins id shop shop') :
    Twins id (Workshop.acts id acts shop).2
      (Workshop.acts id (acts.filter Act.isLoad) shop').2 := by
  induction acts generalizing shop shop' with
  | nil => exact h
  | cons act rest ih =>
    cases act with
    | load what => exact ih (h.act (.load what))
    | ask question => exact ih (h.symm.ask question.plan).symm

/-! ## What histories leave -/

theorem described_act (act : Act) : shop.described ⊆ (shop.act id act).2.described := by
  cases act with
  | load what =>
    show shop.described ⊆ (shop.load id what).2.described
    rw [load_eq]
    cases (shop.session id).model.loaded shop.registry what <;> exact List.Subset.refl _
  | ask question =>
    let ev := shop.evaluation id
    exact (Plan.run_advances (ev.answer_advances (ev.depth 0)) (question.plan ev)
      (shop.state id)).described.subset

theorem described_acts (acts : List Act) :
    shop.described ⊆ (Workshop.acts id acts shop).2.described := by
  induction acts generalizing shop with
  | nil => exact List.Subset.refl _
  | cons act rest ih => exact List.Subset.trans (described_act act) ih

/-- No act changes the registry, the backend or where answers are cached. -/
theorem act_setup (shop : Workshop) (id : Nat) (act : Act) : (shop.act id act).2.registry = shop.registry ∧
    (shop.act id act).2.backend = shop.backend ∧ (shop.act id act).2.scope = shop.scope := by
  cases act with
  | load what =>
    show (shop.load id what).2.registry = shop.registry ∧ (shop.load id what).2.backend = _ ∧
      (shop.load id what).2.scope = _
    rw [load_eq]
    cases (shop.session id).model.loaded shop.registry what <;> exact ⟨rfl, rfl, rfl⟩
  | ask question => exact ⟨registry_setState _ _ _, backend_setState _ _ _, scope_setState _ _ _⟩

theorem caching_act (act : Act) : (shop.act id act).2.caching = shop.caching := by
  rw [caching, caching, (shop.act_setup id act).2.2]

theorem acts_setup (acts : List Act) : (Workshop.acts id acts shop).2.backend = shop.backend ∧
    (Workshop.acts id acts shop).2.scope = shop.scope := by
  induction acts generalizing shop with
  | nil => exact ⟨rfl, rfl⟩
  | cons act rest ih =>
    obtain ⟨-, hbackend, hscope⟩ := shop.act_setup id act
    exact ⟨ih.1.trans hbackend, ih.2.trans hscope⟩

theorem Sound.act (h : shop.Sound id) (hblind : shop.backend.Blind) (act : Act)
    (hlog : shop.caching = true → Description.Exact (shop.act id act).2.described) :
    (shop.act id act).2.Sound id := by
  cases act with
  | load what => exact h.load what
  | ask question => exact (h.ask hblind question rfl hlog).1

theorem Sound.acts (h : shop.Sound id) (hblind : shop.backend.Blind) (acts : List Act)
    (hlog : shop.caching = true → Description.Exact (Workshop.acts id acts shop).2.described) :
    (Workshop.acts id acts shop).2.Sound id := by
  induction acts generalizing shop with
  | nil => exact h
  | cons act rest ih =>
    have hact := h.act hblind act fun hc => (hlog hc).mono (described_acts rest)
    refine ih hact ?_ fun hc => hlog ((caching_act act).symm.trans hc)
    rw [(shop.act_setup id act).2.1]
    exact hblind

end Workshop

/-! ## Without a cache -/

namespace Workshop

variable (registry : Registry) (failing : List String) (id : Nat)

/-- Without a cache, the answer to a question is the one that a session gives which has only
loaded the same, and was asked nothing else. -/
theorem answer_without_history (acts : List Act) (q : Question) :
    let start := create registry (Symbolic.backend failing) .disabled
    SameOutcome (q.Related BuildResult.Alike)
      ((Workshop.acts id acts start).2.ask id 0 q.plan).1
      ((Workshop.acts id (acts.filter Act.isLoad) start).2.ask id 0 q.plan).1 := by
  intro start
  have hblind : start.backend.Blind := Symbolic.backend_blind failing
  have hstart : start.Sound id := create_sound _ _ _ _
  have hnever : ∀ acts, (Workshop.acts id acts start).2.caching = false := by
    intro acts
    rw [caching, (acts_setup acts).2]
    rfl
  have hsound : ∀ acts, (Workshop.acts id acts start).2.Sound id := fun acts =>
    hstart.acts hblind acts nofun
  have htwins := twins_loads acts (Twins.refl id start)
  refine (hsound acts).ask_same (hsound _) htwins.model htwins.backend ?_ q
    (fun hc => ?_) (fun hc => ?_)
  · rw [(acts_setup acts).1]
    exact hblind
  · rw [hnever] at hc
    cases hc
  · rw [hnever] at hc
    cases hc

/-! ## With and without a cache -/

/-- Two sessions that start with the same names respond the same. -/
theorem acts_same {shop shop' : Workshop} {id : Nat} (h : shop.Sound id) (h' : shop'.Sound id)
    (htwins : Twins id shop shop') (hblind : shop.backend.Blind) (acts : List Act)
    (hlog : shop.caching = true → Description.Exact (Workshop.acts id acts shop).2.described)
    (hlog' : shop'.caching = true → Description.Exact (Workshop.acts id acts shop').2.described) :
    List.Forall₂ Response.Same (Workshop.acts id acts shop).1 (Workshop.acts id acts shop').1 := by
  induction acts generalizing shop shop' with
  | nil => exact .nil
  | cons act rest ih =>
    have hact : shop.caching = true → Description.Exact (shop.act id act).2.described :=
      fun hc => (hlog hc).mono (described_acts rest)
    have hact' : shop'.caching = true → Description.Exact (shop'.act id act).2.described :=
      fun hc => (hlog' hc).mono (described_acts rest)
    have hblind' : shop'.backend.Blind := htwins.backend ▸ hblind
    refine .cons ?_ (ih (h.act hblind act hact) (h'.act hblind' act hact') (htwins.act act) ?_
      (fun hc => hlog ((caching_act act).symm.trans hc))
      (fun hc => hlog' ((caching_act act).symm.trans hc)))
    · cases act with
      | load what =>
        show Response.Same (.loaded (shop.load id what).1) (.loaded (shop'.load id what).1)
        rw [(htwins.load what).1]
        exact .loaded _
      | ask q => exact .answered (h.ask_same h' htwins.model htwins.backend hblind q hact hact')
    · rw [(shop.act_setup id act).2.1]
      exact hblind

/-- A session with a cache responds like one without, if the identities of what it describes
tell apart what the backend can. -/
theorem cache_transparent (scope : CacheScope) (acts : List Act)
    (hexact : Description.Exact
      (Workshop.acts id acts (create registry (Symbolic.backend failing) scope)).2.described) :
    List.Forall₂ Response.Same
      (Workshop.acts id acts (create registry (Symbolic.backend failing) scope)).1
      (Workshop.acts id acts (create registry (Symbolic.backend failing) .disabled)).1 := by
  have hcached := create_sound registry (Symbolic.backend failing) scope id
  have huncached := create_sound registry (Symbolic.backend failing) .disabled id
  have hnever : (create registry (Symbolic.backend failing) .disabled).caching ≠ true :=
    Bool.false_ne_true
  exact acts_same hcached huncached ⟨rfl, rfl, rfl⟩ (Symbolic.backend_blind failing) acts
    (fun _ => hexact) fun hc => absurd hc hnever

/-- Two equal spheres, for which one cache entry answers. -/
def equalSpheres : List Act :=
  [.load (.script "a=Sphere([0,0,0],1);b=Sphere([0,0,0],1);"),
   .ask (.build "a"), .ask (.build "b")]

/-- What both are described by. -/
def sphereDescription : Description := .feature "Sphere" [.vector ⟨0, 0, 0⟩, .scalar 1]

set_option maxRecDepth 100000 in
theorem cache_transparent_equal_spheres :
    Description.Exact (Workshop.acts 0 equalSpheres
      (create Catalog.registry (Symbolic.backend []) .session)).2.described ∧
    List.Forall₂ Response.Same
      (Workshop.acts 0 equalSpheres (create Catalog.registry (Symbolic.backend []) .session)).1
      (Workshop.acts 0 equalSpheres (create Catalog.registry (Symbolic.backend []) .disabled)).1 := by
  have hall : ∀ d ∈ (Workshop.acts 0 equalSpheres
      (create Catalog.registry (Symbolic.backend []) .session)).2.described, d.Fits ∧
        d.stream = sphereDescription.stream ∧ d.numbers = sphereDescription.numbers := by
    decide +kernel
  have hexact : Description.Exact (Workshop.acts 0 equalSpheres
      (create Catalog.registry (Symbolic.backend []) .session)).2.described :=
    ⟨⟨fun d hd => (hall d hd).1,
      fun d hd d' hd' _ => (hall d hd).2.1.trans (hall d' hd').2.1.symm⟩,
      fun d hd d' hd' _ => (hall d hd).2.2.trans (hall d' hd').2.2.symm⟩
  exact ⟨hexact, cache_transparent _ _ _ _ _ hexact⟩

/-- Two boxes that differ in the sign of a zero, and so have one identity. -/
def zeroSigns : List Act :=
  [.load (.script "a = Box([0, 0, 0], [1, 1, 1]); b = Box([-0, 0, 0], [1, 1, 1]);"),
   .ask (.build "a"), .ask (.build "b")]

/-- The points of the results among responses. -/
def resultPoints : Response → List (String × Vec3)
  | .answered (.build _) (.ok result) => result.points
  | _ => []

theorem resultPoints_same {r r' : Response} (h : r.Same r') : resultPoints r = resultPoints r' := by
  cases h with
  | loaded _ => rfl
  | @answered q o o' h =>
    cases q with
    | build name =>
      cases o <;> cases o'
      · rfl
      · rename_i e _
        cases e <;> exact h.elim
      · exact h.elim
      · exact BuildResult.Alike.points h
    | _ => rfl

set_option maxRecDepth 100000 in
/-- A cache answers for both boxes with the points of the first. -/
theorem cache_confuses_zero_signs :
    ¬ List.Forall₂ Response.Same
      (Workshop.acts 0 zeroSigns (create Catalog.registry (Symbolic.backend []) .session)).1
      (Workshop.acts 0 zeroSigns (create Catalog.registry (Symbolic.backend []) .disabled)).1 := by
  intro h
  have hpoints : ∀ {rs rs' : List Response}, List.Forall₂ Response.Same rs rs' →
      rs.map resultPoints = rs'.map resultPoints := by
    intro rs rs' hrs
    induction hrs with
    | nil => rfl
    | cons hr _ ih => rw [List.map_cons, List.map_cons, resultPoints_same hr, ih]
  exact absurd (hpoints h) (by decide +kernel)

end Workshop

end PartScript
