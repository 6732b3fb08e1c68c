/-
  Where errors come from. An answer fails because an evaluation stops, because an answer that
  it needs fails, because a construction is met again while it is under way, or because the
  backend refuses. Every construction under way depends on what is being evaluated, so meeting
  it again closes a cycle of dependencies. A failure that is remembered has such a reason too.
-/
import PartScript.Proofs.Dependencies

namespace PartScript

open Relation

/-! ## Ways to fail -/

/-- Answering a demand asks for an item: one of the value or of the arguments that are
evaluated, or the result of a construction that an argument refers to. -/
inductive Demand.Asks (M : Model) : Demand → Item → Prop where
  | value {d item} : item ∈ d.items → Asks M d item
  | hash {f item} : item ∈ f.items → Asks M (.hash f) item
  | build {f item} : item ∈ f.items → Asks M (.build f) item
  | input {f r root path} : Item.identity r ∈ f.items → M.target r = .ok (root, path) →
      Asks M (.build f) (.result (.inline root))

/-- The demand is for the identity or the result of a construction. -/
def Demand.Enters (d : Demand) (f : Feature) : Prop := d = .hash f ∨ d = .build f

/-- The answer to a demand can fail with an error. -/
inductive Demand.Fails (M : Model) : Demand → BuildError → Prop where
  | stop {d items e} : (∀ item ∈ items, d.Asks M item) → M.Explains items e → Fails M d e
  | input {d item user d' e} (reported : Option String) : d.Asks M item →
      item.Makes M user d' → Fails M d' e → Fails M d (e.asInput reported)
  | entered {d f} : d.Enters f → TransGen M.DependsOn f f →
      Fails M d (.circularDependency f.label)
  | refused (f : Feature) (source : BackendError) : Fails M (.build f) (.backend f.label source)

/-- Asking for items can fail with an error. -/
inductive Model.Fails (M : Model) (items : List Item) : BuildError → Prop where
  | stop {e} : M.Explains items e → Fails M items e
  | input {item user d e} (reported : Option String) : item ∈ items → item.Makes M user d →
      d.Fails M e → Fails M items (e.asInput reported)

namespace Model.Fails

variable {M : Model} {items more : List Item} {e : BuildError}

theorem mono (h : M.Fails items e) (hsub : items ⊆ more) : M.Fails more e := by
  cases h with
  | stop h => exact .stop (h.mono hsub)
  | input reported hitem hm hd => exact .input reported (hsub hitem) hm hd

/-- What is asked for to answer a demand is why the answer fails. -/
theorem demand (h : M.Fails items e) {d : Demand} (hasks : ∀ item ∈ items, d.Asks M item) :
    d.Fails M e := by
  cases h with
  | stop h => exact .stop hasks h
  | input reported hitem hm hd => exact .input reported (hasks _ hitem) hm hd

end Model.Fails

/-! ## Extensions of a model -/

section Extends

variable {M M' : Model} (hM : M'.Extends M)
include hM

theorem Model.target_ok_extends {r : FeatureRef} {t : Feature × List String}
    (h : M.target r = .ok t) : M'.target r = .ok t := by
  rcases Model.target_extends hM r with heq | ⟨e, he, -⟩
  · exact heq.trans h
  · cases he.symm.trans h

theorem Item.Makes.extends {user : Option String} {item : Item} {d : Demand}
    (h : item.Makes M user d) : item.Makes M' user d := by
  cases h with
  | scalar hb hv => exact .scalar (hM.binding? hb) hv
  | vector hb hv => exact .vector (hM.binding? hb) hv
  | datum hb hv => exact .datum (hM.binding? hb) hv
  | selection hb hv => exact .selection (hM.binding? hb) hv
  | identity ht => exact .identity (Model.target_ok_extends hM ht)
  | result ht => exact .result (Model.target_ok_extends hM ht)

theorem Demand.Asks.extends {d : Demand} {item : Item} (h : d.Asks M item) : d.Asks M' item := by
  cases h with
  | value hitem => exact .value hitem
  | hash hitem => exact .hash hitem
  | build hitem => exact .build hitem
  | input hr ht => exact .input hr (Model.target_ok_extends hM ht)

/-- Only an error that is deferred can go away when more names are bound. -/
theorem Model.Explains.extends {items : List Item} {e : BuildError} (h : M.Explains items e)
    (he : e.isDeferred = false) : M'.Explains items e where
  circular := fun hc => by
    obtain ⟨r, hr, hcyclic⟩ := h.circular hc
    exact ⟨r, hr, hcyclic.mono hM⟩
  blamed := fun kind name hblamed => by
    refine (h.blamed kind name hblamed).imp id (And.imp_right fun hlacks => ?_)
    rcases hlacks with ⟨-, hdeferred⟩ | ⟨b, hb, hkind⟩
    · cases he.symm.trans hdeferred
    · exact .inr ⟨b, hM.binding? hb, hkind⟩

theorem Demand.Fails.extends {d : Demand} {e : BuildError} (h : d.Fails M e)
    (he : e.isDeferred = false) : d.Fails M' e := by
  induction h with
  | stop hasks hexplains =>
    exact .stop (fun item hitem => (hasks item hitem).extends hM) (hexplains.extends hM he)
  | input reported hasks hm _ ih =>
    rw [BuildError.isDeferred, BuildError.rootCause_asInput] at he
    exact .input reported (hasks.extends hM) (hm.extends hM) (ih he)
  | entered hd hcycle =>
    exact .entered hd (TransGen.mono (fun _ _ => Model.Reaches.extends hM) _ _ hcycle)
  | refused f source => exact .refused f source

end Extends

/-! ## Evaluated arguments -/

namespace Evaluation

/-- The features among evaluated arguments are designated by references that the arguments
mention. -/
theorem arguments_references (ev : Evaluation) (f : Feature) :
    (ev.arguments f).Ensures (fun _ _ => True) (fun _ => True) fun args =>
      ∀ r, ResolvedArgument.feature r ∈ args → ∃ reference, Item.identity reference ∈ f.items ∧
        ev.model.target reference = .ok (r.root, r.path) := by
  have hone : ∀ (user : Option String) (a : Argument),
      (ev.argument user a).Ensures (fun _ _ => True) (fun _ => True) fun x =>
        ∀ r, x = .feature r → ∃ reference, Item.identity reference ∈ a.items ∧
          ev.model.target reference = .ok (r.root, r.path) := by
    intro user a
    cases a with
    | feature value =>
      refine (resolve_ensures user value).bind fun r hr => .done ?_
      rintro _ ⟨rfl⟩
      exact ⟨value, List.mem_cons_self, hr.target⟩
    | keyword word => exact .done nofun
    | scalar value => exact (Plan.Ensures.trivial _).bind fun x _ => .done nofun
    | vector value => exact (Plan.Ensures.trivial _).bind fun v _ => .done nofun
    | datum value => exact (Plan.Ensures.trivial _).bind fun d _ => .done nofun
    | selection value => exact (Plan.Ensures.trivial _).bind fun t _ => .done nofun
  have hlist : ∀ (user : Option String) (as : List Argument),
      (ev.argumentList user as).Ensures (fun _ _ => True) (fun _ => True) fun args =>
        ∀ r, ResolvedArgument.feature r ∈ args →
          ∃ reference, Item.identity reference ∈ Argument.itemsIn as ∧
            ev.model.target reference = .ok (r.root, r.path) := by
    intro user as
    induction as with
    | nil => exact .done (by simp)
    | cons a rest ih =>
      refine (hone user a).bind fun x hx => ih.bind fun xs hxs => .done fun r hr => ?_
      rcases List.mem_cons.mp hr with heq | hr
      · obtain ⟨reference, hmem, ht⟩ := hx r heq.symm
        exact ⟨reference, List.mem_append_left _ hmem, ht⟩
      · obtain ⟨reference, hmem, ht⟩ := hxs r hr
        exact ⟨reference, List.mem_append_right _ hmem, ht⟩
  exact hlist _ _

/-- What the inputs of a build mention is designated by a feature among them. -/
theorem inputItems_mentions {M : Model} {args : List ResolvedArgument} {r : FeatureRef}
    (h : M.Mentions (inputItems args) r) :
    ∃ value, ResolvedArgument.feature value ∈ args ∧ r = .inline value.root := by
  cases h with
  | identity h =>
    obtain ⟨_, _, heq⟩ := mem_inputItems h
    cases heq
  | result h =>
    obtain ⟨value, hmem, heq⟩ := mem_inputItems h
    exact ⟨value, hmem, Item.result.inj heq⟩
  | symbol h _ _ _ =>
    obtain ⟨_, _, heq⟩ := mem_inputItems h
    cases heq

/-- The inputs of a build mention only what its construction depends on. -/
theorem inputItems_depend {ev : Evaluation} {f g : Feature} {ask : Answers} {s t : BuildState}
    {args : List ResolvedArgument} (hr : (ev.arguments f).run ask s = (.ok args, t))
    (hg : ev.model.Reaches (inputItems args) g) : ev.model.DependsOn f g := by
  obtain ⟨r, path, hr', ht⟩ := hg
  obtain ⟨value, hmem, rfl⟩ := inputItems_mentions hr'
  obtain ⟨rfl, -⟩ := Prod.mk.inj (Except.ok.inj ht)
  obtain ⟨reference, hreference, htarget⟩ := (arguments_references ev f).run hr value hmem
  exact ⟨reference, value.path, .identity hreference, htarget⟩

end Evaluation

/-! ## Constructions under way -/

/-- What a demand leads to: the construction that is to be identified or built, or what the
value mentions. -/
def Demand.Leads (M : Model) : Demand → Feature → Prop
  | .hash f, g => f = g
  | .build f, g => f = g
  | d, g => M.Reaches d.items g

/-- A demand leads only where its item does. -/
theorem Item.Makes.leads {M : Model} {user : Option String} {item : Item} {d : Demand}
    (hm : item.Makes M user d) {g : Feature} (h : d.Leads M g) : M.Reaches [item] g := by
  cases hm with
  | @identity r root path ht =>
    obtain rfl : root = g := h
    exact ⟨r, path, .identity List.mem_cons_self, ht⟩
  | @result r root path ht =>
    obtain rfl : root = g := h
    exact ⟨r, path, .result List.mem_cons_self, ht⟩
  | @scalar _ b _ hb hv | @vector _ b _ hb hv | @datum _ b _ hb hv | @selection _ b _ hb hv =>
    obtain ⟨r, path, hr, ht⟩ := h
    refine ⟨r, path, .symbol List.mem_cons_self hb (congrArg BoundValue.kind hv) ?_, ht⟩
    rw [hv]
    exact hr

namespace Evaluation

/-- Every construction under way depends on all that `P` holds of. -/
def Pending (M : Model) (fs : List Feature) (s : BuildState) (P : Feature → Prop) : Prop :=
  ∀ f ∈ fs, (s.feature f).hashing = true ∨ (s.feature f).progress = .building →
    ∀ g, P g → TransGen M.DependsOn f g

namespace Pending

variable {M : Model} {fs : List Feature} {s s' : BuildState} {P Q : Feature → Prop} {f : Feature}

theorem advances (h : Pending M fs s P) (hs : s.Advances s') (hPQ : ∀ g, Q g → P g) :
    Pending M fs s' Q := by
  intro f hf hway g hg
  refine h f hf (hway.imp (fun hh => ?_) fun hb => ?_) g (hPQ g hg)
  · exact (hs.feature f).hashing.symm.trans hh
  · exact (hs.feature f).building_iff.mp hb

theorem resting (h : s.Resting) : Pending M fs s P := by
  intro f _ hway
  rcases hway with hh | hb
  · rw [(h f).1] at hh
    cases hh
  · exact absurd hb (h f).2

/-- A construction that is entered depends on what it depends on. -/
theorem enter (hfs : Closed M fs) (hf : f ∈ fs) {change : FeatureState → FeatureState}
    (h : Pending M fs s (M.DependsOn f)) : Pending M fs (s.update f change) (M.DependsOn f) := by
  intro g hg hway k hk
  rw [BuildState.feature_update] at hway
  split at hway
  · next hfg =>
    obtain rfl := hfs.unique f hf g hg hfg
    exact .single hk
  · exact h g hg hway k hk

/-- What leads to a construction under way closes a cycle. -/
theorem cycle (hf : f ∈ fs) (h : Pending M fs s (f = ·))
    (hway : (s.feature f).hashing = true ∨ (s.feature f).progress = .building) :
    TransGen M.DependsOn f f := h f hf hway f rfl

theorem depends (h : Pending M fs s (f = ·)) : Pending M fs s (M.DependsOn f) :=
  fun g hg hway _ hk => (h g hg hway f rfl).tail hk

end Pending

/-! ## Failures that are remembered -/

/-- Every failure that is remembered has a reason, and no name that is bound later takes it
away. -/
def Accounts (ev : Evaluation) (fs : List Feature) (s : BuildState) : Prop :=
  ∀ f ∈ fs, ∀ e, (s.feature f).progress = .failed e →
    e.isDeferred = false ∧ (Demand.build f).Fails ev.model e

/-- The answers to a depth fail for a reason. -/
def AccountsAt (ev : Evaluation) (fs : List Feature) (n : Nat) : Prop :=
  ∀ (d : Demand) (s : BuildState), d.constructions ⊆ fs → ev.Accounts fs s →
    Pending ev.model fs s (d.Leads ev.model) → ev.Accounts fs (ev.answer n d s).2 ∧
      ∀ e, (ev.answer n d s).1 = .error (.failed e) → d.Fails ev.model e

variable {ev : Evaluation} {fs : List Feature} {s s' : BuildState}

theorem Accounts.extends (h : ev.Accounts fs s) {M : Model} (hM : M.Extends ev.model) :
    Accounts { ev with model := M } fs s := fun f hf e he =>
  ⟨(h f hf e he).1, (h f hf e he).2.extends hM (h f hf e he).1⟩

namespace Accounts

theorem congr (h : ev.Accounts fs s)
    (hfailed : ∀ f e, (s'.feature f).progress = .failed e → (s.feature f).progress = .failed e) :
    ev.Accounts fs s' := fun f hf e he => h f hf e (hfailed f e he)

theorem setHashing (h : ev.Accounts fs s) (f : Feature) (b : Bool) :
    ev.Accounts fs (s.setHashing f b) := by
  refine h.congr fun g e he => ?_
  rwa [BuildState.progress_setHashing] at he

theorem identified (h : ev.Accounts fs s) (f : Feature) (args : List ResolvedArgument) :
    ev.Accounts fs (s.identified f args) := by
  refine h.congr fun g e he => ?_
  rwa [BuildState.progress_identified] at he

theorem setProgress (h : ev.Accounts fs s) (hfs : Closed ev.model fs) {f : Feature}
    (hf : f ∈ fs) {p : Progress}
    (hp : ∀ e, p = .failed e → e.isDeferred = false ∧ (Demand.build f).Fails ev.model e) :
    ev.Accounts fs (s.setProgress f p) := by
  intro g hg e he
  rw [BuildState.progress_setProgress] at he
  split at he
  · next hfg =>
    obtain rfl := hfs.unique f hf g hg hfg
    exact hp e he
  · exact h g hg e he

end Accounts

/-! ## Every failure has a reason -/

section Entering

variable {n : Nat} (hfs : Closed ev.model fs) (hn : ev.AccountsAt fs n)
include hfs hn

theorem run_accounts {user : Option String} {α : Type} {known : List StructuralHash}
    {items : List Item} {p : Plan α} (hp : p.Walks ev.model user known items)
    (hitems : ItemsWithin fs items) (hs : ev.Accounts fs s)
    (hpending : Pending ev.model fs s (ev.model.Reaches items)) {o : Except Halt α}
    (hr : p.run (ev.answer n) s = (o, s')) :
    ev.Accounts fs s' ∧ ∀ e, o = .error (.failed e) → ev.model.Fails items e := by
  induction hp generalizing s with
  | done =>
    obtain ⟨rfl, rfl⟩ : _ = o ∧ s = s' := by simpa using hr
    exact ⟨hs, nofun⟩
  | stop hexplains =>
    obtain ⟨rfl, rfl⟩ : _ = o ∧ s = s' := by simpa using hr
    refine ⟨hs, fun e he => ?_⟩
    cases he
    exact .stop hexplains
  | @demand known item items d reported next hm _ ih =>
    have hd := hfs.makes (hitems item List.mem_cons_self) hm
    have hleads : Pending ev.model fs s (d.Leads ev.model) :=
      hpending.advances (.refl s) fun g hg => Model.Reaches.cons_iff.mpr (.inl (hm.leads hg))
    obtain ⟨hs1, herror⟩ := hn d s hd hs hleads
    have hadv := ev.answer_advances n d s
    rw [Plan.run_demand] at hr
    rcases hx : ev.answer n d s with ⟨h | x, s1⟩
    · rw [hx] at hr hs1 herror
      obtain ⟨rfl, rfl⟩ : _ = o ∧ s1 = s' := by simpa using hr
      refine ⟨hs1, fun e he => ?_⟩
      obtain ⟨e', rfl, rfl⟩ := Halt.within_failed (Except.error.inj he)
      exact .input reported List.mem_cons_self hm (herror e' rfl)
    · rw [hx] at hr hs1 hadv
      have hrest := hpending.advances hadv (Q := ev.model.Reaches items) fun g hg =>
        Model.Reaches.cons_iff.mpr (.inr hg)
      obtain ⟨hs', herror'⟩ :=
        ih x (fun y hy => hitems y (List.mem_cons_of_mem _ hy)) hs1 hrest hr
      exact ⟨hs', fun e he => (herror' e he).mono (List.subset_cons_self _ _)⟩
  | @identify known items d next _ _ ih =>
    have hs1 : ev.Accounts fs (s.describe d) := hs.congr fun _ _ => id
    exact ih d.hash hitems hs1 (hpending.advances (.describe s d) fun _ => id) hr

variable {f : Feature} (hf : f ∈ fs) (hs : ev.Accounts fs s)
  (hpending : Pending ev.model fs s (ev.model.DependsOn f))
  (hentered : (s.feature f).hashing = true → TransGen ev.model.DependsOn f f)
include hf hs hpending hentered

/-- Identifying a construction fails as any demand does that enters it and asks for its
arguments. -/
theorem Fingerprints.accounts {o : Except Halt (StructuralHash × List ResolvedArgument)}
    (h : Fingerprints ev (ev.answer n) f s o s') :
    ev.Accounts fs s' ∧ ∀ e, o = .error (.failed e) → ∀ d : Demand, d.Enters f →
      (∀ item ∈ f.items, d.Asks ev.model item) → d.Fails ev.model e := by
  have hrun : ∀ {o t}, (ev.arguments f).run (ev.answer n) (s.setHashing f true) = (o, t) →
      ev.Accounts fs t ∧ ∀ e, o = .error (.failed e) → ev.model.Fails f.items e := fun hr =>
    run_accounts hfs hn (ev.arguments_walks [] f) (hfs.items hf) (hs.setHashing f true)
      (hpending.enter hfs hf) hr
  cases h with
  | entered hh =>
    refine ⟨hs, fun e he d hd _ => ?_⟩
    cases he
    exact .entered hd (hentered hh)
  | stopped _ hr =>
    obtain ⟨ht, herror⟩ := hrun hr
    refine ⟨ht.setHashing f false, fun e he d _ hasks => ?_⟩
    exact (herror e (congrArg Except.error (Except.error.inj he))).demand hasks
  | @finished args t _ hr => exact ⟨(hrun hr).1.identified f args, nofun⟩

theorem inputs_accounts {x : StructuralHash × List ResolvedArgument} {t t' : BuildState}
    (h : Fingerprints ev (ev.answer n) f s (.ok x) t) {o : Except Halt (List Input)}
    (hr : (inputs (some f.label) x.2).run (ev.answer n) (t.missed ev.caching) = (o, t')) :
    ev.Accounts fs t' ∧ ∀ e, o = .error (.failed e) → (Demand.build f).Fails ev.model e := by
  have hadv := (h.advances (ev.answer_advances n)).trans (.missed t ev.caching)
  have ht : ev.Accounts fs (t.missed ev.caching) :=
    (h.accounts hfs hn hf hs hpending hentered).1.congr fun g e he => by
      rwa [BuildState.feature_missed] at he
  obtain ⟨-, -, t0, hrun, -⟩ := h.of_ok
  have hreferences := (arguments_references ev f).run hrun
  obtain ⟨ht', herror⟩ := run_accounts hfs hn (inputs_walks ev (some f.label) x.2 [])
    (arguments_inputs_within hfs hf hrun) ht
    (hpending.advances hadv fun _ => inputItems_depend hrun) hr
  refine ⟨ht', fun e he => (herror e he).demand fun item hitem => ?_⟩
  obtain ⟨value, hmem, rfl⟩ := mem_inputItems hitem
  obtain ⟨reference, hreference, htarget⟩ := hreferences value hmem
  exact .input hreference htarget

theorem BuildsAnew.accounts {o : Except Halt BuildResult}
    (h : BuildsAnew ev (ev.answer n) f s o s') :
    ev.Accounts fs s' ∧ ∀ e, o = .error (.failed e) → (Demand.build f).Fails ev.model e := by
  have hanswer : ∀ (answer : BuildAnswer) (e : BuildError),
      outcomeOf f answer = .error (.failed e) → (Demand.build f).Fails ev.model e := by
    intro answer e he
    cases answer <;> cases he
    exact .refused f _
  cases h with
  | unidentified hp =>
    obtain ⟨ht, herror⟩ := hp.accounts hfs hn hf hs hpending hentered
    refine ⟨ht, fun e he => ?_⟩
    exact herror e (congrArg Except.error (Except.error.inj he)) _ (.inr rfl) fun _ => .build
  | @recalled _ _ t answer hp _ _ =>
    have ht := (hp.accounts hfs hn hf hs hpending hentered).1
    exact ⟨ht.congr fun _ _ => id, hanswer answer⟩
  | starved hp _ hr =>
    obtain ⟨ht, herror⟩ := inputs_accounts hfs hn hf hs hpending hentered hp hr
    exact ⟨ht, fun e he => herror e (congrArg Except.error (Except.error.inj he))⟩
  | @invoked _ _ _ _ t' answer hp _ hr _ =>
    have ht := (inputs_accounts hfs hn hf hs hpending hentered hp hr).1
    exact ⟨ht.congr fun _ _ => id, hanswer answer⟩

end Entering

theorem Identifies.accounts {n : Nat} (hfs : Closed ev.model fs) (hn : ev.AccountsAt fs n)
    {f : Feature} (hf : f ∈ fs) (hs : ev.Accounts fs s)
    (hpending : Pending ev.model fs s (f = ·)) {o : Except Halt StructuralHash}
    (h : Identifies ev (ev.answer n) f s o s') :
    ev.Accounts fs s' ∧ ∀ e, o = .error (.failed e) → (Demand.hash f).Fails ev.model e := by
  have hentered : (s.feature f).hashing = true → TransGen ev.model.DependsOn f f :=
    fun hh => hpending.cycle hf (.inl hh)
  cases h with
  | remembered _ => exact ⟨hs, nofun⟩
  | halted _ hp =>
    obtain ⟨ht, herror⟩ := hp.accounts hfs hn hf hs hpending.depends hentered
    refine ⟨ht, fun e he => ?_⟩
    exact herror e (congrArg Except.error (Except.error.inj he)) _ (.inl rfl) fun _ => .hash
  | computed _ hp =>
    exact ⟨(hp.accounts hfs hn hf hs hpending.depends hentered).1, nofun⟩

theorem Builds.accounts {n : Nat} (hfs : Closed ev.model fs) (hn : ev.AccountsAt fs n)
    {f : Feature} (hf : f ∈ fs) (hs : ev.Accounts fs s)
    (hpending : Pending ev.model fs s (f = ·)) {o : Except Halt BuildResult}
    (h : Builds ev (ev.answer n) f s o s') :
    ev.Accounts fs s' ∧ ∀ e, o = .error (.failed e) → (Demand.build f).Fails ev.model e := by
  cases h with
  | remembered _ => exact ⟨hs, nofun⟩
  | @failed e hp =>
    refine ⟨hs, fun e' he' => ?_⟩
    cases he'
    exact (hs f hf e hp).2
  | entered hp =>
    refine ⟨hs, fun e he => ?_⟩
    cases he
    exact .entered (.inr rfl) (hpending.cycle hf (.inr hp))
  | @anew _ t hp hb =>
    have hentered : ((s.setProgress f .building).feature f).hashing = true →
        TransGen ev.model.DependsOn f f := by
      intro hh
      rw [BuildState.hashing_setProgress] at hh
      exact hpending.cycle hf (.inl hh)
    have hs1 : ev.Accounts fs (s.setProgress f .building) :=
      hs.setProgress hfs hf fun e he => by cases he
    obtain ⟨ht, herror⟩ := hb.accounts hfs hn hf hs1 (hpending.depends.enter hfs hf) hentered
    refine ⟨ht.setProgress hfs hf fun e he => ?_, herror⟩
    obtain ⟨rfl, hdefinite⟩ := progressAfter_failed he
    exact ⟨hdefinite, herror e rfl⟩

/-- Every answer fails for a reason. -/
theorem accounts_at (hfs : Closed ev.model fs) (n : Nat) : ev.AccountsAt fs n := by
  induction n with
  | zero => exact fun d s _ hs _ => ⟨hs, nofun⟩
  | succ n ih =>
    intro d s hd hs hpending
    -- A value fails for what its expression asks for.
    have hvalue : ∀ {α : Type} {user : Option String} {p : Plan α} {o : Except Halt α}
        {t : BuildState}, p.Walks ev.model user [] d.items →
        Pending ev.model fs s (ev.model.Reaches d.items) → p.run (ev.answer n) s = (o, t) →
        ev.Accounts fs t ∧ ∀ e, o = .error (.failed e) → d.Fails ev.model e := by
      intro α user p o t hwalks hpending hr
      obtain ⟨ht, herror⟩ := run_accounts hfs ih hwalks (d.items_within.mono hd) hs hpending hr
      exact ⟨ht, fun e he => (herror e he).demand fun _ => .value⟩
    cases d with
    | hash f =>
      exact (hashOver_cases ev _ f s).accounts hfs ih (hd f.mem_constructions) hs hpending
    | build f =>
      exact (buildOver_cases ev _ f s).accounts hfs ih (hd f.mem_constructions) hs hpending
    | scalar user value => exact hvalue (ev.scalar_walks user [] value) hpending rfl
    | vector user value => exact hvalue (ev.vector_walks user [] value) hpending rfl
    | datum user value => exact hvalue (ev.datum_walks user [] value) hpending rfl
    | selection user value => exact hvalue (ev.selection_walks user [] value) hpending rfl

end Evaluation

end PartScript
