/-
  Names and sharing leave no trace in answers. Two sessions without a cache whose models say the
  same in other words give the same values, identities, selections and construction terms to
  queries that say the same, whatever each of them has been asked before.
-/
import PartScript.Proofs.Histories
import PartScript.Proofs.Reworded
import PartScript.Proofs.Workbench

namespace PartScript

/-! ## Queries that say the same -/

/-- Queries about names, expressions, references and constructions that say the same. -/
inductive Query.Reworded (w : Rewording) : Query → Query → Prop where
  | scalar {name name'} : (ScalarExpr.symbol name).Reworded w (.symbol name') →
      Reworded w (.named (.scalar name)) (.named (.scalar name'))
  | vector {name name'} : (VectorExpr.symbol name).Reworded w (.symbol name') →
      Reworded w (.named (.vector name)) (.named (.vector name'))
  | datum {name name'} : (DatumExpr.symbol name).Reworded w (.symbol name') →
      Reworded w (.named (.datum name)) (.named (.datum name'))
  | selection {name name'} : (SelectionExpr.symbol name).Reworded w (.symbol name') →
      Reworded w (.named (.selection name)) (.named (.selection name'))
  | hash {name name'} : (FeatureRef.named name).Reworded w (.named name') →
      Reworded w (.named (.hash name)) (.named (.hash name'))
  | build {name name'} : (FeatureRef.named name).Reworded w (.named name') →
      Reworded w (.named (.build name)) (.named (.build name'))
  | value {d d'} (isValue : d.IsValue) (isValue' : d'.IsValue) : d.Reworded w d' →
      Reworded w (.value d isValue) (.value d' isValue')
  | resolve {r r'} : r.Reworded w r' → Reworded w (.resolve r) (.resolve r')
  | shape {r r'} : r.Reworded w r' → Reworded w (.shape r) (.shape r')
  | identity {f f'} : f.Reworded w f' → Reworded w (.identity f) (.identity f')
  | result {f f'} : f.Reworded w f' → Reworded w (.result f) (.result f')

namespace Query

/-- Answers to two queries of one kind that are the same: results but for the numbers of
backend invocations, selections but for the label of their feature, and what references
designate by path and identity. -/
def SameAnswer : (q q' : Query) → q.Answer → q'.Answer → Prop
  | .named (.scalar _), .named (.scalar _), x, x' => x = x'
  | .named (.vector _), .named (.vector _), v, v' => v = v'
  | .named (.datum _), .named (.datum _), d, d' => d = d'
  | .named (.selection _), .named (.selection _), t, t' => t.Alike t'
  | .named (.hash _), .named (.hash _), h, h' => h = h'
  | .named (.build _), .named (.build _), r, r' => r.Alike r'
  | .value d _, .value d' _, a, a' => d.SameAnswer d' a a'
  | .resolve _, .resolve _, x, x' => x.path = x'.path ∧ x.hash = x'.hash
  | .shape _, .shape _, r, r' => r.Alike r'
  | .identity _, .identity _, h, h' => h = h'
  | .result _, .result _, r, r' => r.Alike r'
  | _, _, _, _ => False

variable {w : Rewording} {q q' : Query}

theorem Reworded.lasting (h : q.Reworded w q') : q.Lasting ∧ q'.Lasting := by
  cases h <;> exact ⟨True.intro, True.intro⟩

end Query

/-! ## The same answers -/

section SameAnswers

variable {w : Rewording}

theorem Selection.Alike.of_related {s t s' t' : Selection}
    (hs : s.Related BuildResult.Alike t) (h : t.Alike t')
    (hs' : s'.Related BuildResult.Alike t') : s.Alike s' where
  source := hs.source.trans (h.source.trans hs'.source.symm)
  kind := hs.kind.trans (h.kind.trans hs'.kind.symm)
  ids := hs.ids.trans (h.ids.trans hs'.ids.symm)
  shape := hs.shape.trans (h.shape.trans hs'.shape.symm)

/-- What is related to the same answers is the same. -/
theorem Demand.Reworded.of_related {d d' : Demand} (hd : d.Reworded w d') {a b : d.Answer}
    {a' b' : d'.Answer} (ha : d.Related BuildResult.Alike a b) (h : d.SameAnswer d' b b')
    (ha' : d'.Related BuildResult.Alike a' b') : d.SameAnswer d' a a' := by
  cases hd with
  | selection _ => exact Selection.Alike.of_related ha h ha'
  | build _ => exact BuildResult.Alike.trans ha (h.trans ha'.symm)
  | _ => exact Eq.trans ha (h.trans ha'.symm)

theorem Query.Reworded.of_related {q q' : Query} (hq : q.Reworded w q') {a b : q.Answer}
    {a' b' : q'.Answer} (ha : q.Related BuildResult.Alike a b) (h : q.SameAnswer q' b b')
    (ha' : q'.Related BuildResult.Alike a' b') : q.SameAnswer q' a a' := by
  cases hq with
  | selection _ => exact Selection.Alike.of_related ha h ha'
  | build _ => exact BuildResult.Alike.trans ha (h.trans ha'.symm)
  | shape _ => exact BuildResult.Alike.trans ha (h.trans ha'.symm)
  | result _ => exact BuildResult.Alike.trans ha (h.trans ha'.symm)
  | value _ _ hd => exact hd.of_related ha h ha'
  | resolve _ =>
    obtain rfl : a = b := ha
    obtain rfl : a' = b' := ha'
    exact h
  | _ => exact Eq.trans ha (h.trans ha'.symm)

variable {ev ev' : Evaluation} {q q' : Query} {n : Nat}

/-- A value of a query carries over to one that says the same. -/
theorem Query.Reworded.carries (hw : w.Evaluated ev ev') (hq : q.Reworded w q') (n : Nat) :
    (q.plan ev).Carries ev ev' n (q.SameAnswer q') (q'.plan ev') := by
  have hn := Evaluation.carries_at hw n
  have hdemand : ∀ {d d' : Demand}, d.Reworded w d' →
      (Plan.demand d none Plan.done).Carries ev ev' n (d.SameAnswer d')
        (.demand d' none Plan.done) :=
    fun hd => hn.demand hd none none fun _ _ h => .done h
  cases hq with
  | scalar h => exact Evaluation.scalar_carries hw hn none none h
  | vector h => exact Evaluation.vector_carries hw hn none none h
  | datum h => exact Evaluation.datum_carries hw hn none none h
  | selection h => exact Evaluation.selection_carries hw hn none none h
  | hash h =>
    refine (Evaluation.resolve_carries hw hn none none h).bind ?_
    rintro x x' ⟨-, -, hhash⟩
    exact .done hhash
  | build h => exact Evaluation.buildReference_carries hw hn none none h
  | value isValue isValue' hd =>
    cases hd with
    | scalar h => exact Evaluation.scalar_carries hw hn _ _ h
    | vector h => exact Evaluation.vector_carries hw hn _ _ h
    | datum h => exact Evaluation.datum_carries hw hn _ _ h
    | selection h => exact Evaluation.selection_carries hw hn _ _ h
    | hash h => exact isValue.elim
    | build h => exact isValue.elim
  | resolve h =>
    intro x hx
    obtain ⟨x', hx', -, hpath, hhash⟩ := Evaluation.resolve_carries hw hn none none h x hx
    exact ⟨x', hx', hpath, hhash⟩
  | shape h => exact Evaluation.buildReference_carries hw hn none none h
  | identity h => exact hdemand (.hash h)
  | result h => exact hdemand (.build h)

end SameAnswers

/-- An outcome of a plan that has a value is such a value. -/
theorem Plan.Meets.ok_of_settles {ev : Evaluation} {α : Type} {R : α → α → Prop} {p : Plan α}
    {o : Except Halt α} (h : p.Meets ev R o) (hended : o ≠ .error .exhausted) {b : α}
    (hb : p.Settles ev (.ok b)) : ∃ a, o = .ok a ∧ R a b := by
  cases o with
  | ok a =>
    obtain ⟨b', hb', hab⟩ := h
    obtain rfl := Except.ok.inj (hb'.unique hb)
    exact ⟨a, rfl, hab⟩
  | error halt =>
    cases halt with
    | exhausted => exact absurd rfl hended
    | failed e =>
      simp only [Plan.Meets] at h
      split at h
      · exact absurd h hb.not_loops
      · cases h.unique hb

/-! ## Models that are written out -/

instance (symbols : Symbols) (bs : List Binding) : Decidable (symbols.DeclaredBy bs) :=
  decidable_of_iff (∀ p ∈ symbols, ∃ b ∈ bs, b.name = p.2 ∧ b.value.kind = p.1)
    ⟨fun h kind name hmem => h (kind, name) hmem, fun h p hp => h p.1 p.2 hp⟩

/-- A model is well-scoped if every part of it is. -/
theorem Model.Proper.of_parts {registry : Registry} {M : Model}
    (horigins : ∀ f ∈ M.constructions, f.origin.number < M.sources)
    (hdistinct : (M.constructions.map (·.origin)).Nodup)
    (hregistered : ∀ f ∈ M.constructions, f.signature ∈
      (registry.find? f.typeName).map fun type => type.signatureOf f.arguments.length)
    (hnames : (M.bindings.map (·.name)).Nodup)
    (hfree : ∀ b ∈ M.bindings, isReserved b.name = false ∧ registry.contains b.name = false)
    (hbindings : ∀ i ∈ List.range M.bindings.length, ∀ b ∈ M.bindings[i]?,
      b.value.symbols.DeclaredBy (M.bindings.take i))
    (houtputs : ∀ output ∈ M.outputs, output.feature.symbols.DeclaredBy M.bindings) :
    M.Proper registry [] 0 where
  origins := fun f hf => Origin.isBefore_iff.mpr (horigins f (by simpa using hf))
  distinct := by simpa using hdistinct
  registered := fun f hf => by
    obtain ⟨type, hfind, hsignature⟩ := Option.map_eq_some_iff.mp (hregistered f hf)
    exact ⟨type, hfind, hsignature.symm⟩
  enclosed := nofun
  names := by
    refine ⟨hnames, hfree, fun before b after hsplit => ?_, houtputs⟩
    have hb := hbindings before.length (by simp [hsplit]) b (by simp [hsplit])
    simpa [hsplit] using hb

/-! ## Sessions without a cache -/

namespace Workshop

variable {shop shop' : Workshop} {id id' : Nat} {w : Rewording} {q q' : Query}

/-- Without a cache, a query about what a session has loaded is answered by what it means. -/
theorem Sound.meets (h : shop.Sound id) (hblind : shop.backend.Blind)
    (hnever : shop.scope = .disabled) (hq : q.Lasting)
    (hwithin : q.constructions ⊆ (shop.session id).model.constructions) :
    (shop.ask id 0 q.plan).1 ≠ .error .exhausted ∧
      (q.plan (shop.evaluation id)).Meets (shop.evaluation id) (q.Related BuildResult.Alike)
        (shop.ask id 0 q.plan).1 := by
  let ev := shop.evaluation id
  have hcovers : Covers shop.registry ev.model ev.model.constructions := h.proper.covers
  have hitems := q.items_within (List.Subset.refl ev.model.constructions) hwithin
  have hcaching : ev.caching ≠ true := by
    show shop.caching ≠ true
    simp [caching, hnever]
  constructor
  · obtain ⟨user, hwalks⟩ := q.plan_walks ev
    have hordered := Model.ordered_of_scoped h.proper.names
    exact Evaluation.answers_not_exhausted hcovers.closed hordered (Nat.le_add_right _ 0) hwalks
      hitems h.resting.ready
  · have hc : (Pairing.alike ev).Sound := (Pairing.alike_complete hblind).toSound
    obtain ⟨user, hmatches⟩ := q.plan_matches hc hq
    have hshare : ev.Shares ev.model.constructions
        ((q.plan ev).run (ev.answers 0) (shop.state id)).2.described :=
      Evaluation.shares_exact hcovers hblind fun hc => absurd hc hcaching
    exact (Evaluation.run_faithful hcovers.closed
      (Evaluation.faithful_at hcovers.closed hblind hshare _) hmatches hitems (by simp)
      (h.recollects _ hcovers) (h.faithful _ hcovers) (.resting h.resting) rfl
      (List.Subset.refl _)).2

/-- The second of two sessions whose models say the same answers what says the same alike. -/
theorem Sound.reworded (h : shop.Sound id) (h' : shop'.Sound id') (hw : w.Holds)
    (hfirst : (shop.session id).model = w.first) (hsecond : (shop'.session id').model = w.second)
    (hbackend : shop'.backend = shop.backend) (hblind : shop.backend.Blind)
    (hnever : shop.scope = .disabled) (hnever' : shop'.scope = .disabled)
    (hq : q.Reworded w q') (hwithin : q.constructions ⊆ w.first.constructions)
    (hwithin' : q'.constructions ⊆ w.second.constructions) {a : q.Answer}
    (ha : (shop.ask id 0 q.plan).1 = .ok a) :
    ∃ a', (shop'.ask id' 0 q'.plan).1 = .ok a' ∧ q.SameAnswer q' a a' := by
  obtain ⟨-, hmeets⟩ := h.meets hblind hnever hq.lasting.1 (hfirst ▸ hwithin)
  obtain ⟨hended, hmeets'⟩ :=
    h'.meets (hbackend ▸ hblind) hnever' hq.lasting.2 (hsecond ▸ hwithin')
  have hev : w.Evaluated (shop.evaluation id) (shop'.evaluation id') :=
    ⟨hw, hfirst, hsecond, hbackend, hblind⟩
  rw [ha] at hmeets
  obtain ⟨b, ⟨n, hb⟩, hab⟩ := hmeets
  obtain ⟨b', hb', hsame⟩ := hq.carries hev n b hb
  obtain ⟨a', ha', hab'⟩ := Plan.Meets.ok_of_settles hmeets' hended hb'
  exact ⟨a', ha', hq.of_related hab hsame hab'⟩

/-- A session with a symbolic backend and without a cache, in which a model has been loaded. -/
def holding (registry : Registry) (failing : List String) (M : Model) : Workshop :=
  (create registry (Symbolic.backend failing) .disabled).setModel 0 M

/-- Whatever is loaded and asked after a well-scoped model, the session stays sound. -/
theorem holding_sound {registry : Registry} (failing : List String) {M : Model}
    (hM : M.Proper registry [] 0) (history : List Act) :
    (Workshop.acts 0 history (holding registry failing M)).2.Sound 0 ∧
      (Workshop.acts 0 history (holding registry failing M)).2.backend = Symbolic.backend failing ∧
      (Workshop.acts 0 history (holding registry failing M)).2.scope = .disabled := by
  have hstart : (holding registry failing M).Sound 0 :=
    (create_sound registry (Symbolic.backend failing) .disabled 0).setModel hM
      ⟨List.nil_prefix, List.nil_prefix⟩
  have hnever : (holding registry failing M).caching ≠ true := Bool.false_ne_true
  exact ⟨hstart.acts (Symbolic.backend_blind failing) history fun hc => absurd hc hnever,
    (acts_setup history).1, (acts_setup history).2⟩

/-- Without a cache, whatever has been loaded and asked in two sessions: if their models say the
same, up to other names, expressions and constructions in the place of the names that stand for
them, and names in the place of these, then every answer of the first to a query is one of the
second to each query that says the same. -/
theorem answers_reworded (registry : Registry) (failing : List String) {M M' : Model}
    (hM : M.Proper registry [] 0) (hM' : M'.Proper registry [] 0) (history history' : List Act)
    {w : Rewording} (hw : w.Holds) :
    let shop := (Workshop.acts 0 history (holding registry failing M)).2
    let shop' := (Workshop.acts 0 history' (holding registry failing M')).2
    (shop.session 0).model = w.first → (shop'.session 0).model = w.second →
    ∀ q q' : Query, q.Reworded w q' → q.constructions ⊆ w.first.constructions →
      q'.constructions ⊆ w.second.constructions → ∀ a, (shop.ask 0 0 q.plan).1 = .ok a →
      ∃ a', (shop'.ask 0 0 q'.plan).1 = .ok a' ∧ q.SameAnswer q' a a' := by
  intro shop shop' hfirst hsecond q q' hq hwithin hwithin' a ha
  obtain ⟨hsound, hbackend, hscope⟩ := holding_sound failing hM history
  obtain ⟨hsound', hbackend', hscope'⟩ := holding_sound failing hM' history'
  refine hsound.reworded hsound' hw hfirst hsecond (hbackend'.trans hbackend.symm) ?_ hscope
    hscope' hq hwithin hwithin' ha
  rw [hbackend]
  exact Symbolic.backend_blind failing

/-- One more binding, of a name that is free. -/
def bound (M : Model) (name : String) (value : BoundValue) : Model :=
  (M.bind? ⟨name, value, ⟨0, 0, 0, 0⟩, ""⟩).getD M

/-- A construction of a built-in type. -/
def construction (type : FeatureType) (arguments : List Argument) (serial : Nat) : FeatureRef :=
  .inline (.construct type.name type.signature arguments (.made serial) none)

def origin : VectorExpr := .literal (.literal 0) (.literal 0) (.literal 0)

/-- A sphere, a compound that holds it twice, and the first of these moved by its center. -/
def shared : Model :=
  let r := bound .empty "r" (.scalar (.literal 2))
  let s := bound r "s" (.feature (construction Catalog.sphere [.vector origin,
    .scalar (.symbol "r")] 0))
  let c := bound s "c" (.feature (construction Catalog.compound
    [.feature (.named "s"), .feature (.named "s")] 1))
  let t := bound c "t" (.feature (construction Catalog.translate
    [.feature (.sub (.named "c") "parts0"), .vector (.point (.named "s") "center")] 2))
  { t with sources := 3 }

theorem shared_proper : shared.Proper Catalog.registry [] 0 :=
  .of_parts (by decide +kernel) (by decide +kernel) (by decide +kernel) (by decide +kernel)
    (by decide +kernel) (by decide +kernel) nofun

/-- The same under other names, with an alias of the sphere, and a copy of it in the compound. -/
def copied : Model :=
  let ball := bound .empty "ball" (.feature (construction Catalog.sphere [.vector origin,
    .scalar (.literal 2)] 0))
  let again := bound ball "again" (.feature (.named "ball"))
  let group := bound again "group" (.feature (construction Catalog.compound [.feature
    (.named "again"), .feature (construction Catalog.sphere [.vector origin,
      .scalar (.literal 2)] 1)] 2))
  let moved := bound group "moved" (.feature (construction Catalog.translate
    [.feature (.sub (.named "group") "parts0"), .vector (.point (.named "again") "center")] 3))
  { moved with sources := 4 }

theorem copied_proper : copied.Proper Catalog.registry [] 0 :=
  .of_parts (by decide +kernel) (by decide +kernel) (by decide +kernel) (by decide +kernel)
    (by decide +kernel) (by decide +kernel) nofun

/-- The names of the two that stand for the same. -/
def sharedNames : List (String × String) := [("s", "ball"), ("c", "group"), ("t", "moved")]

def sharedCopied : Rewording := ⟨shared, copied, fun name name' => (name, name') ∈ sharedNames⟩

theorem sharedCopied_holds : sharedCopied.Holds := by
  intro name name' b hname hb
  have horigin : VectorExpr.Reworded sharedCopied origin origin :=
    .literal (.literal 0) (.literal 0) (.literal 0)
  have hr : (ScalarExpr.symbol "r").Reworded sharedCopied (.literal 2) :=
    .unfolded rfl rfl (.literal 2)
  have hs : (FeatureRef.named "s").Reworded sharedCopied (.named "again") :=
    .folded rfl rfl (.renamed (List.mem_cons_self : _ ∈ sharedNames))
  simp only [sharedCopied, sharedNames, List.mem_cons, List.not_mem_nil, or_false, Prod.mk.injEq] at hname
  rcases hname with ⟨rfl, rfl⟩ | ⟨rfl, rfl⟩ | ⟨rfl, rfl⟩
  · obtain rfl := Option.some.inj hb
    refine ⟨_, rfl, .feature (.inline (.construct _ _ _ _ _ _ ?_))⟩
    exact .cons (.vector horigin) (.cons (.scalar hr) .nil)
  · obtain rfl := Option.some.inj hb
    have hcopy : (FeatureRef.named "s").Reworded sharedCopied
        (construction Catalog.sphere [.vector origin, .scalar (.literal 2)] 1) :=
      .unfolded rfl rfl (.inline (.construct _ _ _ _ _ _
        (.cons (.vector horigin) (.cons (.scalar hr) .nil))))
    refine ⟨_, rfl, .feature (.inline (.construct _ _ _ _ _ _ ?_))⟩
    exact .cons (.feature hs) (.cons (.feature hcopy) .nil)
  · obtain rfl := Option.some.inj hb
    refine ⟨_, rfl, .feature (.inline (.construct _ _ _ _ _ _ ?_))⟩
    have hc : (FeatureRef.named "c").Reworded sharedCopied (.named "group") :=
      .renamed (by decide : ("c", "group") ∈ sharedNames)
    exact .cons (.feature (.sub "parts0" hc)) (.cons (.vector (.point "center" hs)) .nil)

theorem answers_reworded_copied : ∃ result result',
    ((holding Catalog.registry [] shared).ask 0 0 fun ev => ev.buildNamed "t").1 = .ok result ∧
    ((holding Catalog.registry [] copied).ask 0 0 fun ev => ev.buildNamed "moved").1 = .ok result' ∧
      result.Alike result' := by
  have hok : ((holding Catalog.registry [] shared).ask 0 0 fun ev => ev.buildNamed "t").1.isOk =
      true := by decide +kernel
  obtain ⟨result, hresult⟩ : ∃ result,
      ((holding Catalog.registry [] shared).ask 0 0 fun ev => ev.buildNamed "t").1 = .ok result := by
    revert hok
    cases ((holding Catalog.registry [] shared).ask 0 0 fun ev => ev.buildNamed "t").1 with
    | ok result => exact fun _ => ⟨result, rfl⟩
    | error h => nofun
  have hquery : (Query.named (.build "t")).Reworded sharedCopied (.named (.build "moved")) :=
    .build (.renamed (by decide : ("t", "moved") ∈ sharedNames))
  obtain ⟨result', hresult', halike⟩ := answers_reworded Catalog.registry [] shared_proper
    copied_proper [] [] sharedCopied_holds rfl rfl (.named (.build "t")) (.named (.build "moved"))
    hquery (List.nil_subset _) (List.nil_subset _) result hresult
  exact ⟨result, result', hresult, hresult', halike⟩

end Workshop

end PartScript
