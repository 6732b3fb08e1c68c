/-
  What is remembered suffices to evaluate again. Once a feature has its identity, its
  arguments can be evaluated from what is remembered alone: no feature is identified or built
  for it, and every evaluation gives the same arguments again. This holds with any backend,
  with and without a cache, and after any further evaluation.
-/
import PartScript.Proofs.Meaning

namespace PartScript

/-! ## Evaluation from what is remembered -/

/-- Whether a demand is for a value, which is evaluated anew each time. -/
def Demand.IsValue : Demand → Prop
  | .hash _ => False
  | .build _ => False
  | _ => True

/-- A plan has a value by what is remembered alone. -/
inductive Plan.Recalls (ev : Evaluation) (s : BuildState) : {α : Type} → Plan α → α → Prop where
  | done {α : Type} {a : α} : Recalls ev s (.done a) a
  | hash {α : Type} {f : Feature} {reported : Option String} {next : StructuralHash → Plan α}
      {h : StructuralHash} {a : α} : (s.feature f).hash? = some h → Recalls ev s (next h) a →
      Recalls ev s (.demand (.hash f) reported next) a
  | build {α : Type} {f : Feature} {reported : Option String} {next : BuildResult → Plan α}
      {r : BuildResult} {a : α} : (s.feature f).progress = .built r → Recalls ev s (next r) a →
      Recalls ev s (.demand (.build f) reported next) a
  | value {α : Type} {d : Demand} {reported : Option String} {next : d.Answer → Plan α}
      {x : d.Answer} {a : α} : d.IsValue → Recalls ev s (ev.plan d) x → Recalls ev s (next x) a →
      Recalls ev s (.demand d reported next) a
  | identify {α : Type} {d : Description} {next : StructuralHash → Plan α} {a : α} :
      d ∈ s.described → Recalls ev s (next d.hash) a → Recalls ev s (.identify d next) a

/-- The answer to a demand is remembered, or evaluated from what is remembered. -/
def Demand.Recalls (ev : Evaluation) (s : BuildState) : (d : Demand) → d.Answer → Prop
  | .hash f, h => (s.feature f).hash? = some h
  | .build f, r => (s.feature f).progress = .built r
  | .scalar user value, x => (ev.scalar user value).Recalls ev s x
  | .vector user value, v => (ev.vector user value).Recalls ev s v
  | .datum user value, x => (ev.datum user value).Recalls ev s x
  | .selection user value, t => (ev.selection user value).Recalls ev s t

/-- Everything remembered in one state is remembered in another. -/
structure BuildState.Remembers (s' s : BuildState) : Prop where
  hash? : ∀ {f h}, (s.feature f).hash? = some h → (s'.feature f).hash? = some h
  built : ∀ {f r}, (s.feature f).progress = .built r → (s'.feature f).progress = .built r
  described : s.described ⊆ s'.described

theorem BuildState.Advances.remembers {s s' : BuildState} (h : s.Advances s') :
    s'.Remembers s where
  hash? := fun hf => (h.feature _).hash? hf
  built := fun hf => (h.feature _).built hf
  described := h.described.subset

theorem BuildState.Remembers.trans {s s' s'' : BuildState} (h : s'.Remembers s)
    (h' : s''.Remembers s') : s''.Remembers s where
  hash? := fun hf => h'.hash? (h.hash? hf)
  built := fun hf => h'.built (h.built hf)
  described := List.Subset.trans h.described h'.described

/-- A change of one feature that takes back neither an identity nor a result. -/
theorem BuildState.Remembers.update (s : BuildState) (f : Feature)
    {change : FeatureState → FeatureState}
    (hhash : ∀ h, (s.feature f).hash? = some h → (change (s.feature f)).hash? = some h)
    (hbuilt : ∀ r, (s.feature f).progress = .built r → (change (s.feature f)).progress = .built r) :
    (s.update f change).Remembers s := by
  refine ⟨fun {g h} hh => ?_, fun {g r} hr => ?_, List.Subset.refl _⟩
  · rw [feature_update]
    split
    · next hfg =>
      rw [← s.feature_congr hfg] at hh ⊢
      exact hhash h hh
    · exact hh
  · rw [feature_update]
    split
    · next hfg =>
      rw [← s.feature_congr hfg] at hr ⊢
      exact hbuilt r hr
    · exact hr

namespace Plan.Recalls

variable {ev : Evaluation} {s s' : BuildState} {α β : Type}

theorem demand {d : Demand} {reported : Option String} {next : d.Answer → Plan α} {x : d.Answer}
    {a : α} (hd : d.Recalls ev s x) (h : (next x).Recalls ev s a) :
    (Plan.demand d reported next).Recalls ev s a := by
  cases d with
  | hash f => exact .hash hd h
  | build f => exact .build hd h
  | _ => exact .value True.intro hd h

theorem of_demand {d : Demand} {reported : Option String} {next : d.Answer → Plan α} {a : α}
    (h : (Plan.demand d reported next).Recalls ev s a) :
    ∃ x, d.Recalls ev s x ∧ (next x).Recalls ev s a := by
  cases h with
  | hash hh h => exact ⟨_, hh, h⟩
  | build hr h => exact ⟨_, hr, h⟩
  | value hv hx h =>
    refine ⟨_, ?_, h⟩
    cases d with
    | hash f => exact hv.elim
    | build f => exact hv.elim
    | _ => exact hx

theorem bind {p : Plan α} {f : α → Plan β} {a : α} {b : β} (h : p.Recalls ev s a)
    (hf : (f a).Recalls ev s b) : (p >>= f).Recalls ev s b := by
  change (p.andThen f).Recalls ev s b
  induction h with
  | done => exact hf
  | hash hh _ ih => exact .hash hh (ih hf)
  | build hr _ ih => exact .build hr (ih hf)
  | value hv hx _ _ ih => exact .value hv hx (ih hf)
  | identify hd _ ih => exact .identify hd (ih hf)

theorem of_bind {p : Plan α} {f : α → Plan β} {b : β} (h : (p >>= f).Recalls ev s b) :
    ∃ a, p.Recalls ev s a ∧ (f a).Recalls ev s b := by
  change (p.andThen f).Recalls ev s b at h
  induction p with
  | done a => exact ⟨a, .done, h⟩
  | stop e => cases h
  | demand d reported next ih =>
    obtain ⟨x, hx, h⟩ := of_demand h
    obtain ⟨a, ha, hf⟩ := ih x h
    exact ⟨a, demand hx ha, hf⟩
  | identify d next ih =>
    cases h with
    | identify hd h =>
      obtain ⟨a, ha, hf⟩ := ih _ h
      exact ⟨a, .identify hd ha, hf⟩

theorem mono {p : Plan α} {a : α} (h : p.Recalls ev s a) (hs : s'.Remembers s) :
    p.Recalls ev s' a := by
  induction h with
  | done => exact .done
  | hash hh _ ih => exact .hash (hs.hash? hh) ih
  | build hr _ ih => exact .build (hs.built hr) ih
  | value hv _ _ ihx ih => exact .value hv ihx ih
  | identify hd _ ih => exact .identify (hs.described hd) ih

theorem unique {p : Plan α} {a b : α} (ha : p.Recalls ev s a) (hb : p.Recalls ev s b) :
    a = b := by
  induction ha with
  | done =>
    cases hb
    rfl
  | hash hh _ ih =>
    obtain ⟨x, hx, hb⟩ := hb.of_demand
    obtain rfl := Option.some.inj (hh.symm.trans hx)
    exact ih hb
  | build hr _ ih =>
    obtain ⟨x, hx, hb⟩ := hb.of_demand
    obtain rfl := Progress.built.inj (hr.symm.trans hx)
    exact ih hb
  | @value α d reported next x a hv _ _ ihx ih =>
    obtain ⟨y, hy, hb⟩ := hb.of_demand
    cases d with
    | hash f => exact hv.elim
    | build f => exact hv.elim
    | _ =>
      obtain rfl := ihx hy
      exact ih hb
  | identify _ _ ih =>
    cases hb with
    | identify _ hb => exact ih hb

/-- What a plan promises of its value, where promises about answers are kept by what is
remembered. Selections are promised for expressions within a closed collection. -/
theorem ensures {A : (d : Demand) → d.Answer → Prop} {Q : α → Prop} {p : Plan α} {a : α}
    (h : p.Recalls ev s a) (hp : p.Ensures A (· ∈ s.described) Q)
    (hhash : ∀ f h, (s.feature f).hash? = some h → A (.hash f) h)
    (hbuild : ∀ f r, (s.feature f).progress = .built r → A (.build f) r)
    (hvalue : ∀ (d : Demand) (x : d.Answer), d.IsValue →
      (∀ Q', (ev.plan d).Ensures A (· ∈ s.described) Q' → Q' x) → A d x) : Q a := by
  induction h with
  | done =>
    cases hp with
    | done hq => exact hq
  | hash hh _ ih =>
    cases hp with
    | demand hnext => exact ih (hnext _ (hhash _ _ hh))
  | build hr _ ih =>
    cases hp with
    | demand hnext => exact ih (hnext _ (hbuild _ _ hr))
  | value hv _ _ ihx ih =>
    cases hp with
    | demand hnext => exact ih (hnext _ (hvalue _ _ hv fun Q' hQ' => ihx hQ'))
  | identify hd _ ih =>
    cases hp with
    | identify hnext => exact ih (hnext hd)

end Plan.Recalls

/-! ## Other evaluations that keep step -/

/-- What is remembered gives the same value to an evaluation that keeps step. -/
theorem Plan.Recalls.alongside {c : Pairing} (hc : c.Sound) (hB : c.B = Eq) {s : BuildState}
    {α : Type} {p : Plan α} {a : α} (h : p.Recalls c.ev s a) {user : Option String}
    {R : α → α → Prop} (hR : ∀ a a', R a a' → a = a') {known : List StructuralHash}
    {items : List Item} {p' : Plan α} (hp : p.Matches c user R known items p') :
    p'.Recalls c.ev' s a := by
  have hrel : ∀ (d : Demand) (x : d.Answer), d.Related c.B x x := fun d x =>
    .refl (fun _ => by rw [hB]) d x
  induction h generalizing known items user with
  | done =>
    cases hp with
    | done hr =>
      obtain rfl := hR _ _ hr
      exact .done
  | @hash _ f _ _ h _ hh _ ih =>
    cases hp with
    | demand _ _ hnext => exact .hash hh (ih hR (hnext h h (hrel (.hash f) h)))
  | @build _ f _ _ r _ hr _ ih =>
    cases hp with
    | demand _ _ hnext => exact .build hr (ih hR (hnext r r (hrel (.build f) r)))
  | @value _ d _ _ x _ hv _ _ ihx ih =>
    cases hp with
    | demand _ _ hnext =>
      refine .value hv ?_ (ih hR (hnext x x (hrel d x)))
      cases d with
      | hash f => exact hv.elim
      | build f => exact hv.elim
      | scalar user value => exact ihx (fun _ _ h => h) (Evaluation.scalar_matches hc user [] value)
      | vector user value => exact ihx (fun _ _ h => h) (Evaluation.vector_matches hc user [] value)
      | datum user value => exact ihx (fun _ _ h => h) (Evaluation.datum_matches hc user [] value)
      | selection user value =>
        refine ihx (fun t t' ht => ?_) (Evaluation.selection_matches hc user [] value)
        rw [hB] at ht
        exact ht.eq
  | identify hd _ ih =>
    cases hp with
    | identify _ hnext => exact .identify hd (ih hR (hnext _))

/-- What a model gives from what is remembered, every extension of it gives. -/
theorem Plan.Recalls.extends {ev : Evaluation} {M : Model} (hM : M.Extends ev.model)
    {s : BuildState} {α : Type} {p : Plan α} {a : α} (h : p.Recalls ev s a)
    {user : Option String} {R : α → α → Prop} (hR : ∀ a a', R a a' → a = a')
    {known : List StructuralHash} {items : List Item} {p' : Plan α}
    (hp : p.Matches (.extension ev M) user R known items p') :
    p'.Recalls { ev with model := M } s a :=
  h.alongside (Pairing.extension_complete hM).toSound rfl hR hp

/-! ## What is known of everything remembered -/

namespace Description

/-- Something with an identity has been described. -/
def Logged (log : List Description) (h : StructuralHash) : Prop := ∃ d ∈ log, d.hash = h

/-- Every description refers to identities of things described before it. The latest
description is the first of the list. -/
def InOrder : List Description → Prop
  | [] => True
  | d :: earlier => (∀ h ∈ d.refs, Logged earlier h) ∧ InOrder earlier

theorem Logged.mono {log log' : List Description} {h : StructuralHash} (hl : Logged log h)
    (hsub : log ⊆ log') : Logged log' h := by
  obtain ⟨d, hd, rfl⟩ := hl
  exact ⟨d, hsub hd, rfl⟩

end Description

namespace Evaluation

variable (ev : Evaluation) (fs : List Feature)

/-- What is remembered of a feature or its result. -/
def remembered (s : BuildState) : (d : Demand) → d.Answer → Prop
  | .hash f, h => (s.feature f).hash? = some h
  | .build f, r => (s.feature f).progress = .built r
  | _, _ => True

/-- A selection picks from the remembered result of a feature whose identity is remembered. -/
def Picks (s : BuildState) (t : Selection) : Prop :=
  ∃ reference r result, ResolvedFeature.Backed ev.model (remembered s) (· ∈ s.described)
    reference r ∧ r.root ∈ fs ∧ (s.feature r.root).progress = .built result ∧
    result.descend r.root.label r.path = .ok t.shape ∧ t.source = r.hash

/-- What is known of answers that are given from what is remembered. -/
def recalled (s : BuildState) : (d : Demand) → d.Answer → Prop
  | .hash f, h => (s.feature f).hash? = some h
  | .build f, r => (s.feature f).progress = .built r
  | .selection _ value, t => value.constructions ⊆ fs → Picks ev fs s t
  | _, _ => True

/-- Evaluated arguments are backed by what is remembered. -/
def Backed (s : BuildState) (args : List ResolvedArgument) : Prop :=
  ∀ a ∈ args, ResolvedArgument.Backed ev.model (remembered s) (· ∈ s.described) fs
    (Picks ev fs s) a

variable {ev fs}

theorem picks_stable (s : BuildState) :
    Selection.Stable ev.model (recalled ev fs s) (· ∈ s.described) fs fun _ => Picks ev fs s where
  query := fun reference r result _ _ _ _ hback hroot hresult hshape =>
    ⟨reference, r, result, ⟨hback.target, hback.identity⟩, hroot, hresult, hshape, rfl⟩
  union := fun _ _ _ _ h => h
  difference := fun _ _ _ _ h => h
  symbol := fun _ _ _ _ _ _ _ hsub h => h hsub

/-- Arguments that are given from what is remembered are backed by it. -/
theorem recalls_backed (hfs : Closed ev.model fs) {s : BuildState} {f : Feature} (hf : f ∈ fs)
    {args : List ResolvedArgument} (h : (ev.arguments f).Recalls ev s args) :
    ev.Backed fs s args := by
  have hargs := h.ensures (arguments_ensures hfs (picks_stable s) hf) (fun _ _ h => h)
    (fun _ _ h => h) (by
      intro d x hv hx
      cases d with
      | hash f => exact hv.elim
      | build f => exact hv.elim
      | selection user value =>
        exact fun hsub => hx _ (selection_ensures hfs (picks_stable s) user value hsub)
      | _ => exact True.intro)
  intro a ha
  have hback := hargs a ha
  cases a with
  | feature r =>
    obtain ⟨⟨reference, hr⟩, hroot⟩ := hback
    exact ⟨⟨reference, hr.target, hr.identity⟩, hroot⟩
  | selection t => exact hback
  | _ => exact True.intro

theorem recalls_arguments_length {s : BuildState} {f : Feature} {args : List ResolvedArgument}
    (h : (ev.arguments f).Recalls ev s args) : args.length = f.arguments.length :=
  h.ensures (A := fun _ _ => True) (arguments_length f) (fun _ _ _ => True.intro)
    (fun _ _ _ => True.intro) fun _ _ _ _ => True.intro

/-- What is known of everything remembered: an identity is that of arguments which are given
from what is remembered, a feature with a result has an identity, and descriptions refer to
what was described before. -/
structure Recollects (ev : Evaluation) (fs : List Feature) (s : BuildState) : Prop where
  identified : ∀ f ∈ fs, ∀ h, (s.feature f).hash? = some h →
    ∃ args, (ev.arguments f).Recalls ev s args ∧
      Description.feature f.typeName args ∈ s.described ∧
      h = (Description.feature f.typeName args).hash
  built : ∀ f ∈ fs, ∀ r, (s.feature f).progress = .built r → (s.feature f).hash? ≠ none
  inOrder : Description.InOrder s.described

namespace Recollects

variable {s s' : BuildState}

theorem logged (h : ev.Recollects fs s) {f : Feature} (hf : f ∈ fs) {g : StructuralHash}
    (hg : (s.feature f).hash? = some g) : Description.Logged s.described g := by
  obtain ⟨args, -, hd, rfl⟩ := h.identified f hf g hg
  exact ⟨_, hd, rfl⟩

/-- An identity that has just been answered is known like those known before. -/
theorem knows (h : ev.Recollects fs s) {d : Demand} (hd : d.constructions ⊆ fs) {x : d.Answer}
    (hx : d.Recalls ev s x) {known : List StructuralHash}
    (hknown : ∀ g ∈ known, Description.Logged s.described g) :
    ∀ g ∈ d.learn x ++ known, Description.Logged s.described g := by
  intro g hg
  rcases List.mem_append.mp hg with hg | hg
  · cases d with
    | hash f =>
      obtain rfl := List.mem_singleton.mp hg
      exact h.logged (hd f.mem_constructions) hx
    | _ => cases hg
  · exact hknown g hg

/-- What the arguments refer to has been described. -/
theorem refs_logged (h : ev.Recollects fs s) {args : List ResolvedArgument}
    (hargs : ev.Backed fs s args) (typeName : String) :
    ∀ g ∈ (Description.feature typeName args).refs, Description.Logged s.described g := by
  have hresolved : ∀ {r : ResolvedFeature} {reference : FeatureRef}, r.root ∈ fs →
      r.Backed ev.model (remembered s) (· ∈ s.described) reference →
      Description.Logged s.described r.hash := by
    intro r reference hroot hr
    obtain ⟨k, hk, ⟨-, heq⟩ | ⟨-, hd, heq⟩⟩ := hr.identity
    · rw [heq]
      exact h.logged hroot hk
    · exact ⟨_, hd, heq.symm⟩
  intro g hg
  obtain ⟨a, ha, hag⟩ := List.mem_filterMap.mp hg
  have hback := hargs a ha
  cases a with
  | feature r =>
    obtain rfl := Option.some.inj hag
    obtain ⟨⟨reference, hr⟩, hroot⟩ := hback
    exact hresolved hroot hr
  | selection t =>
    obtain rfl := Option.some.inj hag
    obtain ⟨reference, r, result, hr, hroot, -, -, heq⟩ := hback
    rw [heq]
    exact hresolved hroot hr
  | _ => cases hag

/-- Nothing but the marks of features has changed. -/
theorem congr (h : ev.Recollects fs s) (hhash : ∀ f, (s'.feature f).hash? = (s.feature f).hash?)
    (hbuilt : ∀ f r, (s'.feature f).progress = .built r ↔ (s.feature f).progress = .built r)
    (hdescribed : s'.described = s.described) : ev.Recollects fs s' := by
  have hrem : s'.Remembers s :=
    ⟨fun hf => (hhash _).trans hf, fun hf => (hbuilt _ _).mpr hf, hdescribed ▸ List.Subset.refl _⟩
  refine ⟨fun f hf g hg => ?_, fun f hf r hr => ?_, ?_⟩
  · rw [hhash] at hg
    obtain ⟨args, hargs, hd, heq⟩ := h.identified f hf g hg
    exact ⟨args, hargs.mono hrem, hrem.described hd, heq⟩
  · rw [hhash]
    exact h.built f hf r ((hbuilt f r).mp hr)
  · rw [hdescribed]
    exact h.inOrder

theorem setHashing (h : ev.Recollects fs s) (f : Feature) (b : Bool) :
    ev.Recollects fs (s.setHashing f b) := by
  refine h.congr (fun g => BuildState.hash?_setHashing s f g b) (fun g r => ?_) rfl
  rw [BuildState.progress_setHashing]

theorem setBuilding (h : ev.Recollects fs s) {f : Feature} (hp : (s.feature f).progress = .unbuilt) :
    ev.Recollects fs (s.setProgress f .building) := by
  refine h.congr (fun g => BuildState.hash?_setProgress s f g _) (fun g r => ?_) rfl
  rw [BuildState.progress_setProgress]
  split
  · next hfg =>
    rw [← s.feature_congr hfg, hp]
    simp
  · rfl

theorem hit (h : ev.Recollects fs s) : ev.Recollects fs s.hit :=
  h.congr (fun _ => rfl) (fun _ _ => Iff.rfl) rfl

theorem missed (h : ev.Recollects fs s) (caching : Bool) : ev.Recollects fs (s.missed caching) :=
  h.congr (fun _ => by rw [BuildState.feature_missed])
    (fun _ _ => by rw [BuildState.feature_missed]) (BuildState.described_missed s caching)

theorem invoked (h : ev.Recollects fs s) (caching : Bool) (f : Feature) (request : BuildRequest)
    (answer : BuildAnswer) : ev.Recollects fs (s.invoked caching f request answer) :=
  h.congr (fun _ => rfl) (fun _ _ => Iff.rfl) rfl

theorem describe (h : ev.Recollects fs s) {d : Description}
    (hd : ∀ g ∈ d.refs, Description.Logged s.described g) : ev.Recollects fs (s.describe d) := by
  have hrem := (BuildState.Advances.describe s d).remembers
  refine ⟨fun f hf g hg => ?_, h.built, hd, h.inOrder⟩
  obtain ⟨args, hargs, hmem, heq⟩ := h.identified f hf g hg
  exact ⟨args, hargs.mono hrem, hrem.described hmem, heq⟩

end Recollects

/-- Binding more names changes nothing of what is remembered. -/
theorem Recollects.extends {s : BuildState} (h : ev.Recollects fs s) {M : Model} (hM : M.Extends ev.model) :
    Recollects { ev with model := M } fs s := by
  refine ⟨fun f hf g hg => ?_, h.built, h.inOrder⟩
  obtain ⟨args, hargs, hd, heq⟩ := h.identified f hf g hg
  have hc := (Pairing.extension_complete hM).toSound
  refine ⟨args, hargs.extends hM (fun as as' has => ?_) (arguments_matches hc f []), hd, heq⟩
  exact ResolvedArgument.forall₂_eq has

/-! ## Every evaluation keeps to it -/

/-- The answers to a depth keep to what is known, and are remembered. -/
def RecollectsAt (ev : Evaluation) (fs : List Feature) (n : Nat) : Prop :=
  ∀ (d : Demand) (s : BuildState), d.constructions ⊆ fs → ev.Recollects fs s →
    ev.Recollects fs (ev.answer n d s).2 ∧
      ∀ a, (ev.answer n d s).1 = .ok a → d.Recalls ev (ev.answer n d s).2 a

variable {n : Nat}

theorem run_recollects (hfs : Closed ev.model fs) (hn : ev.RecollectsAt fs n)
    {user : Option String} {α : Type} {known : List StructuralHash} {items : List Item}
    {p : Plan α} (hp : p.Walks ev.model user known items) (hitems : ItemsWithin fs items)
    {s : BuildState} (hknown : ∀ g ∈ known, Description.Logged s.described g)
    (hs : ev.Recollects fs s) {o : Except Halt α} {s' : BuildState}
    (hr : p.run (ev.answer n) s = (o, s')) :
    ev.Recollects fs s' ∧ ∀ a, o = .ok a → p.Recalls ev s' a := by
  induction hp generalizing s with
  | done =>
    obtain ⟨rfl, rfl⟩ : _ = o ∧ s = s' := by simpa using hr
    refine ⟨hs, fun a ha => ?_⟩
    obtain rfl := Except.ok.inj ha
    exact .done
  | stop =>
    obtain ⟨rfl, rfl⟩ : _ = o ∧ s = s' := by simpa using hr
    refine ⟨hs, fun a ha => by cases ha⟩
  | @demand known item items d reported next hm _ ih =>
    have hd := hfs.makes (hitems item List.mem_cons_self) hm
    obtain ⟨hs1, hx1⟩ := hn d s hd hs
    have hadv := ev.answer_advances n d s
    rw [Plan.run_demand] at hr
    rcases hx : ev.answer n d s with ⟨h | x, s1⟩
    · rw [hx] at hr hs1
      obtain ⟨rfl, rfl⟩ : _ = o ∧ s1 = s' := by simpa using hr
      exact ⟨hs1, fun a ha => by cases ha⟩
    · rw [hx] at hr hs1 hx1 hadv
      have hr : (next x).run (ev.answer n) s1 = (o, s') := hr
      have hknown1 := hs1.knows hd (hx1 x rfl) fun g hg =>
        (hknown g hg).mono hadv.described.subset
      obtain ⟨hs', ha'⟩ := ih x (fun y hy => hitems y (List.mem_cons_of_mem _ hy)) hknown1 hs1 hr
      refine ⟨hs', fun a ha => ?_⟩
      have hadv' := Plan.run_advances (ev.answer_advances n) (next x) s1
      rw [hr] at hadv'
      refine .demand ?_ (ha' a ha)
      have hrem := hadv'.remembers
      cases d with
      | hash f => exact hrem.hash? (hx1 x rfl)
      | build f => exact hrem.built (hx1 x rfl)
      | _ => exact Plan.Recalls.mono (hx1 x rfl) hrem
  | @identify known items d next hrefs _ ih =>
    have hs1 := hs.describe fun g hg => hknown g (hrefs hg)
    obtain ⟨hs', ha'⟩ := ih d.hash hitems
      (fun g hg => (hknown g hg).mono (List.subset_cons_self _ _)) hs1 hr
    have hadv' := Plan.run_advances (ev.answer_advances n) (next d.hash) (s.describe d)
    rw [show (next d.hash).run (ev.answer n) (s.describe d) = (o, s') from hr] at hadv'
    exact ⟨hs', fun a ha => .identify (hadv'.mem_described List.mem_cons_self) (ha' a ha)⟩

section Entering

variable (hfs : Closed ev.model fs) (hn : ev.RecollectsAt fs n) {f : Feature} (hf : f ∈ fs)
  {s s' : BuildState} (hs : ev.Recollects fs s)
include hfs hn hf hs

/-- A feature that has been identified is identified by its arguments from then on. -/
theorem Fingerprints.identifies {x : StructuralHash × List ResolvedArgument}
    (h : Fingerprints ev (ev.answer n) f s (.ok x) s') :
    ev.Recollects fs s' ∧ (s'.feature f).hash? = some x.1 ∧
      (ev.arguments f).Recalls ev s' x.2 ∧ Description.feature f.typeName x.2 ∈ s'.described ∧
      x.1 = (Description.feature f.typeName x.2).hash := by
  obtain ⟨-, hx, t, hr, rfl⟩ := h.of_ok
  obtain ⟨ht, hargs⟩ := run_recollects hfs hn (ev.arguments_walks [] f) (hfs.items hf) (by simp)
    (hs.setHashing f true) hr
  have hargs := hargs _ rfl
  have hback := recalls_backed hfs hf hargs
  -- An identity that was remembered already is that of the same arguments.
  have hsame : ∀ g, g.origin = f.origin → (t.feature g).hash?.or
      (some (Description.feature f.typeName x.2).hash) =
        some (Description.feature f.typeName x.2).hash := by
    intro g hg
    rw [t.feature_congr hg]
    cases hh : (t.feature f).hash? with
    | none => rfl
    | some k =>
      obtain ⟨args, hargs', -, rfl⟩ := ht.identified f hf k hh
      rw [hargs'.unique hargs]
      rfl
  have hmid : ev.Recollects fs ((t.setHashing f false).describe (.feature f.typeName x.2)) := by
    refine (ht.setHashing f false).describe ?_
    rw [BuildState.described_setHashing]
    exact ht.refs_logged hback f.typeName
  have hrem : (t.identified f x.2).Remembers
      ((t.setHashing f false).describe (.feature f.typeName x.2)) :=
    .update _ f (fun k hk => by rw [hk]; rfl) fun _ hr => hr
  have hrem' : (t.identified f x.2).Remembers t :=
    ((BuildState.Remembers.update t f (fun _ hk => hk) fun _ hr => hr).trans
      (BuildState.Advances.describe _ _).remembers).trans hrem
  have hargs' := hargs.mono hrem'
  refine ⟨⟨?_, ?_, hmid.inOrder⟩, ?_, hargs', List.mem_cons_self, hx⟩
  · intro g hg k hk
    by_cases hfg : f.origin = g.origin
    · obtain rfl := hfs.unique f hf g hg hfg
      rw [BuildState.feature_identified, if_pos rfl] at hk
      have hk' : (t.feature f).hash?.or (some (Description.feature f.typeName x.2).hash) =
        some k := hk
      rw [hsame f rfl] at hk'
      exact ⟨x.2, hargs', List.mem_cons_self, (Option.some.inj hk').symm⟩
    · rw [BuildState.feature_identified, if_neg hfg] at hk
      obtain ⟨args, hargs, hmem, heq⟩ := ht.identified g hg k hk
      exact ⟨args, hargs.mono hrem', hrem'.described hmem, heq⟩
  · intro g hg r hr
    rw [BuildState.feature_identified] at hr ⊢
    split at hr
    · next hfg =>
      rw [if_pos hfg]
      simp
    · next hfg =>
      rw [if_neg hfg]
      exact ht.built g hg r hr
  · rw [BuildState.feature_identified, if_pos rfl, hx]
    exact hsame f rfl

theorem Fingerprints.recollects {o : Except Halt (StructuralHash × List ResolvedArgument)}
    (h : Fingerprints ev (ev.answer n) f s o s') : ev.Recollects fs s' := by
  cases o with
  | ok x => exact (h.identifies hfs hn hf hs).1
  | error e =>
    cases h with
    | entered _ => exact hs
    | stopped _ hr =>
      exact (run_recollects hfs hn (ev.arguments_walks [] f) (hfs.items hf) (by simp)
        (hs.setHashing f true) hr).1.setHashing f false

theorem Identifies.recollects {o : Except Halt StructuralHash}
    (h : Identifies ev (ev.answer n) f s o s') :
    ev.Recollects fs s' ∧ ∀ g, o = .ok g → (s'.feature f).hash? = some g := by
  cases h with
  | remembered hh =>
    refine ⟨hs, fun g hg => ?_⟩
    obtain rfl := Except.ok.inj hg
    exact hh
  | halted _ hp => exact ⟨hp.recollects hfs hn hf hs, fun g hg => by cases hg⟩
  | computed _ hp =>
    obtain ⟨hs', hh, -⟩ := hp.identifies hfs hn hf hs
    refine ⟨hs', fun g hg => ?_⟩
    obtain rfl := Except.ok.inj hg
    exact hh

/-- After the arguments have been evaluated, so have the features among them. -/
theorem inputs_recollects {x : StructuralHash × List ResolvedArgument} {t t' : BuildState}
    (h : Fingerprints ev (ev.answer n) f s (.ok x) t) (caching : Bool)
    {o : Except Halt (List Input)}
    (hr : (inputs (some f.label) x.2).run (ev.answer n) (t.missed caching) = (o, t')) :
    ev.Recollects fs t' := by
  obtain ⟨-, -, t0, hrun, -⟩ := h.of_ok
  exact (run_recollects hfs hn (inputs_walks ev (some f.label) x.2 [])
    (arguments_inputs_within hfs hf hrun) (by simp)
    ((h.recollects hfs hn hf hs).missed caching) hr).1

theorem BuildsAnew.recollects {o : Except Halt BuildResult}
    (h : BuildsAnew ev (ev.answer n) f s o s') :
    ev.Recollects fs s' ∧ ∀ r, o = .ok r → (s'.feature f).hash? ≠ none := by
  cases h with
  | unidentified hp => exact ⟨hp.recollects hfs hn hf hs, fun r hr => by cases hr⟩
  | recalled hp _ _ =>
    obtain ⟨hs', hh, -⟩ := hp.identifies hfs hn hf hs
    refine ⟨hs'.hit, fun r _ => ?_⟩
    rw [BuildState.feature_hit, hh]
    simp
  | starved hp _ hr => exact ⟨inputs_recollects hfs hn hf hs hp _ hr, fun r hr => by cases hr⟩
  | @invoked h args t ins t' answer hp _ hr _ =>
    have hadv := Plan.run_advances (ev.answer_advances n) (inputs (some f.label) args)
      (t.missed ev.caching)
    rw [hr] at hadv
    obtain ⟨-, hh, -⟩ := hp.identifies hfs hn hf hs
    refine ⟨(inputs_recollects hfs hn hf hs hp _ hr).invoked _ _ _ _, fun r _ => ?_⟩
    rw [BuildState.feature_invoked]
    have hkept := (hadv.feature f).hash? (h := h) (by rw [BuildState.feature_missed]; exact hh)
    rw [hkept]
    simp

theorem Builds.recollects {o : Except Halt BuildResult}
    (h : Builds ev (ev.answer n) f s o s') :
    ev.Recollects fs s' ∧ ∀ r, o = .ok r → (s'.feature f).progress = .built r := by
  cases h with
  | remembered hp =>
    refine ⟨hs, fun r hr => ?_⟩
    obtain rfl := Except.ok.inj hr
    exact hp
  | failed _ => exact ⟨hs, fun r hr => by cases hr⟩
  | entered _ => exact ⟨hs, fun r hr => by cases hr⟩
  | @anew _ t hp hb =>
    have hs1 := hs.setBuilding hp
    have hadv := hb.advances (ev.answer_advances n)
    obtain ⟨ht, hhash⟩ := hb.recollects hfs hn hf hs1
    have hbuilding : ∀ g, f.origin = g.origin → (t.feature g).progress = .building := by
      intro g hg
      refine (hadv.feature g).building ?_
      rw [BuildState.progress_setProgress, if_pos hg]
    have hrem : (t.setProgress f (progressAfter o)).Remembers t :=
      .update t f (fun _ hk => hk) fun r hr => by rw [hbuilding f rfl] at hr; cases hr
    refine ⟨⟨fun g hg k hk => ?_, fun g hg r hr => ?_, ht.inOrder⟩, fun r hr => ?_⟩
    · rw [BuildState.hash?_setProgress] at hk
      obtain ⟨args, hargs, hmem, heq⟩ := ht.identified g hg k hk
      exact ⟨args, hargs.mono hrem, hmem, heq⟩
    · rw [BuildState.progress_setProgress] at hr
      rw [BuildState.hash?_setProgress]
      split at hr
      · next hfg =>
        rw [t.feature_congr hfg.symm]
        exact hhash r (progressAfter_built hr)
      · exact ht.built g hg r hr
    · rw [BuildState.progress_setProgress, if_pos rfl, hr]
      rfl

end Entering

/-- What is remembered suffices to evaluate again, after every evaluation. -/
theorem recollects_at (hfs : Closed ev.model fs) (n : Nat) : ev.RecollectsAt fs n := by
  induction n with
  | zero => exact fun d s _ hs => ⟨hs, fun a ha => by cases ha⟩
  | succ n ih =>
    intro d s hd hs
    cases d with
    | hash f =>
      have hf := hd f.mem_constructions
      exact (hashOver_cases ev _ f s).recollects hfs ih hf hs
    | build f =>
      have hf := hd f.mem_constructions
      exact (buildOver_cases ev _ f s).recollects hfs ih hf hs
    | scalar user value =>
      exact run_recollects hfs ih (ev.scalar_walks user [] value) (value.items_within.mono hd)
        (by simp) hs rfl
    | vector user value =>
      exact run_recollects hfs ih (ev.vector_walks user [] value) (value.items_within.mono hd)
        (by simp) hs rfl
    | datum user value =>
      exact run_recollects hfs ih (ev.datum_walks user [] value) (value.items_within.mono hd)
        (by simp) hs rfl
    | selection user value =>
      exact run_recollects hfs ih (ev.selection_walks user [] value) (value.items_within.mono hd)
        (by simp) hs rfl

end Evaluation

end PartScript
