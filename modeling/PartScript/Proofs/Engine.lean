/-
  What identifying and building a feature can do, case by case, and what every evaluation
  leaves as it was: identities, results and failures once remembered stay, the marks of
  features under way are taken back, and the records of what was done only grow.
-/
import PartScript.Proofs.Plan
import PartScript.Build.Evaluation

namespace PartScript

/-! ## States -/

namespace BuildState

/-- Changes the state of a feature. -/
def update (s : BuildState) (f : Feature) (change : FeatureState → FeatureState) : BuildState :=
  s.setFeature f (change (s.feature f))

/-- Marks a feature as being identified, or not. -/
def setHashing (s : BuildState) (f : Feature) (hashing : Bool) : BuildState :=
  s.update f fun state => { state with hashing := hashing }

/-- Remembers the progress of a feature. -/
def setProgress (s : BuildState) (f : Feature) (progress : Progress) : BuildState :=
  s.update f fun state => { state with progress := progress }

/-- Records a description. -/
def describe (s : BuildState) (d : Description) : BuildState :=
  { s with described := d :: s.described }

/-- Records the description of a feature and remembers its identity, unless one is
remembered already. -/
def identified (s : BuildState) (f : Feature) (args : List ResolvedArgument) : BuildState :=
  ((s.setHashing f false).describe (.feature f.typeName args)).update f fun state =>
    { state with hash? := state.hash?.or (some (Description.feature f.typeName args).hash) }

/-- Counts a look into the cache that found an answer. -/
def hit (s : BuildState) : BuildState :=
  { s with cache := { s.cache with hits := s.cache.hits + 1 } }

/-- Counts a look into the cache that found no answer, where answers are cached. -/
def missed (s : BuildState) (caching : Bool) : BuildState :=
  if caching then { s with cache := { s.cache with misses := s.cache.misses + 1 } } else s

/-- Records an invocation of the backend, and its answer where answers are cached. -/
def invoked (s : BuildState) (caching : Bool) (f : Feature) (request : BuildRequest)
    (answer : BuildAnswer) : BuildState :=
  { s with
    cache := if caching then s.cache.countBuild.insert request.hash answer
      else s.cache.countBuild
    requests := s.requests ++ [(f.origin, request)] }

theorem feature_setFeature (s : BuildState) (f g : Feature) (state : FeatureState) :
    (s.setFeature f state).feature g = if f.origin = g.origin then state else s.feature g := by
  unfold feature setFeature
  rw [Table.get?_insert]
  split <;> rfl

theorem feature_congr (s : BuildState) {f g : Feature} (h : f.origin = g.origin) :
    s.feature f = s.feature g := by
  unfold feature
  rw [h]

theorem feature_update (s : BuildState) (f g : Feature)
    (change : FeatureState → FeatureState) :
    (s.update f change).feature g =
      if f.origin = g.origin then change (s.feature g) else s.feature g := by
  rw [update, feature_setFeature]
  split
  · next h => rw [s.feature_congr h]
  · rfl

@[simp] theorem feature_describe (s : BuildState) (d : Description) (g : Feature) :
    (s.describe d).feature g = s.feature g := rfl

@[simp] theorem feature_hit (s : BuildState) (g : Feature) : s.hit.feature g = s.feature g := rfl

@[simp] theorem feature_missed (s : BuildState) (caching : Bool) (g : Feature) :
    (s.missed caching).feature g = s.feature g := by
  unfold missed
  split <;> rfl

@[simp] theorem feature_invoked (s : BuildState) (caching : Bool) (f g : Feature)
    (request : BuildRequest) (answer : BuildAnswer) :
    (s.invoked caching f request answer).feature g = s.feature g := rfl

@[simp] theorem described_update (s : BuildState) (f : Feature)
    (change : FeatureState → FeatureState) : (s.update f change).described = s.described := rfl

@[simp] theorem described_setHashing (s : BuildState) (f : Feature) (b : Bool) :
    (s.setHashing f b).described = s.described := rfl

@[simp] theorem described_setProgress (s : BuildState) (f : Feature) (p : Progress) :
    (s.setProgress f p).described = s.described := rfl

@[simp] theorem described_identified (s : BuildState) (f : Feature)
    (args : List ResolvedArgument) :
    (s.identified f args).described = .feature f.typeName args :: s.described := rfl

@[simp] theorem described_missed (s : BuildState) (caching : Bool) :
    (s.missed caching).described = s.described := by
  unfold missed
  split <;> rfl

@[simp] theorem requests_missed (s : BuildState) (caching : Bool) :
    (s.missed caching).requests = s.requests := by
  unfold missed
  split <;> rfl

theorem feature_identified (s : BuildState) (f g : Feature) (args : List ResolvedArgument) :
    (s.identified f args).feature g =
      if f.origin = g.origin then
        { s.feature g with
          hashing := false
          hash? := (s.feature g).hash?.or (some (Description.feature f.typeName args).hash) }
      else s.feature g := by
  unfold identified setHashing
  rw [feature_update, feature_describe, feature_update]
  split <;> rfl

@[simp] theorem hash?_setProgress (s : BuildState) (f g : Feature) (p : Progress) :
    ((s.setProgress f p).feature g).hash? = (s.feature g).hash? := by
  rw [setProgress, feature_update]
  split <;> rfl

@[simp] theorem hash?_setHashing (s : BuildState) (f g : Feature) (b : Bool) :
    ((s.setHashing f b).feature g).hash? = (s.feature g).hash? := by
  rw [setHashing, feature_update]
  split <;> rfl

@[simp] theorem hashing_setProgress (s : BuildState) (f g : Feature) (p : Progress) :
    ((s.setProgress f p).feature g).hashing = (s.feature g).hashing := by
  rw [setProgress, feature_update]
  split <;> rfl

theorem hashing_setHashing (s : BuildState) (f g : Feature) (b : Bool) :
    ((s.setHashing f b).feature g).hashing =
      if f.origin = g.origin then b else (s.feature g).hashing := by
  rw [setHashing, feature_update]
  split <;> rfl

theorem progress_setProgress (s : BuildState) (f g : Feature) (p : Progress) :
    ((s.setProgress f p).feature g).progress =
      if f.origin = g.origin then p else (s.feature g).progress := by
  rw [setProgress, feature_update]
  split <;> rfl

@[simp] theorem progress_setHashing (s : BuildState) (f g : Feature) (b : Bool) :
    ((s.setHashing f b).feature g).progress = (s.feature g).progress := by
  rw [setHashing, feature_update]
  split <;> rfl

@[simp] theorem progress_identified (s : BuildState) (f g : Feature)
    (args : List ResolvedArgument) :
    ((s.identified f args).feature g).progress = (s.feature g).progress := by
  rw [feature_identified]
  split <;> rfl

end BuildState

/-! ## Identifying and building, case by case -/

namespace Evaluation

variable (ev : Evaluation) (ask : Answers) (f : Feature)

/-- The answer of the backend as the outcome for a feature. -/
def outcomeOf (f : Feature) : BuildAnswer → Except Halt BuildResult
  | .ok result => .ok result
  | .error source => .error (.failed (.backend f.label source))

/-- What is remembered as a result was the outcome. -/
theorem progressAfter_built {o : Except Halt BuildResult} {r : BuildResult}
    (h : progressAfter o = .built r) : o = .ok r := by
  unfold progressAfter at h
  split at h
  · cases h
    rfl
  · split at h <;> cases h
  · cases h

/-- What is remembered as a failure was the outcome, and is not deferred. -/
theorem progressAfter_failed {o : Except Halt BuildResult} {e : BuildError}
    (h : progressAfter o = .failed e) : o = .error (.failed e) ∧ e.isDeferred = false := by
  unfold progressAfter at h
  split at h
  · cases h
  · split at h
    · cases h
    · next hdefinite =>
      cases h
      exact ⟨rfl, by simpa using hdefinite⟩
  · cases h

theorem progressAfter_ne_building (o : Except Halt BuildResult) :
    progressAfter o ≠ .building := by
  unfold progressAfter
  split <;> try split
  all_goals intro h; cases h

/-- What evaluating the arguments of a feature and describing it comes to. -/
inductive Fingerprints (s : BuildState) :
    Except Halt (StructuralHash × List ResolvedArgument) → BuildState → Prop where
  | entered : (s.feature f).hashing = true →
      Fingerprints s (.error (.failed (.circularDependency f.label))) s
  | stopped {h s'} : (s.feature f).hashing = false →
      (ev.arguments f).run ask (s.setHashing f true) = (.error h, s') →
      Fingerprints s (.error h) (s'.setHashing f false)
  | finished {args s'} : (s.feature f).hashing = false →
      (ev.arguments f).run ask (s.setHashing f true) = (.ok args, s') →
      Fingerprints s (.ok ((Description.feature f.typeName args).hash, args))
        (s'.identified f args)

/-- What identifying a feature comes to. -/
inductive Identifies (s : BuildState) : Except Halt StructuralHash → BuildState → Prop where
  | remembered {h} : (s.feature f).hash? = some h → Identifies s (.ok h) s
  | halted {h s'} : (s.feature f).hash? = none → Fingerprints ev ask f s (.error h) s' →
      Identifies s (.error h) s'
  | computed {h args s'} : (s.feature f).hash? = none →
      Fingerprints ev ask f s (.ok (h, args)) s' → Identifies s (.ok h) s'

/-- What building a feature that has no result yet comes to. -/
inductive BuildsAnew (s : BuildState) : Except Halt BuildResult → BuildState → Prop where
  | unidentified {h s'} : Fingerprints ev ask f s (.error h) s' → BuildsAnew s (.error h) s'
  | recalled {h args s' answer} : Fingerprints ev ask f s (.ok (h, args)) s' →
      ev.caching = true → s'.cache.entries.get? h = some answer →
      BuildsAnew s (outcomeOf f answer) s'.hit
  | starved {h args s' halt s''} : Fingerprints ev ask f s (.ok (h, args)) s' →
      (ev.caching = true → s'.cache.entries.get? h = none) →
      (inputs (some f.label) args).run ask (s'.missed ev.caching) = (.error halt, s'') →
      BuildsAnew s (.error halt) s''
  | invoked {h args s' ins s'' answer} : Fingerprints ev ask f s (.ok (h, args)) s' →
      (ev.caching = true → s'.cache.entries.get? h = none) →
      (inputs (some f.label) args).run ask (s'.missed ev.caching) = (.ok ins, s'') →
      answer = (ev.backend.build (request f h ins)).map
        (fun result => { result with serial := s''.requests.length }) →
      BuildsAnew s (outcomeOf f answer) (s''.invoked ev.caching f (request f h ins) answer)

/-- What building a feature comes to. -/
inductive Builds (s : BuildState) : Except Halt BuildResult → BuildState → Prop where
  | remembered {result} : (s.feature f).progress = .built result → Builds s (.ok result) s
  | failed {e} : (s.feature f).progress = .failed e → Builds s (.error (.failed e)) s
  | entered : (s.feature f).progress = .building →
      Builds s (.error (.failed (.circularDependency f.label))) s
  | anew {outcome s'} : (s.feature f).progress = .unbuilt →
      BuildsAnew ev ask f (s.setProgress f .building) outcome s' →
      Builds s outcome (s'.setProgress f (progressAfter outcome))

variable {ev ask f} in
theorem Fingerprints.of_ok {s s' : BuildState} {x : StructuralHash × List ResolvedArgument}
    (h : Fingerprints ev ask f s (.ok x) s') :
    (s.feature f).hashing = false ∧ x.1 = (Description.feature f.typeName x.2).hash ∧
      ∃ t, (ev.arguments f).run ask (s.setHashing f true) = (.ok x.2, t) ∧
        s' = t.identified f x.2 := by
  cases h with
  | @finished args t hidle hr => exact ⟨hidle, rfl, t, hr, rfl⟩

theorem fingerprint_cases (s : BuildState) :
    Fingerprints ev ask f s (ev.fingerprint ask f s).1 (ev.fingerprint ask f s).2 := by
  unfold fingerprint
  rw [Build.bind_apply]
  simp only [Build.featureState]
  cases hh : (s.feature f).hashing with
  | true => exact .entered hh
  | false =>
    simp only [Bool.false_eq_true, ↓reduceIte, Build.bind_apply, Build.updateFeature,
      Build.attempt]
    generalize hr : (ev.arguments f).run ask _ = r
    obtain ⟨outcome, s'⟩ := r
    cases outcome with
    | error h => exact .stopped hh hr
    | ok args => exact .finished hh hr

theorem hashOver_cases (s : BuildState) :
    Identifies ev ask f s (ev.hashOver ask f s).1 (ev.hashOver ask f s).2 := by
  unfold hashOver
  rw [Build.bind_apply]
  simp only [Build.featureState]
  cases hh : (s.feature f).hash? with
  | some h => exact .remembered hh
  | none =>
    simp only [Build.bind_apply]
    have hcases := fingerprint_cases ev ask f s
    revert hcases
    generalize ev.fingerprint ask f s = r
    obtain ⟨outcome, s'⟩ := r
    intro hcases
    cases outcome with
    | error h => exact .halted hh hcases
    | ok x => exact .computed hh hcases

theorem answered_apply (answer : BuildAnswer) (s : BuildState) :
    answered f answer s = (outcomeOf f answer, s) := by
  cases answer <;> rfl

theorem buildAnew_cases (s : BuildState) :
    BuildsAnew ev ask f s (ev.buildAnew ask f s).1 (ev.buildAnew ask f s).2 := by
  unfold buildAnew
  rw [Build.bind_apply]
  have hcases := fingerprint_cases ev ask f s
  revert hcases
  generalize ev.fingerprint ask f s = r
  obtain ⟨outcome, s'⟩ := r
  intro hcases
  cases outcome with
  | error h => exact .unidentified hcases
  | ok x =>
    obtain ⟨h, args⟩ := x
    -- The build itself, once no answer has been found.
    have hbuild : (ev.caching = true → s'.cache.entries.get? h = none) →
        BuildsAnew ev ask f s
          ((do
            let inputs ← (inputs (some f.label) args).run ask
            answered f (← Build.invoke ev.backend ev.caching f (request f h inputs)))
            (s'.missed ev.caching)).1
          ((do
            let inputs ← (inputs (some f.label) args).run ask
            answered f (← Build.invoke ev.backend ev.caching f (request f h inputs)))
            (s'.missed ev.caching)).2 := by
      intro hmiss
      rw [Build.bind_apply]
      generalize hr : (inputs (some f.label) args).run ask (s'.missed ev.caching) = r
      obtain ⟨outcome, s''⟩ := r
      cases outcome with
      | error halt => exact .starved hcases hmiss hr
      | ok ins =>
        simp only [Build.bind_apply, Build.invoke, answered_apply]
        exact .invoked hcases hmiss hr rfl
    cases hc : ev.caching with
    | false =>
      simp only [hc, BuildState.missed, Bool.false_eq_true, ↓reduceIte] at hbuild
      exact hbuild (by simp)
    | true =>
      simp only [hc, BuildState.missed, ↓reduceIte] at hbuild
      simp only [↓reduceIte, Build.bind_apply, Build.lookup, ResultCache.lookup]
      cases he : s'.cache.entries.get? h with
      | none => exact hbuild fun _ => he
      | some answer =>
        simp only [answered_apply]
        exact .recalled hcases hc he

theorem buildOver_cases (s : BuildState) :
    Builds ev ask f s (ev.buildOver ask f s).1 (ev.buildOver ask f s).2 := by
  unfold buildOver
  rw [Build.bind_apply]
  simp only [Build.featureState]
  cases hp : (s.feature f).progress with
  | built result => exact .remembered hp
  | failed e => exact .failed hp
  | building => exact .entered hp
  | unbuilt =>
    simp only [Build.bind_apply, Build.updateFeature, Build.attempt]
    have hcases := buildAnew_cases ev ask f (s.setProgress f .building)
    have hresume : ∀ (o : Except Halt BuildResult) (s' : BuildState),
        Build.resume o s' = (o, s') := by
      intro o s'
      cases o <;> rfl
    rw [hresume]
    exact .anew hp hcases

end Evaluation

/-! ## What evaluation leaves as it was -/

/-- How the state of a feature can change while something else is evaluated. -/
structure FeatureState.Advances (a b : FeatureState) : Prop where
  hashing : b.hashing = a.hashing
  hash? : ∀ {h}, a.hash? = some h → b.hash? = some h
  built : ∀ {r}, a.progress = .built r → b.progress = .built r
  failed : ∀ {e}, a.progress = .failed e → b.progress = .failed e
  building : a.progress = .building → b.progress = .building
  unbuilt : a.progress = .unbuilt → b.progress ≠ .building

theorem FeatureState.Advances.refl (a : FeatureState) : a.Advances a :=
  ⟨rfl, id, id, id, id, fun h h' => by rw [h] at h'; cases h'⟩

theorem FeatureState.Advances.building_iff {a b : FeatureState} (h : a.Advances b) :
    b.progress = .building ↔ a.progress = .building := by
  refine ⟨fun hb => ?_, h.building⟩
  cases ha : a.progress with
  | building => rfl
  | unbuilt => exact absurd hb (h.unbuilt ha)
  | built r => rw [h.built ha] at hb; cases hb
  | failed e => rw [h.failed ha] at hb; cases hb

theorem FeatureState.Advances.hash?_eq_none {a b : FeatureState} (h : a.Advances b)
    (hb : b.hash? = none) : a.hash? = none := by
  cases ha : a.hash? with
  | none => rfl
  | some hash => cases hb.symm.trans (h.hash? ha)

theorem FeatureState.Advances.trans {a b c : FeatureState} (h : a.Advances b)
    (h' : b.Advances c) : a.Advances c where
  hashing := h'.hashing.trans h.hashing
  hash? := fun ha => h'.hash? (h.hash? ha)
  built := fun ha => h'.built (h.built ha)
  failed := fun ha => h'.failed (h.failed ha)
  building := fun ha => h'.building (h.building ha)
  unbuilt := fun ha hc => h.unbuilt ha (h'.building_iff.mp hc)

/-- How what is remembered can change in an evaluation. -/
structure BuildState.Advances (s s' : BuildState) : Prop where
  feature : ∀ f, (s.feature f).Advances (s'.feature f)
  described : s.described <:+ s'.described
  requests : s.requests <+: s'.requests

namespace BuildState.Advances

variable {s s' s'' : BuildState}

theorem refl (s : BuildState) : s.Advances s :=
  ⟨fun _ => .refl _, List.suffix_refl _, List.prefix_refl _⟩

theorem trans (h : s.Advances s') (h' : s'.Advances s'') : s.Advances s'' :=
  ⟨fun f => (h.feature f).trans (h'.feature f), h.described.trans h'.described,
    h.requests.trans h'.requests⟩

theorem mem_described (h : s.Advances s') {d : Description} (hd : d ∈ s.described) :
    d ∈ s'.described := h.described.subset hd

theorem describe (s : BuildState) (d : Description) : s.Advances (s.describe d) :=
  ⟨fun _ => .refl _, List.suffix_cons _ _, List.prefix_refl _⟩

theorem hit (s : BuildState) : s.Advances s.hit :=
  ⟨fun _ => .refl _, List.suffix_refl _, List.prefix_refl _⟩

theorem missed (s : BuildState) (caching : Bool) : s.Advances (s.missed caching) := by
  refine ⟨fun f => ?_, ?_, ?_⟩
  · rw [feature_missed]
    exact .refl _
  · simp only [described_missed, List.suffix_refl]
  · simp only [requests_missed, List.prefix_refl]

theorem invoked (s : BuildState) (caching : Bool) (f : Feature) (request : BuildRequest)
    (answer : BuildAnswer) : s.Advances (s.invoked caching f request answer) :=
  ⟨fun _ => .refl _, List.suffix_refl _, List.prefix_append _ _⟩

/-- A mark that is set on a feature and taken back afterwards. -/
theorem bracket {f : Feature} {enter leave : FeatureState → FeatureState}
    (h : (s.update f enter).Advances s')
    (hleave : ∀ a b, FeatureState.Advances (enter a) b → s.feature f = a →
      a.Advances (leave b)) : s.Advances (s'.update f leave) := by
  refine ⟨fun g => ?_, h.described, h.requests⟩
  have hg := h.feature g
  rw [feature_update] at hg ⊢
  split
  · next hfg =>
    rw [if_pos hfg] at hg
    exact hleave _ _ hg (s.feature_congr hfg)
  · next hfg =>
    rw [if_neg hfg] at hg
    exact hg

end BuildState.Advances

/-- Answers that only advance what is remembered. -/
def Answers.Advance (ask : Answers) : Prop :=
  ∀ (d : Demand) (s : BuildState), s.Advances (ask d s).2

theorem Plan.run_advances {ask : Answers} (hask : ask.Advance) {α : Type} (p : Plan α)
    (s : BuildState) : s.Advances (p.run ask s).2 := by
  induction p generalizing s with
  | done a => exact .refl s
  | stop e => exact .refl s
  | demand d user next ih =>
    rw [run_demand]
    have h := hask d s
    rcases hr : ask d s with ⟨_ | a, s'⟩
    · rw [hr] at h
      exact h
    · rw [hr] at h
      exact h.trans (ih a s')
  | identify d next ih => exact (BuildState.Advances.describe s d).trans (ih _ _)

namespace Evaluation

variable {ev : Evaluation} {ask : Answers} (hask : ask.Advance) {f : Feature}
include hask

theorem Fingerprints.advances {s s' : BuildState}
    {o : Except Halt (StructuralHash × List ResolvedArgument)}
    (h : Fingerprints ev ask f s o s') : s.Advances s' := by
  have hrun := Plan.run_advances hask (ev.arguments f) (s.setHashing f true)
  -- The mark comes off again; everything else is as the arguments left it.
  have hback : ∀ {s' : BuildState}, (s.feature f).hashing = false →
      (s.setHashing f true).Advances s' → s.Advances (s'.setHashing f false) := by
    intro s' hidle hs
    refine BuildState.Advances.bracket hs fun a b hab ha => ?_
    rw [ha] at hidle
    exact ⟨hidle.symm, hab.hash?, hab.built, hab.failed, hab.building, hab.unbuilt⟩
  cases h with
  | entered _ => exact .refl s
  | stopped hidle hr =>
    rw [hr] at hrun
    exact hback hidle hrun
  | @finished args s' hidle hr =>
    rw [hr] at hrun
    have hdescribed := BuildState.Advances.describe (s'.setHashing f false)
      (.feature f.typeName args)
    refine ((hback hidle hrun).trans hdescribed).trans ⟨fun g => ?_, ?_, ?_⟩
    · rw [BuildState.identified, BuildState.feature_update]
      split
      · exact ⟨rfl, fun hh => by rw [hh]; rfl, id, id, id, (FeatureState.Advances.refl _).unbuilt⟩
      · exact .refl _
    · exact List.suffix_refl _
    · exact List.prefix_refl _

theorem Identifies.advances {s s' : BuildState} {o : Except Halt StructuralHash}
    (h : Identifies ev ask f s o s') : s.Advances s' := by
  cases h with
  | remembered _ => exact .refl s
  | halted _ hf => exact hf.advances hask
  | computed _ hf => exact hf.advances hask

theorem BuildsAnew.advances {s s' : BuildState} {o : Except Halt BuildResult}
    (h : BuildsAnew ev ask f s o s') : s.Advances s' := by
  cases h with
  | unidentified hf => exact hf.advances hask
  | recalled hf _ _ => exact (hf.advances hask).trans (.hit _)
  | @starved h args s' halt s'' hf _ hr =>
    have hrun := Plan.run_advances hask (inputs (some f.label) args) (s'.missed ev.caching)
    rw [hr] at hrun
    exact ((hf.advances hask).trans (.missed _ _)).trans hrun
  | @invoked h args s' ins s'' answer hf _ hr _ =>
    have hrun := Plan.run_advances hask (inputs (some f.label) args) (s'.missed ev.caching)
    rw [hr] at hrun
    exact (((hf.advances hask).trans (.missed _ _)).trans hrun).trans (.invoked _ _ _ _ _)

theorem Builds.advances {s s' : BuildState} {o : Except Halt BuildResult}
    (h : Builds ev ask f s o s') : s.Advances s' := by
  cases h with
  | remembered _ => exact .refl s
  | failed _ => exact .refl s
  | entered _ => exact .refl s
  | anew hp hb =>
    refine BuildState.Advances.bracket (hb.advances hask) fun a b hab ha => ?_
    rw [ha] at hp
    have hnot : ∀ {p : Progress}, p ≠ .unbuilt → a.progress ≠ p := by
      intro p hne hap
      exact hne (hap.symm.trans hp)
    exact ⟨hab.hashing, hab.hash?, fun h => absurd h (hnot (by simp)),
      fun h => absurd h (hnot (by simp)), fun h => absurd h (hnot (by simp)),
      fun _ => progressAfter_ne_building _⟩

end Evaluation

/-- No evaluation takes back what is remembered. -/
theorem Evaluation.answer_advances (ev : Evaluation) (n : Nat) : (ev.answer n).Advance := by
  induction n with
  | zero => exact fun d s => .refl s
  | succ n ih =>
    intro d s
    cases d with
    | hash f => exact (hashOver_cases ev _ f s).advances ih
    | build f => exact (buildOver_cases ev _ f s).advances ih
    | _ => exact Plan.run_advances ih _ s

/-! ## Features under way -/

namespace BuildState

/-- No feature is under way. -/
def Resting (s : BuildState) : Prop :=
  ∀ f, (s.feature f).hashing = false ∧ (s.feature f).progress ≠ .building

theorem Resting.advances {s s' : BuildState} (h : s.Resting) (hs : s.Advances s') :
    s'.Resting := by
  intro f
  refine ⟨(hs.feature f).hashing.trans (h f).1, fun hb => (h f).2 ?_⟩
  exact (hs.feature f).building_iff.mp hb

end BuildState

end PartScript
