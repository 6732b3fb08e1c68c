/-
  What calls leave behind. Whatever is remembered when a call returns is remembered from then on,
  in the calls around it and in all that happens later. So how the build of a construction ended,
  by itself or as an input of another one, can be read off afterwards, and a request on record is
  the own request of a construction whose build ended with the answer to it.
-/
import PartScript.Proofs.Sources

namespace PartScript

open Relation

/-! ## What is kept -/

/-- Everything remembered in one state is remembered in another, failures included. -/
structure BuildState.Retains (s' s : BuildState) : Prop extends s'.Remembers s where
  failed : ∀ {f e}, (s.feature f).progress = .failed e → (s'.feature f).progress = .failed e

namespace BuildState.Retains

variable {s s' s'' : BuildState}

theorem trans (h : s'.Retains s) (h' : s''.Retains s') : s''.Retains s where
  toRemembers := h.toRemembers.trans h'.toRemembers
  failed := fun he => h'.failed (h.failed he)

/-- A change of one construction that takes back nothing. -/
theorem update (s : BuildState) (f : Feature) {change : FeatureState → FeatureState}
    (hhash : ∀ h, (s.feature f).hash? = some h → (change (s.feature f)).hash? = some h)
    (hprogress : (change (s.feature f)).progress = (s.feature f).progress ∨
      (s.feature f).progress = .building) : (s.update f change).Retains s := by
  have hbuilt : ∀ r, (s.feature f).progress = .built r →
      (change (s.feature f)).progress = .built r := fun r hr =>
    hprogress.elim (fun heq => heq.trans hr) fun hb => by cases hb.symm.trans hr
  refine ⟨.update s f hhash hbuilt, fun {g e} he => ?_⟩
  rw [feature_update]
  split
  · next hfg =>
    rw [← s.feature_congr hfg] at he ⊢
    exact hprogress.elim (fun heq => heq.trans he) fun hb => by cases hb.symm.trans he
  · exact he

theorem setHashing (s : BuildState) (f : Feature) (b : Bool) : (s.setHashing f b).Retains s :=
  .update s f (fun _ => id) (.inl rfl)

/-- A build that is under way ends. -/
theorem settle (s : BuildState) {f : Feature} (hp : (s.feature f).progress = .building)
    (progress : Progress) : (s.setProgress f progress).Retains s :=
  .update s f (fun _ => id) (.inr hp)

end BuildState.Retains

theorem BuildState.Advances.retains {s s' : BuildState} (h : s.Advances s') : s'.Retains s :=
  ⟨h.remembers, fun he => (h.feature _).failed he⟩

theorem BuildState.Retains.identified (s : BuildState) (f : Feature)
    (args : List ResolvedArgument) : (s.identified f args).Retains s :=
  ((setHashing s f false).trans (Advances.describe _ _).retains).trans
    (.update _ f (fun h hh => by rw [hh]; rfl) (.inl rfl))

/-! ## After a call -/

/-- What a call of a plan leaves behind is found when the plan has been carried out. -/
theorem Plan.Calls.after {ask : Answers} (hask : ask.Advance) {α : Type} {p : Plan α}
    {s t : BuildState} {d : Demand} (h : p.Calls ask s d t) :
    (ask d t).2.Advances (p.run ask s).2 := by
  induction h with
  | @here d _ next s =>
    rw [run_demand]
    rcases ask d s with ⟨_ | a, s'⟩
    · exact .refl s'
    · exact run_advances hask (next a) s'
  | later ha _ ih =>
    rw [run_demand, ha]
    exact ih
  | identify _ ih => exact ih

namespace Evaluation

variable {ev : Evaluation} {ask : Answers} {f : Feature} {s s' t : BuildState} {d : Demand}

theorem Fingerprints.unique {o o' : Except Halt (StructuralHash × List ResolvedArgument)}
    {s'' : BuildState} (h : Fingerprints ev ask f s o s') (h' : Fingerprints ev ask f s o' s'') :
    o = o' ∧ s' = s'' := by
  cases h with
  | entered hentered =>
    cases h' with
    | entered _ => exact ⟨rfl, rfl⟩
    | stopped hidle _ => cases hidle.symm.trans hentered
    | finished hidle _ => cases hidle.symm.trans hentered
  | stopped hidle hr =>
    cases h' with
    | entered hentered => cases hidle.symm.trans hentered
    | stopped _ hr' =>
      cases hr.symm.trans hr'
      exact ⟨rfl, rfl⟩
    | finished _ hr' => cases hr.symm.trans hr'
  | finished hidle hr =>
    cases h' with
    | entered hentered => cases hidle.symm.trans hentered
    | stopped _ hr' => cases hr.symm.trans hr'
    | finished _ hr' =>
      cases hr.symm.trans hr'
      exact ⟨rfl, rfl⟩

/-- What is left behind by a call that evaluates the arguments. -/
theorem Fingerprints.after (hask : ask.Advance)
    {o : Except Halt (StructuralHash × List ResolvedArgument)}
    (h : Fingerprints ev ask f s o s') (hidle : (s.feature f).hashing = false)
    (hcall : (ev.arguments f).Calls ask (s.setHashing f true) d t) :
    s'.Retains (ask d t).2 := by
  have hrun := (hcall.after hask).retains
  cases h with
  | entered hentered => cases hidle.symm.trans hentered
  | @stopped _ u _ hr =>
    rw [hr] at hrun
    exact hrun.trans (.setHashing u f false)
  | @finished args u _ hr =>
    rw [hr] at hrun
    exact hrun.trans (.identified u f args)

/-- A build evaluates the arguments first, and from there on it advances. -/
theorem BuildsAnew.fingerprints (hask : ask.Advance) {o : Except Halt BuildResult}
    (h : BuildsAnew ev ask f s o s') : ∃ x u, Fingerprints ev ask f s x u ∧ u.Advances s' := by
  have hinputs : ∀ {args : List ResolvedArgument} {u v : BuildState} {o : Except Halt (List Input)},
      (inputs (some f.label) args).run ask (u.missed ev.caching) = (o, v) → u.Advances v := by
    intro args u v o hr
    have hadv := Plan.run_advances hask (inputs (some f.label) args) (u.missed ev.caching)
    rw [hr] at hadv
    exact (BuildState.Advances.missed u ev.caching).trans hadv
  cases h with
  | unidentified hp => exact ⟨_, _, hp, .refl _⟩
  | recalled hp _ _ => exact ⟨_, _, hp, .hit _⟩
  | starved hp _ hr => exact ⟨_, _, hp, hinputs hr⟩
  | invoked hp _ hr _ => exact ⟨_, _, hp, (hinputs hr).trans (.invoked _ _ _ _ _)⟩

/-- A build that has come as far as its inputs ends with them, or with the backend's answer to
them. -/
theorem BuildsAnew.of_missed {o : Except Halt BuildResult} (h : BuildsAnew ev ask f s o s')
    {hash : StructuralHash} {args : List ResolvedArgument} {u : BuildState}
    (hprints : Fingerprints ev ask f s (.ok (hash, args)) u)
    (hmiss : ev.caching = true → u.cache.entries.get? hash = none) :
    (∃ halt, (inputs (some f.label) args).run ask (u.missed ev.caching) = (.error halt, s') ∧
        o = .error halt) ∨
      ∃ ins v, (inputs (some f.label) args).run ask (u.missed ev.caching) = (.ok ins, v) ∧
        o = outcomeOf f (ev.numbered v (request f hash ins)) ∧
        s' = v.invoked ev.caching f (request f hash ins) (ev.numbered v (request f hash ins)) := by
  cases h with
  | unidentified hp => cases (hp.unique hprints).1
  | recalled hp hc hentry =>
    obtain ⟨heq, rfl⟩ := hp.unique hprints
    cases heq
    cases (hmiss hc).symm.trans hentry
  | starved hp _ hr =>
    obtain ⟨heq, rfl⟩ := hp.unique hprints
    cases heq
    exact .inl ⟨_, hr, rfl⟩
  | invoked hp _ hr hanswer =>
    obtain ⟨heq, rfl⟩ := hp.unique hprints
    cases heq
    subst hanswer
    exact .inr ⟨_, _, hr, rfl, rfl⟩

/-- A build that has not begun goes its way, and its end is remembered. -/
theorem Builds.of_unbuilt {o : Except Halt BuildResult} (h : Builds ev ask f s o s')
    (hp : (s.feature f).progress = .unbuilt) :
    ∃ u, BuildsAnew ev ask f (s.setProgress f .building) o u ∧
      s' = u.setProgress f (progressAfter o) := by
  cases h with
  | remembered hr => cases hp.symm.trans hr
  | failed he => cases hp.symm.trans he
  | entered hb => cases hp.symm.trans hb
  | @anew _ u _ hb => exact ⟨u, hb, rfl⟩

/-- Until a build ends, it is under way. -/
theorem BuildsAnew.building (hask : ask.Advance) {o : Except Halt BuildResult}
    (h : BuildsAnew ev ask f (s.setProgress f .building) o s') :
    (s'.feature f).progress = .building := by
  refine ((h.advances hask).feature f).building ?_
  rw [BuildState.progress_setProgress, if_pos rfl]

/-- What a fingerprint leaves behind is found when the call for its construction returns. -/
theorem Begins.after {C : Call → Prop} {n : Nat} (h : Begins C n f s)
    {o : Except Halt (StructuralHash × List ResolvedArgument)}
    (hprints : Fingerprints ev (ev.answer n) f s o s') :
    ∃ c, C c ∧ (ev.outcome c).2.Retains s' := by
  cases h with
  | @identity s hc hh =>
    refine ⟨_, hc, ?_⟩
    show (ev.hashOver (ev.answer n) f s).2.Retains s'
    have hcases := hashOver_cases ev (ev.answer n) f s
    generalize ev.hashOver (ev.answer n) f s = r at hcases ⊢
    obtain ⟨o', t⟩ := r
    cases hcases with
    | remembered hh' => cases hh.symm.trans hh'
    | halted _ hp =>
      obtain ⟨-, rfl⟩ := hprints.unique hp
      exact (BuildState.Advances.refl _).retains
    | computed _ hp =>
      obtain ⟨-, rfl⟩ := hprints.unique hp
      exact (BuildState.Advances.refl _).retains
  | @build s hc hp =>
    have hask := ev.answer_advances n
    obtain ⟨u, hb, heq⟩ := (buildOver_cases ev (ev.answer n) f s).of_unbuilt hp
    obtain ⟨x, v, hfirst, hadv⟩ := hb.fingerprints hask
    obtain ⟨-, rfl⟩ := hprints.unique hfirst
    refine ⟨_, hc, ?_⟩
    show (ev.buildOver (ev.answer n) f s).2.Retains s'
    rw [heq]
    exact hadv.retains.trans (.settle u (hb.building hask) _)

/-- What is left behind by a call that another demand makes. -/
theorem Makes.after {n : Nat} {d' : Demand} (h : ev.Makes (ev.answer n) d s d' t) :
    (ev.answer (n + 1) d s).2.Retains (ev.answer n d' t).2 := by
  have hask := ev.answer_advances n
  cases h with
  | value hv hcall =>
    have hrun := (hcall.after hask).retains
    cases d with
    | hash f => exact hv.elim
    | build f => exact hv.elim
    | _ => exact hrun
  | @identity f s _ _ hh hidle hcall =>
    have hprints := fingerprint_cases ev (ev.answer n) f s
    obtain ⟨_, rfl, hreturns⟩ :=
      (Begins.identity (C := (· = ⟨n + 1, .hash f, s⟩)) rfl hh).after hprints
    exact (hprints.after hask hidle hcall).trans hreturns
  | @argument f s _ _ hp hidle hcall =>
    have hprints := fingerprint_cases ev (ev.answer n) f (s.setProgress f .building)
    obtain ⟨_, rfl, hreturns⟩ :=
      (Begins.build (C := (· = ⟨n + 1, .build f, s⟩)) rfl hp).after hprints
    exact (hprints.after hask hidle hcall).trans hreturns
  | @input f _ x v _ _ hp hprints hmiss hcall =>
    obtain ⟨u, hb, heq⟩ := (buildOver_cases ev (ev.answer n) f s).of_unbuilt hp
    have hrun := (hcall.after hask).retains
    show (ev.buildOver (ev.answer n) f s).2.Retains _
    rw [heq]
    refine BuildState.Retains.trans ?_ (.settle u (hb.building hask) _)
    rcases hb.of_missed hprints hmiss with ⟨halt, hr, -⟩ | ⟨ins, w, hr, -, rfl⟩
    · rwa [hr] at hrun
    · rw [hr] at hrun
      exact hrun.trans (BuildState.Advances.invoked _ _ _ _ _).retains

/-- A call leaves behind what the calls it makes leave behind. -/
theorem Spawns.after {c c' : Call} (h : ev.Spawns c c') :
    (ev.outcome c).2.Retains (ev.outcome c').2 := by
  cases h with
  | mk hmakes => exact hmakes.after

/-! ## How builds end -/

/-- When the backend is invoked, the build ends with its answer, and what was remembered before
stays so. -/
theorem Readies.ends {n : Nat} {hash : StructuralHash} {args : List ResolvedArgument}
    {ins : List Input} (h : ev.Readies (ev.answer n) f s hash args ins t) :
    ((ev.answer (n + 1) (.build f) s).2.feature f).progress =
        progressAfter (outcomeOf f (ev.numbered t (request f hash ins))) ∧
      (ev.answer (n + 1) (.build f) s).2.Retains t := by
  obtain ⟨v, hprints, hmiss, hrun⟩ := h.steps
  obtain ⟨u, hb, heq⟩ := (buildOver_cases ev (ev.answer n) f s).of_unbuilt h.unbuilt
  have hbuilding := hb.building (ev.answer_advances n)
  rcases hb.of_missed hprints hmiss with ⟨halt, hr, -⟩ | ⟨ins', w, hr, ho, rfl⟩
  · cases hrun.symm.trans hr
  · cases hrun.symm.trans hr
    have hends : (ev.answer (n + 1) (.build f) s).2 =
        (t.invoked ev.caching f (request f hash ins)
          (ev.numbered t (request f hash ins))).setProgress f
            (progressAfter (outcomeOf f (ev.numbered t (request f hash ins)))) := heq.trans (by rw [ho])
    rw [hends]
    refine ⟨?_, (BuildState.Advances.invoked _ _ _ _ _).retains.trans (.settle _ hbuilding _)⟩
    rw [BuildState.progress_setProgress, if_pos rfl]

/-- A construction is not identified with a refusal of the backend. -/
theorem Identifies.not_refusal {n : Nat} {halt : Halt}
    (h : Identifies ev (ev.answer n) f s (.error halt) s') (label : String)
    (source : BackendError) : halt ≠ .failed (.backend label source) := by
  cases h with
  | halted _ hprints =>
    cases hprints with
    | entered _ => exact (Stops.entered : ev.Stops f _).not_refusal label source
    | stopped _ hr => exact (Stops.arguments hr).not_refusal label source

/-- A call for a construction that ends with a refusal of the backend leaves the refusal
behind. -/
theorem refused_remembered {c : Call} (hentered : c.demand.Enters f) {label : String}
    {source : BackendError} (ho : (ev.outcome c).1 = .error (.failed (.backend label source))) :
    ((ev.outcome c).2.feature f).progress = .failed (.backend label source) := by
  obtain ⟨n, d, s⟩ := c
  cases n with
  | zero => cases ho
  | succ n =>
    rcases hentered with hd | hd <;> obtain rfl : d = _ := hd
    · have hcases := hashOver_cases ev (ev.answer n) f s
      rw [show (ev.hashOver (ev.answer n) f s).1 = _ from ho] at hcases
      exact absurd rfl (hcases.not_refusal label source)
    · show ((ev.buildOver (ev.answer n) f s).2.feature f).progress = _
      have hcases := buildOver_cases ev (ev.answer n) f s
      rw [show (ev.buildOver (ev.answer n) f s).1 = _ from ho] at hcases
      generalize (ev.buildOver (ev.answer n) f s).2 = s' at hcases
      cases hcases with
      | failed he => exact he
      | anew _ _ =>
        rw [BuildState.progress_setProgress, if_pos rfl]
        rfl

end Evaluation

/-! ## Later -/

namespace Workbench

variable {registries : Nat → Registry} {backend : Backend} {scope : CacheScope}
  {b b' : Workbench} {id : Nat} {q : Query} {f : Feature}

/-- What a call of a query leaves behind is found when the query has been answered. -/
theorem Calls.after {c : Call} (h : b.Calls id q c) :
    (b.outcome id q).2.Retains ((b.shop.evaluation id).outcome c).2 := by
  induction h with
  | ask hcall => exact (hcall.after (Evaluation.answer_advances _ _)).retains
  | next _ hspawns ih => exact hspawns.after.trans ih

theorem Kept.laterRun (h : b.Kept registries) (hrun : ReflTransGen (Step registries) b b')
    (id : Nat) : Later b b' id :=
  (h.later (ReflTransGen.mono (fun _ _ => Event.step) _ _ hrun) id).2

/-- Whatever the sessions do next, what is remembered stays so. -/
theorem Kept.retains (h : b.Kept registries) (hrun : ReflTransGen (Step registries) b b')
    (id : Nat) : (b'.shop.state id).Retains (b.shop.state id) :=
  ⟨(h.laterRun hrun id).remembers, fun he => (h.advances hrun id _).failed he⟩

/-- What a call of a query leaves behind is found in all that happens later. -/
theorem Calls.retained {c : Call} (h : b.Calls id q c) (hb : b.Kept registries)
    (hq : q.constructions ⊆ b.constructions id)
    (hrun : ReflTransGen (Step registries) (b.ask id q).2 b') :
    (b'.shop.state id).Retains ((b.shop.evaluation id).outcome c).2 := by
  have hasked : Step registries b (b.ask id q).2 := .works (.ask hq)
  have hlater := (hasked.kept hb).retains hrun id
  rw [state_ask] at hlater
  exact h.after.trans hlater

/-- Wherever a construction has been refused by the backend, the refusal is remembered. -/
theorem Returned.refused {label : String} {source : BackendError}
    (h : Returned registries backend scope b id f (.backend label source)) :
    Reachable registries backend scope b ∧ f ∈ b.constructions id ∧
      ((b.shop.state id).feature f).progress = .failed (.backend label source) := by
  cases h with
  | @call b₀ q c hb hq hc hentered ho hrun =>
    have hmem : f ∈ c.demand.constructions := by
      rcases hentered with hd | hd <;> rw [hd] <;> exact f.mem_constructions
    have hall : ReflTransGen (Step registries) b₀ b := .head (.works (.ask hq)) hrun
    have hf := (hb.kept.laterRun hall id).constructions
      (hc.within (hb.kept.sessions id) hq hmem)
    exact ⟨hb.trans hall, hf,
      (hc.retained hb.kept hq hrun).failed (Evaluation.refused_remembered hentered ho)⟩

end Workbench

end PartScript
