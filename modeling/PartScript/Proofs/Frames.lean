/-
  What an evaluation leaves as it was. Of the demands that are made on the way only those for results
  touch the progress of a construction, the cache and the backend. So where no result is demanded but
  of certain constructions, the others have the progress that they had; and where none is demanded,
  the cache and the backend are not used.
-/
import PartScript.Proofs.Reads

namespace PartScript

open Relation

/-! ## States -/

/-- From one state to another nothing was built but the constructions in `P`: the others have the
progress that they had, the backend was invoked for no others, and the cache was used for no
others. -/
structure BuildState.BuildsOnly (P : Feature → Prop) (s t : BuildState) : Prop where
  progress : ∀ f, (∀ g, P g → g.origin ≠ f.origin) →
    (t.feature f).progress = (s.feature f).progress
  requests : ∃ fresh, t.requests = s.requests ++ fresh ∧
    ∀ q ∈ fresh, ∃ g, P g ∧ g.origin = q.1
  cache : (∀ g, ¬ P g) → t.cache = s.cache

namespace BuildState.BuildsOnly

variable {P : Feature → Prop} {s t u : BuildState} {f : Feature}

/-- Nothing was built. -/
theorem of_same (hprogress : ∀ f, (t.feature f).progress = (s.feature f).progress)
    (hrequests : t.requests = s.requests) (hcache : t.cache = s.cache) : BuildsOnly P s t :=
  ⟨fun f _ => hprogress f, ⟨[], by rw [hrequests, List.append_nil], nofun⟩, fun _ => hcache⟩

theorem refl (s : BuildState) : BuildsOnly P s s := .of_same (fun _ => rfl) rfl rfl

theorem trans (h : BuildsOnly P s t) (h' : BuildsOnly P t u) : BuildsOnly P s u where
  progress := fun f hf => (h'.progress f hf).trans (h.progress f hf)
  requests := by
    obtain ⟨first, hfirst, hbuilt⟩ := h.requests
    obtain ⟨rest, hrest, hbuilt'⟩ := h'.requests
    refine ⟨first ++ rest, by rw [hrest, hfirst, List.append_assoc], fun q hq => ?_⟩
    exact (List.mem_append.mp hq).elim (hbuilt q) (hbuilt' q)
  cache := fun hP => (h'.cache hP).trans (h.cache hP)

/-- Where there is nothing to be built, nothing was. -/
theorem nothing (h : BuildsOnly P s t) (hP : ∀ g, ¬ P g) :
    (∀ f, (t.feature f).progress = (s.feature f).progress) ∧ t.requests = s.requests ∧
      t.cache = s.cache := by
  refine ⟨fun f => h.progress f fun g hg => absurd hg (hP g), ?_, h.cache hP⟩
  obtain ⟨fresh, hfresh, hbuilt⟩ := h.requests
  cases fresh with
  | nil => rw [hfresh, List.append_nil]
  | cons q rest =>
    obtain ⟨g, hg, -⟩ := hbuilt q List.mem_cons_self
    exact absurd hg (hP g)

theorem setHashing (s : BuildState) (f : Feature) (b : Bool) : BuildsOnly P s (s.setHashing f b) :=
  .of_same (fun g => s.progress_setHashing f g b) rfl rfl

theorem identified (s : BuildState) (f : Feature) (args : List ResolvedArgument) :
    BuildsOnly P s (s.identified f args) :=
  .of_same (fun g => s.progress_identified f g args) rfl rfl

section Building

variable (hf : P f)
include hf

theorem setProgress (s : BuildState) (progress : Progress) :
    BuildsOnly P s (s.setProgress f progress) where
  progress := fun g hg => by rw [progress_setProgress, if_neg (hg f hf)]
  requests := ⟨[], (List.append_nil _).symm, nofun⟩
  cache := fun hP => absurd hf (hP f)

theorem hit (s : BuildState) : BuildsOnly P s s.hit :=
  ⟨fun _ _ => rfl, ⟨[], (List.append_nil _).symm, nofun⟩, fun hP => absurd hf (hP f)⟩

theorem missed (s : BuildState) (caching : Bool) : BuildsOnly P s (s.missed caching) where
  progress := fun g _ => by rw [feature_missed]
  requests := ⟨[], by rw [requests_missed, List.append_nil], nofun⟩
  cache := fun hP => absurd hf (hP f)

theorem invoked (s : BuildState) (caching : Bool) (request : BuildRequest) (answer : BuildAnswer) :
    BuildsOnly P s (s.invoked caching f request answer) where
  progress := fun _ _ => rfl
  requests := ⟨[(f.origin, request)], rfl, by simpa using ⟨f, hf, rfl⟩⟩
  cache := fun hP => absurd hf (hP f)

end Building

end BuildState.BuildsOnly

/-! ## Evaluations -/

namespace Evaluation

open BuildState (BuildsOnly)

variable {ev : Evaluation} {D : Demand → Prop} {P : Feature → Prop} {n : Nat} {f : Feature}
  {s t : BuildState}

theorem run_buildsOnly (hn : ∀ d s, D d → BuildsOnly P s (ev.answer n d s).2) {α : Type}
    (p : Plan α) (hcalls : ∀ d t, p.Calls (ev.answer n) s d t → D d) :
    BuildsOnly P s (p.run (ev.answer n) s).2 := by
  induction p generalizing s with
  | done a => exact .refl s
  | stop e => exact .refl s
  | demand d reported next ih =>
    have hfirst := hn d s (hcalls d s .here)
    rw [Plan.run_demand]
    rcases hx : ev.answer n d s with ⟨halt | a, t⟩
    · rw [hx] at hfirst
      exact hfirst
    · rw [hx] at hfirst
      exact hfirst.trans (ih a fun d' u hcall => hcalls d' u (.later hx hcall))
  | identify d next ih =>
    have hdescribe : BuildsOnly P s (s.describe d) := .of_same (fun _ => rfl) rfl rfl
    exact hdescribe.trans (ih d.hash fun d' u hcall => hcalls d' u (.identify hcall))

theorem Fingerprints.buildsOnly (hn : ∀ d s, D d → BuildsOnly P s (ev.answer n d s).2)
    (hcalls : (s.feature f).hashing = false →
      ∀ d u, (ev.arguments f).Calls (ev.answer n) (s.setHashing f true) d u → D d)
    {o : Except Halt (StructuralHash × List ResolvedArgument)}
    (h : Fingerprints ev (ev.answer n) f s o t) : BuildsOnly P s t := by
  cases h with
  | entered _ => exact .refl s
  | @stopped halt u hidle hr =>
    have hrun := run_buildsOnly hn (ev.arguments f) (hcalls hidle)
    rw [hr] at hrun
    exact ((BuildsOnly.setHashing s f true).trans hrun).trans (.setHashing u f false)
  | @finished args u hidle hr =>
    have hrun := run_buildsOnly hn (ev.arguments f) (hcalls hidle)
    rw [hr] at hrun
    exact ((BuildsOnly.setHashing s f true).trans hrun).trans (.identified u f args)

section Complete

variable (hD : ∀ {ask d s d' t}, ev.Makes ask d s d' t → D d → D d')
  (hP : ∀ f, D (.build f) → P f) (hn : ∀ d s, D d → BuildsOnly P s (ev.answer n d s).2)
include hD hn

theorem Identifies.buildsOnly (hf : D (.hash f)) {o : Except Halt StructuralHash}
    (h : Identifies ev (ev.answer n) f s o t) : BuildsOnly P s t := by
  cases h with
  | remembered _ => exact .refl s
  | halted hh hp => exact hp.buildsOnly hn fun hidle d u hcall => hD (.identity hh hidle hcall) hf
  | computed hh hp => exact hp.buildsOnly hn fun hidle d u hcall => hD (.identity hh hidle hcall) hf

include hP

theorem Builds.buildsOnly (hf : D (.build f)) {o : Except Halt BuildResult}
    (h : Builds ev (ev.answer n) f s o t) : BuildsOnly P s t := by
  have hPf := hP f hf
  cases h with
  | remembered _ => exact .refl s
  | failed _ => exact .refl s
  | entered _ => exact .refl s
  | @anew _ t hp hb =>
    have hbegin := BuildsOnly.setProgress hPf s .building
    have hprints : ∀ {o u}, Fingerprints ev (ev.answer n) f (s.setProgress f .building) o u →
        BuildsOnly P (s.setProgress f .building) u := fun h =>
      h.buildsOnly hn fun hidle d u hcall => hD (.argument hp hidle hcall) hf
    -- The inputs are built where no answer has been found.
    have hinputs : ∀ {x u o v}, Fingerprints ev (ev.answer n) f (s.setProgress f .building) (.ok x) u →
        (ev.caching = true → u.cache.entries.get? x.1 = none) →
        (inputs (some f.label) x.2).run (ev.answer n) (u.missed ev.caching) = (o, v) →
        BuildsOnly P (s.setProgress f .building) v := by
      intro x u o v hprint hmiss hr
      have hrun := run_buildsOnly hn (s := u.missed ev.caching) (inputs (some f.label) x.2)
        fun d w hcall => hD (.input hp hprint hmiss hcall) hf
      rw [hr] at hrun
      exact ((hprints hprint).trans (.missed hPf u ev.caching)).trans hrun
    refine (hbegin.trans ?_).trans (.setProgress hPf t _)
    cases hb with
    | unidentified hprint => exact hprints hprint
    | recalled hprint _ _ => exact (hprints hprint).trans (.hit hPf _)
    | starved hprint hmiss hr => exact hinputs hprint hmiss hr
    | invoked hprint hmiss hr _ => exact (hinputs hprint hmiss hr).trans (.invoked hPf _ _ _ _)

omit hn

/-- Nothing is built but what results are demanded of. -/
theorem buildsOnly_at (n : Nat) (d : Demand) (s : BuildState) (hd : D d) :
    BuildsOnly P s (ev.answer n d s).2 := by
  induction n generalizing d s with
  | zero => exact .refl s
  | succ n ih =>
    have hvalue : d.IsValue → BuildsOnly P s ((ev.plan d).run (ev.answer n) s).2 := fun hv =>
      run_buildsOnly ih (ev.plan d) fun d' t hcall => hD (.value hv hcall) hd
    cases d with
    | hash f => exact (hashOver_cases ev _ f s).buildsOnly hD ih hd
    | build f => exact (buildOver_cases ev _ f s).buildsOnly hD hP ih hd
    | scalar user value => exact hvalue True.intro
    | vector user value => exact hvalue True.intro
    | datum user value => exact hvalue True.intro
    | selection user value => exact hvalue True.intro

end Complete

/-- Identifying what a name designates builds only what that needs. -/
theorem hashNamed_buildsOnly (ev : Evaluation) (name : String) (n : Nat) (s : BuildState) :
    BuildsOnly (ev.model.Needs (.named name)) s ((ev.hashNamed name).run (ev.answer n) s).2 :=
  run_buildsOnly (D := ev.model.Allows (.named name))
    (buildsOnly_at (fun hmakes hd => hmakes.allows hd) (fun _ hf => hf) n) _
    fun _ _ hcall => hashNamed_calls hcall

end Evaluation

end PartScript
