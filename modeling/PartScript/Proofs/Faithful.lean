/-
  What is remembered is what evaluation from scratch comes to: identities, results, failures
  and cached answers are those that the expressions mean. A circular dependency is reported
  where a feature under way is met again; what it then means has no value, because every
  feature under way waits for it.
-/
import PartScript.Proofs.Recall

namespace PartScript

namespace Evaluation

variable (ev : Evaluation) (fs : List Feature)

/-- An outcome of a demand is what the demand means, up to the numbers of backend
invocations. -/
def Tells (d : Demand) (o : Except Halt d.Answer) : Prop :=
  (ev.plan d).Meets ev (d.Related BuildResult.Alike) o

/-- Everything remembered is what the demands mean. -/
structure Faithful (s : BuildState) : Prop where
  hash? : ∀ f ∈ fs, ∀ h, (s.feature f).hash? = some h → ev.Tells (.hash f) (.ok h)
  built : ∀ f ∈ fs, ∀ r, (s.feature f).progress = .built r → ev.Tells (.build f) (.ok r)
  failed : ∀ f ∈ fs, ∀ e, (s.feature f).progress = .failed e →
    e.isDeferred = false ∧ ev.Tells (.build f) (.error (.failed e))
  cached : ev.caching = true → ∀ h answer, s.cache.entries.get? h = some answer →
    ∃ f ∈ fs, (s.feature f).hash? = some h ∧ ev.Tells (.build f) (outcomeOf f answer)

/-- Features under way have no meaning at a depth unless `C` holds there. -/
structure Awaits (s : BuildState) (C : Nat → Prop) : Prop where
  hashing : ∀ f ∈ fs, (s.feature f).hashing = true →
    ∀ n, ev.meaning (n + 1) (.hash f) ≠ none → C n
  building : ∀ f ∈ fs, (s.feature f).progress = .building →
    ∀ n, ev.meaning (n + 1) (.build f) ≠ none → C n

/-- Features with one identity mean one answer of the backend, as long as nothing but what is
in `log` is described. This matters where answers are cached. -/
def Shares (log : List Description) : Prop :=
  ev.caching = true → ∀ s, ev.Recollects fs s → ev.Faithful fs s → s.described ⊆ log →
    ∀ f ∈ fs, ∀ g ∈ fs, ∀ h, (s.feature f).hash? = some h → (s.feature g).hash? = some h →
      ∀ answer, ev.Tells (.build g) (outcomeOf g answer) →
        ev.Tells (.build f) (outcomeOf f answer)

variable {ev fs}

/-! ## Meanings of features -/

theorem meaning_hash_iff {n : Nat} {f : Feature} :
    ev.meaning (n + 1) (.hash f) ≠ none ↔ (ev.arguments f).eval (ev.meaning n) ≠ none := by
  show (ev.hashPlan f).eval (ev.meaning n) ≠ none ↔ _
  rw [hashPlan, Plan.eval_bind]
  rcases (ev.arguments f).eval (ev.meaning n) with _ | _ | _ <;> simp [Plan.identity, Plan.eval]

theorem meaning_build_arguments {n : Nat} {f : Feature}
    (h : ev.meaning (n + 1) (.build f) ≠ none) :
    (ev.arguments f).eval (ev.meaning n) ≠ none := by
  intro hnone
  refine h ?_
  show (ev.buildPlan f).eval (ev.meaning n) = none
  rw [buildPlan, Plan.eval_bind, hnone]

theorem meaning_build_hash {n : Nat} {f : Feature} (h : ev.meaning n (.build f) ≠ none) :
    ev.meaning n (.hash f) ≠ none := by
  cases n with
  | zero => exact absurd rfl h
  | succ n => exact meaning_hash_iff.mpr (meaning_build_arguments h)

theorem meaning_build_inputs {n : Nat} {f : Feature} {args : List ResolvedArgument}
    (hargs : (ev.arguments f).Settles ev (.ok args))
    (h : ev.meaning (n + 1) (.build f) ≠ none) :
    (inputs (some f.label) args).eval (ev.meaning n) ≠ none := by
  intro hnone
  refine h ?_
  show (ev.buildPlan f).eval (ev.meaning n) = none
  rw [buildPlan, Plan.eval_bind, hargs.eval_eq (meaning_build_arguments h)]
  show (ev.buildFrom f _ args).eval (ev.meaning n) = none
  rw [buildFrom, Plan.eval_bind, hnone]

/-- A feature is built from what its arguments mean. -/
theorem tells_build {f : Feature} {args : List ResolvedArgument} {o : Except Halt BuildResult}
    (hargs : (ev.arguments f).Settles ev (.ok args))
    (h : (ev.buildFrom f (Description.feature f.typeName args).hash args).Meets ev
      BuildResult.Alike o) : ev.Tells (.build f) o :=
  Plan.Meets.bind hargs h.identify

theorem meaning_ne_none {d : Demand} {n m : Nat} (hnm : n ≤ m) (h : ev.meaning n d ≠ none) :
    ev.meaning m d ≠ none := by
  obtain ⟨x, hx⟩ := Option.ne_none_iff_exists'.mp h
  rw [ev.meaning_mono hnm d x hx]
  exact Option.some_ne_none x

theorem meaning_plan {d : Demand} {n : Nat} (h : ev.meaning n d ≠ none) :
    (ev.plan d).eval (ev.meaning n) ≠ none :=
  meaning_ne_none (Nat.le_succ n) h

/-- What has a meaning only if it has one at a smaller depth has none. -/
theorem loops_of_descent {d : Demand}
    (h : ∀ n, ev.meaning (n + 1) d ≠ none → ev.meaning n d ≠ none) : (ev.plan d).Loops ev := by
  have hnone : ∀ n, ev.meaning n d = none := by
    intro n
    induction n with
    | zero => rfl
    | succ n ih => exact Classical.not_not.mp fun hne => h n hne ih
  exact fun n => hnone (n + 1)

theorem arguments_loop {f : Feature} (h : (ev.plan (.hash f)).Loops ev) :
    (ev.arguments f).Loops ev := by
  intro n
  exact Classical.not_not.mp fun hne => meaning_hash_iff.mpr hne (h n)

/-! ## Features under way -/

namespace Awaits

variable {s s' : BuildState} {C C' : Nat → Prop}

theorem imp (h : ev.Awaits fs s C) (himp : ∀ n, C n → C' n) : ev.Awaits fs s C' :=
  ⟨fun f hf hh n hn => himp n (h.hashing f hf hh n hn),
    fun f hf hb n hn => himp n (h.building f hf hb n hn)⟩

theorem advances (h : ev.Awaits fs s C) (hs : s.Advances s') : ev.Awaits fs s' C :=
  ⟨fun f hf hh => h.hashing f hf ((hs.feature f).hashing.symm.trans hh),
    fun f hf hb => h.building f hf ((hs.feature f).building_iff.mp hb)⟩

theorem resting (h : s.Resting) : ev.Awaits fs s C :=
  ⟨fun f _ hh => absurd hh (by rw [(h f).1]; exact Bool.false_ne_true),
    fun f _ hb => absurd hb (h f).2⟩

theorem setHashing (h : ev.Awaits fs s C) (hfs : Closed ev.model fs) {f : Feature} (hf : f ∈ fs)
    (hC : ∀ n, ev.meaning (n + 1) (.hash f) ≠ none → C n) :
    ev.Awaits fs (s.setHashing f true) C := by
  refine ⟨fun g hg hh n hn => ?_, fun g hg hb n hn => ?_⟩
  · rw [BuildState.hashing_setHashing] at hh
    split at hh
    · next hfg =>
      obtain rfl := hfs.unique f hf g hg hfg
      exact hC n hn
    · exact h.hashing g hg hh n hn
  · rw [BuildState.progress_setHashing] at hb
    exact h.building g hg hb n hn

theorem setBuilding (h : ev.Awaits fs s C) (hfs : Closed ev.model fs) {f : Feature}
    (hf : f ∈ fs) (hC : ∀ n, ev.meaning (n + 1) (.build f) ≠ none → C n) :
    ev.Awaits fs (s.setProgress f .building) C := by
  refine ⟨fun g hg hh n hn => ?_, fun g hg hb n hn => ?_⟩
  · rw [BuildState.hashing_setProgress] at hh
    exact h.hashing g hg hh n hn
  · rw [BuildState.progress_setProgress] at hb
    split at hb
    · next hfg =>
      obtain rfl := hfs.unique f hf g hg hfg
      exact hC n hn
    · exact h.building g hg hb n hn

end Awaits

/-! ## Steps that keep what is remembered faithful -/

namespace Faithful

variable {s s' : BuildState}

/-- Nothing but marks, counts and descriptions has changed. -/
theorem congr (h : ev.Faithful fs s) (hhash : ∀ f, (s'.feature f).hash? = (s.feature f).hash?)
    (hbuilt : ∀ f r, (s'.feature f).progress = .built r → (s.feature f).progress = .built r)
    (hfailed : ∀ f e, (s'.feature f).progress = .failed e → (s.feature f).progress = .failed e)
    (hcache : s'.cache.entries = s.cache.entries) : ev.Faithful fs s' where
  hash? := fun f hf k hk => h.hash? f hf k ((hhash f).symm.trans hk)
  built := fun f hf r hr => h.built f hf r (hbuilt f r hr)
  failed := fun f hf e he => h.failed f hf e (hfailed f e he)
  cached := by
    intro hc k answer hk
    rw [hcache] at hk
    obtain ⟨f, hf, hh, htells⟩ := h.cached hc k answer hk
    exact ⟨f, hf, (hhash f).trans hh, htells⟩

theorem setHashing (h : ev.Faithful fs s) (f : Feature) (b : Bool) :
    ev.Faithful fs (s.setHashing f b) := by
  refine h.congr (fun g => BuildState.hash?_setHashing s f g b) (fun g r => ?_) (fun g e => ?_) rfl
  · rw [BuildState.progress_setHashing]
    exact id
  · rw [BuildState.progress_setHashing]
    exact id

theorem setBuilding (h : ev.Faithful fs s) (f : Feature) :
    ev.Faithful fs (s.setProgress f .building) := by
  refine h.congr (fun g => BuildState.hash?_setProgress s f g _) (fun g r hr => ?_)
    (fun g e he => ?_) rfl
  · rw [BuildState.progress_setProgress] at hr
    split at hr
    · cases hr
    · exact hr
  · rw [BuildState.progress_setProgress] at he
    split at he
    · cases he
    · exact he

theorem describe (h : ev.Faithful fs s) (d : Description) : ev.Faithful fs (s.describe d) :=
  h.congr (fun _ => rfl) (fun _ _ => id) (fun _ _ => id) rfl

theorem hit (h : ev.Faithful fs s) : ev.Faithful fs s.hit :=
  h.congr (fun _ => rfl) (fun _ _ => id) (fun _ _ => id) rfl

theorem missed (h : ev.Faithful fs s) (caching : Bool) : ev.Faithful fs (s.missed caching) := by
  have hentries : (s.missed caching).cache.entries = s.cache.entries := by
    unfold BuildState.missed
    split <;> rfl
  exact h.congr (fun _ => by rw [BuildState.feature_missed])
    (fun _ _ => by rw [BuildState.feature_missed]; exact id)
    (fun _ _ => by rw [BuildState.feature_missed]; exact id) hentries

/-- The answer of the backend for an identified feature is stored. -/
theorem invoked (h : ev.Faithful fs s) {f : Feature} (hf : f ∈ fs) {request : BuildRequest}
    {answer : BuildAnswer} (hh : (s.feature f).hash? = some request.hash)
    (htells : ev.Tells (.build f) (outcomeOf f answer)) :
    ev.Faithful fs (s.invoked ev.caching f request answer) := by
  refine ⟨h.hash?, h.built, h.failed, fun hc k found hk => ?_⟩
  rw [BuildState.invoked, if_pos hc] at hk
  simp only [ResultCache.insert, ResultCache.countBuild, Table.get?_insert] at hk
  split at hk
  · next hkey =>
    obtain rfl := Option.some.inj hk
    exact ⟨f, hf, hkey ▸ hh, htells⟩
  · exact h.cached hc k found hk

/-- The identity of a feature is remembered. -/
theorem identified (h : ev.Faithful fs s) (hfs : Closed ev.model fs) {f : Feature} (hf : f ∈ fs)
    {args : List ResolvedArgument}
    (htells : ev.Tells (.hash f) (.ok (Description.feature f.typeName args).hash)) :
    ev.Faithful fs (s.identified f args) := by
  have hprogress : ∀ g, ((s.identified f args).feature g).progress = (s.feature g).progress :=
    fun g => s.progress_identified f g args
  refine ⟨fun g hg k hk => ?_, fun g hg r hr => h.built g hg r ((hprogress g).symm.trans hr),
    fun g hg e he => h.failed g hg e ((hprogress g).symm.trans he), fun hc k answer hk => ?_⟩
  · rw [BuildState.feature_identified] at hk
    split at hk
    · next hfg =>
      obtain rfl := hfs.unique f hf g hg hfg
      cases hold : (s.feature f).hash? with
      | none =>
        simp only [hold, Option.none_or] at hk
        exact Option.some.inj hk ▸ htells
      | some k' =>
        simp only [hold, Option.some_or] at hk
        exact h.hash? f hf k (hold.trans hk)
    · exact h.hash? g hg k hk
  · obtain ⟨g, hg, hh, hanswer⟩ := h.cached hc k answer hk
    refine ⟨g, hg, ?_, hanswer⟩
    rw [BuildState.feature_identified]
    split
    · simp only [hh, Option.some_or]
    · exact hh

/-- The outcome of a build is remembered, except where a name was not bound. -/
theorem setProgress (h : ev.Faithful fs s) (hfs : Closed ev.model fs) {f : Feature} (hf : f ∈ fs)
    {o : Except Halt BuildResult} (htells : ev.Tells (.build f) o) :
    ev.Faithful fs (s.setProgress f (progressAfter o)) := by
  have hhash : ∀ g, ((s.setProgress f (progressAfter o)).feature g).hash? =
      (s.feature g).hash? := fun g => s.hash?_setProgress f g _
  refine ⟨fun g hg k hk => h.hash? g hg k ((hhash g).symm.trans hk), fun g hg r hr => ?_,
    fun g hg e he => ?_, fun hc k answer hk => ?_⟩
  · rw [BuildState.progress_setProgress] at hr
    split at hr
    · next hfg =>
      obtain rfl := hfs.unique f hf g hg hfg
      obtain rfl := progressAfter_built hr
      exact htells
    · exact h.built g hg r hr
  · rw [BuildState.progress_setProgress] at he
    split at he
    · next hfg =>
      obtain rfl := hfs.unique f hf g hg hfg
      obtain ⟨rfl, hdefinite⟩ := progressAfter_failed he
      exact ⟨hdefinite, htells⟩
    · exact h.failed g hg e he
  · obtain ⟨g, hg, hh, hanswer⟩ := h.cached hc k answer hk
    exact ⟨g, hg, (hhash g).trans hh, hanswer⟩

end Faithful

/-! ## More names -/

/-- What a demand means does not change when more names are bound, unless a name was not
bound. -/
theorem Tells.extends {M : Model} (hM : M.Extends ev.model) {d : Demand}
    {o : Except Halt d.Answer} (h : ev.Tells d o)
    (hdeferred : ∀ e, o = .error (.failed e) → e.isDeferred = false) :
    Tells { ev with model := M } d o := by
  have hc := Pairing.extension_complete hM
  have htrans : ∀ a a' a'' : d.Answer, d.Related BuildResult.Alike a a' → d.Related Eq a' a'' →
      d.Related BuildResult.Alike a a'' := fun _ _ _ h h' =>
    Demand.Related.trans_eq h h'
  exact (plan_like hc d).meets hc htrans h fun _ => hdeferred

/-- What is remembered stays faithful when more names are bound. -/
theorem Faithful.extends {M : Model} (hM : M.Extends ev.model) {s : BuildState}
    (h : ev.Faithful fs s) : Faithful { ev with model := M } fs s where
  hash? := fun f hf k hk => (h.hash? f hf k hk).extends hM fun e he => by cases he
  built := fun f hf r hr => (h.built f hf r hr).extends hM fun e he => by cases he
  failed := by
    intro f hf e he
    obtain ⟨hd, htells⟩ := h.failed f hf e he
    refine ⟨hd, htells.extends hM fun e' he' => ?_⟩
    cases he'
    exact hd
  cached := by
    intro hc k answer hk
    obtain ⟨f, hf, hh, htells⟩ := h.cached hc k answer hk
    refine ⟨f, hf, hh, htells.extends hM fun e he => ?_⟩
    cases answer with
    | ok r => cases he
    | error source =>
      cases he
      rfl

end Evaluation

end PartScript
