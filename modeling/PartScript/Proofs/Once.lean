/-
  One invocation for each identity. Where answers are cached, an evaluation stores one answer
  for each invocation of the backend, under an identity that had none. Between the look into
  the cache and the invocation only the inputs are built, and their identities are below the
  one that was looked for.
-/
import Mathlib.Data.List.Nodup
import PartScript.Proofs.Changes
import PartScript.Proofs.Lineage

namespace PartScript

open Relation

/-! ## Keys of tables -/

namespace Table

variable {α β : Type}

/-- The keys of a table, in the order in which they were first written. -/
def keys (t : Table α β) : List α := t.map (·.1)

variable [DecidableEq α]

theorem not_mem_keys {t : Table α β} {x : α} (h : t.get? x = none) : x ∉ t.keys := by
  induction t with
  | nil => exact List.not_mem_nil
  | cons p t ih =>
    obtain ⟨k, v⟩ := p
    rw [get?] at h
    split at h
    · cases h
    · next hk =>
      intro hx
      rcases List.mem_cons.mp hx with rfl | hx
      · exact hk rfl
      · exact ih h hx

theorem keys_insert {t : Table α β} {x : α} (h : x ∉ t.keys) (y : β) :
    (t.insert x y).keys = t.keys ++ [x] := by
  induction t with
  | nil => rfl
  | cons p t ih =>
    obtain ⟨k, v⟩ := p
    have hk : k ≠ x := fun hkx => h (hkx ▸ List.mem_cons_self)
    have hx : x ∉ keys t := fun hx => h (List.mem_cons_of_mem k hx)
    rw [insert, if_neg hk]
    exact congrArg (k :: ·) (ih hx)

end Table

/-! ## Answers that are stored -/

/-- From one state of a cache to another, answers were stored under the identities in `hashes`,
each after a look that found none and an invocation of the backend. -/
structure ResultCache.Stores (cache : ResultCache) (hashes : List StructuralHash)
    (cache' : ResultCache) : Prop where
  keys : cache'.entries.keys = cache.entries.keys ++ hashes
  distinct : cache.entries.keys.Nodup → cache'.entries.keys.Nodup
  builds : cache'.builds = cache.builds + hashes.length
  misses : cache.misses + hashes.length ≤ cache'.misses

namespace ResultCache.Stores

variable {cache cache' cache'' : ResultCache} {hashes hashes' : List StructuralHash}

/-- Only looks were counted. -/
theorem none (hentries : cache'.entries = cache.entries) (hbuilds : cache'.builds = cache.builds)
    (hmisses : cache.misses ≤ cache'.misses) : cache.Stores [] cache' :=
  ⟨by rw [hentries, List.append_nil], fun hs => hentries ▸ hs, hbuilds, hmisses⟩

theorem refl (cache : ResultCache) : cache.Stores [] cache := none rfl rfl (Nat.le_refl _)

theorem trans (h : cache.Stores hashes cache') (h' : cache'.Stores hashes' cache'') :
    cache.Stores (hashes ++ hashes') cache'' where
  keys := by rw [h'.keys, h.keys, List.append_assoc]
  distinct := fun hs => h'.distinct (h.distinct hs)
  builds := by rw [h'.builds, h.builds, List.length_append, Nat.add_assoc]
  misses := by
    have hfirst := h.misses
    have hsecond := h'.misses
    rw [List.length_append]
    omega

/-- After a look that found nothing, an answer is stored under an identity that has none. -/
theorem insert (h : Stores { cache with misses := cache.misses + 1 } hashes cache')
    {hash : StructuralHash} (hnew : hash ∉ cache'.entries.keys) (answer : BuildAnswer) :
    cache.Stores (hashes ++ [hash]) (cache'.countBuild.insert hash answer) where
  keys := by
    refine (Table.keys_insert hnew answer).trans ?_
    rw [h.keys, List.append_assoc]
  distinct := fun hs => by
    show (cache'.entries.insert hash answer).keys.Nodup
    rw [Table.keys_insert hnew]
    refine List.Nodup.append (h.distinct hs) (List.nodup_singleton _) ?_
    exact List.disjoint_singleton.mpr hnew
  builds := by
    show cache'.builds + 1 = _
    rw [h.builds, List.length_append]
    rfl
  misses := by
    have hmisses : cache.misses + 1 + hashes.length ≤ cache'.misses := h.misses
    show _ ≤ cache'.misses
    rw [List.length_append, List.length_singleton]
    omega

end ResultCache.Stores

namespace BuildState

/-- From one state to another the backend was invoked with the requests in `fresh`, each time
its answer was stored, and `P` holds of the identities. -/
def AddsOnly (P : StructuralHash → Prop) (s s' : BuildState) : Prop :=
  ∃ fresh : List (Origin × BuildRequest), s'.requests = s.requests ++ fresh ∧
    s.cache.Stores (fresh.map (·.2.hash)) s'.cache ∧ ∀ q ∈ fresh, P q.2.hash

namespace AddsOnly

variable {s s' s'' : BuildState} {P Q : StructuralHash → Prop}

theorem none (hcache : s.cache.Stores [] s'.cache) (hrequests : s'.requests = s.requests) :
    s.AddsOnly P s' := ⟨[], by simpa using hrequests, hcache, nofun⟩

/-- Neither the requests nor the cache have changed. -/
theorem of_same (hcache : s'.cache = s.cache) (hrequests : s'.requests = s.requests) :
    s.AddsOnly P s' := none (hcache ▸ .refl s.cache) hrequests

theorem refl (s : BuildState) : s.AddsOnly P s := of_same rfl rfl

theorem trans (h : s.AddsOnly P s') (h' : s'.AddsOnly P s'') : s.AddsOnly P s'' := by
  obtain ⟨fresh, hrequests, hcache, hP⟩ := h
  obtain ⟨fresh', hrequests', hcache', hP'⟩ := h'
  refine ⟨fresh ++ fresh', ?_, ?_, fun q hq => ?_⟩
  · rw [hrequests', hrequests, List.append_assoc]
  · rw [List.map_append]
    exact hcache.trans hcache'
  · rcases List.mem_append.mp hq with hq | hq
    · exact hP q hq
    · exact hP' q hq

theorem imp (h : s.AddsOnly P s') (hPQ : ∀ k, P k → Q k) : s.AddsOnly Q s' := by
  obtain ⟨fresh, hrequests, hcache, hP⟩ := h
  exact ⟨fresh, hrequests, hcache, fun q hq => hPQ _ (hP q hq)⟩

theorem hit (s : BuildState) : s.AddsOnly P s.hit :=
  none (.none rfl rfl (Nat.le_refl _)) rfl

theorem missed (s : BuildState) (caching : Bool) : s.AddsOnly P (s.missed caching) := by
  unfold BuildState.missed
  split
  · exact none (.none rfl rfl (Nat.le_succ _)) rfl
  · exact refl s

end AddsOnly

end BuildState

/-! ## Evaluation of what is remembered -/

/-- Nothing was asked of the backend or of the cache, and nothing has been forgotten. -/
structure BuildState.Quiet (s s' : BuildState) : Prop where
  cache : s'.cache = s.cache
  requests : s'.requests = s.requests
  remembers : s'.Remembers s

namespace BuildState

namespace Quiet

variable {s s' s'' : BuildState}

theorem refl (s : BuildState) : s.Quiet s := ⟨rfl, rfl, id, id, List.Subset.refl _⟩

theorem trans (h : s.Quiet s') (h' : s'.Quiet s'') : s.Quiet s'' :=
  ⟨h'.cache.trans h.cache, h'.requests.trans h.requests, h.remembers.trans h'.remembers⟩

theorem describe (s : BuildState) (d : Description) : s.Quiet (s.describe d) :=
  ⟨rfl, rfl, (BuildState.Advances.describe s d).remembers⟩

end Quiet

end BuildState

namespace Evaluation

variable (ev : Evaluation) (ask : Answers) {f : Feature} {s : BuildState}

theorem hashOver_remembered {h : StructuralHash} (hh : (s.feature f).hash? = some h) :
    ev.hashOver ask f s = (.ok h, s) := by
  unfold hashOver
  rw [Build.bind_apply]
  simp only [Build.featureState, hh, Build.pure_apply]

theorem buildOver_remembered {r : BuildResult} (hr : (s.feature f).progress = .built r) :
    ev.buildOver ask f s = (.ok r, s) := by
  unfold buildOver
  rw [Build.bind_apply]
  simp only [Build.featureState, hr, Build.pure_apply]

end Evaluation

namespace Plan

variable {ev : Evaluation} {s t t' : BuildState} {α : Type}

/-- A run that changes nothing and can only give the value `a`. -/
def Repeats (ask : Answers) (t : BuildState) (p : Plan α) (a : α) : Prop :=
  t.Quiet (p.run ask t).2 ∧ ∀ b, (p.run ask t).1 = .ok b → b = a

theorem Repeats.demand {ask : Answers} {d : Demand} {user : Option String}
    {next : d.Answer → Plan α} {x : d.Answer} {a : α} (hquiet : t.Quiet (ask d t).2)
    (hx : ∀ y, (ask d t).1 = .ok y → y = x)
    (hnext : (next x).Repeats ask (ask d t).2 a) : (Plan.demand d user next).Repeats ask t a := by
  unfold Repeats
  rw [run_demand]
  rcases hr : ask d t with ⟨h | y, t1⟩
  · rw [hr] at hquiet
    exact ⟨hquiet, nofun⟩
  · rw [hr] at hquiet hx hnext
    obtain rfl := hx y rfl
    exact ⟨hquiet.trans hnext.1, hnext.2⟩

/-- Evaluating what is remembered changes nothing, and gives the value that is remembered if
it comes to its end. -/
theorem Recalls.repeats {p : Plan α} {a : α} (h : p.Recalls ev s a) (n : Nat)
    (ht : t.Remembers s) : p.Repeats (ev.answer n) t a := by
  induction h generalizing n t with
  | done => exact ⟨.refl t, fun b hb => (Except.ok.inj hb).symm⟩
  | @hash _ f _ _ h _ hh _ ih =>
    have hfirst : t.Quiet (ev.answer n (.hash f) t).2 ∧
        ∀ y, (ev.answer n (.hash f) t).1 = .ok y → y = h := by
      cases n with
      | zero => exact ⟨.refl t, nofun⟩
      | succ n =>
        rw [Evaluation.answer, Evaluation.answerOver, ev.hashOver_remembered _ (ht.hash? hh)]
        exact ⟨.refl t, fun y hy => (Except.ok.inj hy).symm⟩
    exact .demand hfirst.1 hfirst.2 (ih n (ht.trans hfirst.1.remembers))
  | @build _ f _ _ r _ hr _ ih =>
    have hfirst : t.Quiet (ev.answer n (.build f) t).2 ∧
        ∀ y, (ev.answer n (.build f) t).1 = .ok y → y = r := by
      cases n with
      | zero => exact ⟨.refl t, nofun⟩
      | succ n =>
        rw [Evaluation.answer, Evaluation.answerOver, ev.buildOver_remembered _ (ht.built hr)]
        exact ⟨.refl t, fun y hy => (Except.ok.inj hy).symm⟩
    exact .demand hfirst.1 hfirst.2 (ih n (ht.trans hfirst.1.remembers))
  | @value _ d _ _ x _ hv _ _ ihx ih =>
    have hfirst : t.Quiet (ev.answer n d t).2 ∧ ∀ y, (ev.answer n d t).1 = .ok y → y = x := by
      cases n with
      | zero => exact ⟨.refl t, nofun⟩
      | succ n =>
        cases d with
        | hash f => exact hv.elim
        | build f => exact hv.elim
        | _ => exact ihx n ht
    exact .demand hfirst.1 hfirst.2 (ih n (ht.trans hfirst.1.remembers))
  | @identify _ d _ _ _ _ ih =>
    have hquiet := BuildState.Quiet.describe t d
    obtain ⟨hrest, hvalue⟩ := ih n (ht.trans hquiet.remembers)
    exact ⟨hquiet.trans hrest, hvalue⟩

end Plan

/-! ## One answer for each invocation -/

namespace Evaluation

/-- The identities for which a demand can invoke the backend. For a construction that has an
identity these are this one and those below it. -/
def Needs (log : List Description) (s : BuildState) : Demand → StructuralHash → Prop
  | .build f, k => ∀ h, (s.feature f).hash? = some h → ReflTransGen (Description.Uses log) k h
  | _, _ => True

/-- The answers to a depth store an answer for each invocation. -/
def AddsAt (ev : Evaluation) (fs : List Feature) (log : List Description) (n : Nat) : Prop :=
  ∀ (d : Demand) (s : BuildState), d.constructions ⊆ fs → ev.Recollects fs s →
    (ev.answer n d s).2.described ⊆ log →
    s.AddsOnly (Needs log s d) (ev.answer n d s).2

variable {ev : Evaluation} {fs : List Feature} {log : List Description} {n : Nat}
  (hfs : Closed ev.model fs) (hn : ev.AddsAt fs log n)
include hfs hn

theorem run_adds {P : StructuralHash → Prop} {user : Option String} {α : Type}
    {known : List StructuralHash} {items : List Item} {p : Plan α}
    (hp : p.Walks ev.model user known items) (hitems : ItemsWithin fs items) {s : BuildState}
    (hknown : ∀ g ∈ known, Description.Logged s.described g) (hs : ev.Recollects fs s)
    (hneeds : ∀ item ∈ items, ∀ d, item.Makes ev.model user d → ∀ t, s.Advances t →
      ∀ k, Needs log t d k → P k)
    {o : Except Halt α} {s' : BuildState} (hr : p.run (ev.answer n) s = (o, s'))
    (hlog : s'.described ⊆ log) : s.AddsOnly P s' := by
  induction hp generalizing s with
  | done | stop _ =>
    obtain ⟨-, rfl⟩ : _ = o ∧ s = s' := by simpa using hr
    exact .refl s
  | @demand known item items d reported next hm _ ih =>
    have hd := hfs.makes (hitems item List.mem_cons_self) hm
    obtain ⟨hs1, hx1⟩ := ev.recollects_at hfs n d s hd hs
    have hadv := ev.answer_advances n d s
    have hadds := hn d s hd hs
    rw [Plan.run_demand] at hr
    rcases hx : ev.answer n d s with ⟨h | x, s1⟩
    · rw [hx] at hr hadds
      obtain ⟨-, rfl⟩ : _ = o ∧ s1 = s' := by simpa using hr
      exact (hadds hlog).imp (hneeds item List.mem_cons_self d hm s (.refl s))
    · rw [hx] at hr hadds hs1 hx1 hadv
      have hr : (next x).run (ev.answer n) s1 = (o, s') := hr
      have hrest := Plan.run_advances (ev.answer_advances n) (next x) s1
      rw [hr] at hrest
      have hknown1 := hs1.knows hd (hx1 x rfl) fun g hg =>
        (hknown g hg).mono hadv.described.subset
      have hfirst := (hadds (List.Subset.trans hrest.described.subset hlog)).imp
        (hneeds item List.mem_cons_self d hm s (.refl s))
      exact hfirst.trans (ih x (fun y hy => hitems y (List.mem_cons_of_mem _ hy)) hknown1 hs1
        (fun y hy d hm t ht => hneeds y (List.mem_cons_of_mem _ hy) d hm t (hadv.trans ht)) hr)
  | @identify known items d next hrefs _ ih =>
    have hs1 := hs.describe fun g hg => hknown g (hrefs hg)
    have hquiet := BuildState.Quiet.describe s d
    have hfirst : s.AddsOnly P (s.describe d) := .of_same hquiet.cache hquiet.requests
    exact hfirst.trans (ih d.hash hitems
      (fun g hg => (hknown g hg).mono (List.subset_cons_self _ _)) hs1
      (fun y hy d' hm t ht => hneeds y hy d' hm t ((BuildState.Advances.describe s d).trans ht)) hr)

section Entering

variable {f : Feature} (hf : f ∈ fs) {s s' : BuildState} (hs : ev.Recollects fs s)
include hf hs

/-- Only a construction without an identity invokes the backend when it is identified. -/
theorem Fingerprints.adds {o : Except Halt (StructuralHash × List ResolvedArgument)}
    (h : Fingerprints ev (ev.answer n) f s o s') (hlog : s'.described ⊆ log) :
    s.AddsOnly (fun _ => (s.feature f).hash? = none) s' := by
  have hrun : ∀ {o t}, (ev.arguments f).run (ev.answer n) (s.setHashing f true) = (o, t) →
      t.described ⊆ log → s.AddsOnly (fun _ => (s.feature f).hash? = none) t := by
    intro o t hr ht
    have hmark : s.AddsOnly (fun _ => (s.feature f).hash? = none) (s.setHashing f true) :=
      .of_same rfl rfl
    refine hmark.trans ?_
    cases hh : (s.feature f).hash? with
    | none =>
      exact run_adds hfs hn (ev.arguments_walks [] f) (hfs.items hf) (by simp)
        (hs.setHashing f true) (fun _ _ _ _ _ _ _ _ => rfl) hr ht
    | some k =>
      obtain ⟨args, hargs, -, -⟩ := hs.identified f hf k hh
      have hrem : (s.setHashing f true).Remembers s :=
        .update s f (fun _ hk => hk) fun _ hr => hr
      obtain ⟨hquiet, -⟩ := hargs.repeats n hrem
      rw [hr] at hquiet
      exact .of_same hquiet.cache hquiet.requests
  cases h with
  | entered _ => exact .refl s
  | stopped _ hr => exact (hrun hr hlog).trans (.of_same rfl rfl)
  | @finished args t _ hr =>
    exact (hrun hr (List.Subset.trans (List.subset_cons_self _ _) hlog)).trans (.of_same rfl rfl)

theorem Identifies.adds {o : Except Halt StructuralHash}
    (h : Identifies ev (ev.answer n) f s o s') (hlog : s'.described ⊆ log) :
    s.AddsOnly (fun _ => True) s' := by
  cases h with
  | remembered _ => exact .refl s
  | halted _ hp => exact (hp.adds hfs hn hf hs hlog).imp fun _ _ => True.intro
  | computed _ hp => exact (hp.adds hfs hn hf hs hlog).imp fun _ _ => True.intro

/-- The inputs of a construction have identities below its own. -/
theorem inputs_adds {x : StructuralHash × List ResolvedArgument} {t t' : BuildState}
    (h : Fingerprints ev (ev.answer n) f s (.ok x) t) {o : Except Halt (List Input)}
    (hr : (inputs (some f.label) x.2).run (ev.answer n) (t.missed ev.caching) = (o, t'))
    (hlog : t'.described ⊆ log) :
    (t.missed ev.caching).AddsOnly (TransGen (Description.Uses log) · x.1) t' := by
  obtain ⟨ht, -, hargs, hmem, hx⟩ := h.identifies hfs (ev.recollects_at hfs n) hf hs
  have hback := recalls_backed hfs hf hargs
  obtain ⟨-, -, t0, hrun, -⟩ := h.of_ok
  have hrest := Plan.run_advances (ev.answer_advances n) (inputs (some f.label) x.2)
    (t.missed ev.caching)
  rw [hr] at hrest
  have hsub : t.described ⊆ log := fun d hd =>
    hlog (hrest.mem_described (by rwa [BuildState.described_missed]))
  refine run_adds hfs hn (inputs_walks ev (some f.label) x.2 [])
    (arguments_inputs_within hfs hf hrun) (by simp) (ht.missed ev.caching) ?_ hr hlog
  intro item hitem d hm u hu k hk
  obtain ⟨r, hr, rfl⟩ := mem_inputItems hitem
  cases hm with
  | @result _ root path htarget =>
    obtain ⟨rfl, -⟩ := Prod.mk.inj (Except.ok.inj htarget)
    obtain ⟨⟨reference, hr'⟩, hroot⟩ := hback _ hr
    obtain ⟨h', hh', hbelow⟩ := hr'.identity
    have huses : Description.Uses log r.hash x.1 :=
      ⟨_, hsub hmem, hx.symm, List.mem_filterMap.mpr ⟨_, hr, rfl⟩⟩
    have hkept : (u.feature r.root).hash? = some h' :=
      (hu.feature r.root).hash? (by rw [BuildState.feature_missed]; exact hh')
    have hle : ReflTransGen (Description.Uses log) h' r.hash := by
      rcases hbelow with ⟨-, heq⟩ | ⟨-, hd, heq⟩
      · exact heq ▸ .refl
      · exact .single ⟨_, hsub hd, heq.symm, List.mem_singleton_self h'⟩
    exact .tail' ((hk h' hkept).trans hle) huses

variable (hirrefl : ∀ h, ¬ TransGen (Description.Uses log) h h) (hcaching : ev.caching = true)
include hirrefl hcaching

theorem BuildsAnew.adds {o : Except Halt BuildResult} (h : BuildsAnew ev (ev.answer n) f s o s')
    (hlog : s'.described ⊆ log) : s.AddsOnly (Needs log s (.build f)) s' := by
  -- A construction that has an identity is identified as what it was.
  have hfirst : ∀ {o t}, Fingerprints ev (ev.answer n) f s o t → t.described ⊆ log →
      s.AddsOnly (Needs log s (.build f)) t := by
    intro o t hp ht
    refine (hp.adds hfs hn hf hs ht).imp fun k hnone h hh => ?_
    rw [hnone] at hh
    cases hh
  have hsame : ∀ {x t h}, Fingerprints ev (ev.answer n) f s (.ok x) t →
      (s.feature f).hash? = some h → h = x.1 := by
    intro x t h hp hh
    obtain ⟨-, hx, -⟩ := hp.identifies hfs (ev.recollects_at hfs n) hf hs
    have hkept := ((hp.advances (ev.answer_advances n)).feature f).hash? hh
    exact Option.some.inj (hkept.symm.trans hx)
  have hbefore : ∀ {args : List ResolvedArgument} {t t' : BuildState} {o},
      (inputs (some f.label) args).run (ev.answer n) (t.missed ev.caching) = (o, t') →
      t.described ⊆ t'.described := by
    intro args t t' o hr
    have hrest := Plan.run_advances (ev.answer_advances n) (inputs (some f.label) args)
      (t.missed ev.caching)
    rw [hr] at hrest
    exact fun d hd => hrest.mem_described (by rwa [BuildState.described_missed])
  cases h with
  | unidentified hp => exact hfirst hp hlog
  | recalled hp _ _ => exact (hfirst hp hlog).trans (.hit _)
  | starved hp _ hr =>
    refine ((hfirst hp (List.Subset.trans (hbefore hr) hlog)).trans (.missed _ ev.caching)).trans ?_
    refine (inputs_adds hfs hn hf hs hp hr hlog).imp fun k hk h hh => ?_
    rw [hsame hp hh]
    exact hk.to_reflTransGen
  | @invoked h args t ins t' answer hp hmiss hr _ =>
    refine (hfirst hp (List.Subset.trans (hbefore hr) hlog)).trans ?_
    obtain ⟨fresh, hrequests, hcache, hbelow⟩ := inputs_adds hfs hn hf hs hp hr hlog
    rw [hcaching] at hrequests hcache ⊢
    -- No answer was stored when it was looked for, and the inputs have other identities.
    have hnew : h ∉ t'.cache.entries.keys := by
      intro hmem
      rw [hcache.keys] at hmem
      rcases List.mem_append.mp hmem with hmem | hmem
      · exact Table.not_mem_keys (hmiss hcaching) hmem
      · obtain ⟨q, hq, rfl⟩ := List.mem_map.mp hmem
        exact hirrefl _ (hbelow q hq)
    refine ⟨fresh ++ [(f.origin, request f h ins)], ?_, ?_, fun q hq k hk => ?_⟩
    · show t'.requests ++ _ = _
      rw [hrequests, List.append_assoc]
      rfl
    · rw [List.map_append]
      exact hcache.insert hnew answer
    · obtain rfl : k = h := hsame hp hk
      rcases List.mem_append.mp hq with hq | hq
      · exact (hbelow q hq).to_reflTransGen
      · obtain rfl := List.mem_singleton.mp hq
        exact .refl

theorem Builds.adds {o : Except Halt BuildResult} (h : Builds ev (ev.answer n) f s o s')
    (hlog : s'.described ⊆ log) : s.AddsOnly (Needs log s (.build f)) s' := by
  cases h with
  | remembered _ | failed _ | entered _ => exact .refl s
  | anew hp hb =>
    have hadds := hb.adds hfs hn hf (hs.setBuilding hp) hirrefl hcaching hlog
    have hneeds : ∀ k, Needs log (s.setProgress f .building) (.build f) k →
        Needs log s (.build f) k := by
      intro k hk h hh
      refine hk h ?_
      rwa [BuildState.hash?_setProgress]
    have hmark : s.AddsOnly (Needs log s (.build f)) (s.setProgress f .building) :=
      .of_same rfl rfl
    exact (hmark.trans (hadds.imp hneeds)).trans (.of_same rfl rfl)

end Entering

omit hn in
/-- Every answer stores an answer of the backend for each invocation that it makes. -/
theorem adds_at (hirrefl : ∀ h, ¬ TransGen (Description.Uses log) h h) (hcaching : ev.caching = true)
    (n : Nat) : ev.AddsAt fs log n := by
  induction n with
  | zero => exact fun d s _ _ _ => .refl s
  | succ n ih =>
    intro d s hd hs hlog
    -- A value asks for the items that are written in it.
    have hvalue : ∀ {user : Option String} {α : Type} {items : List Item} {p : Plan α},
        p.Walks ev.model user [] items → ItemsWithin fs items →
        (p.run (ev.answer n) s).2.described ⊆ log →
        s.AddsOnly (fun _ => True) (p.run (ev.answer n) s).2 := fun hp hitems hlog =>
      run_adds hfs ih hp hitems (by simp) hs (fun _ _ _ _ _ _ _ _ => True.intro) rfl hlog
    cases d with
    | hash f => exact (hashOver_cases ev _ f s).adds hfs ih (hd f.mem_constructions) hs hlog
    | build f =>
      exact (buildOver_cases ev _ f s).adds hfs ih (hd f.mem_constructions) hs hirrefl hcaching hlog
    | scalar user value => exact hvalue (ev.scalar_walks user [] value) (value.items_within.mono hd) hlog
    | vector user value => exact hvalue (ev.vector_walks user [] value) (value.items_within.mono hd) hlog
    | datum user value => exact hvalue (ev.datum_walks user [] value) (value.items_within.mono hd) hlog
    | selection user value =>
      exact hvalue (ev.selection_walks user [] value) (value.items_within.mono hd) hlog

end Evaluation

end PartScript
