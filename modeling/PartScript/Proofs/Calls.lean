/-
  Calls: the demands that are made while a demand is answered, each with what is remembered
  when it is made. The answer to a demand depends on the answers to its calls alone. Whatever
  is remembered meanwhile changes by deeds of a few kinds, and what every deed keeps is found
  again at every call.
-/
import PartScript.Proofs.Invariants

namespace PartScript

open Relation

/-! ## The calls of a plan -/

/-- A plan that is carried out makes a demand, with so much remembered. -/
inductive Plan.Calls (ask : Answers) {α : Type} :
    Plan α → BuildState → Demand → BuildState → Prop where
  | here {d reported next s} : Calls ask (.demand d reported next) s d s
  | later {d reported next s a s' d' t} : ask d s = (.ok a, s') → Calls ask (next a) s' d' t →
      Calls ask (.demand d reported next) s d' t
  | identify {d next s d' t} : Calls ask (next d.hash) (s.describe d) d' t →
      Calls ask (.identify d next) s d' t

namespace Plan

variable {α : Type} {ask ask' : Answers}

/-- Answers that agree on the calls of a plan give the same run. -/
theorem run_congr {p : Plan α} {s : BuildState}
    (h : ∀ d t, p.Calls ask s d t → ask' d t = ask d t) : p.run ask' s = p.run ask s := by
  induction p generalizing s with
  | done a => rfl
  | stop e => rfl
  | demand d reported next ih =>
    rw [run_demand, run_demand, h d s .here]
    rcases hx : ask d s with ⟨_ | a, s'⟩
    · rfl
    · exact ih a fun d' t hcall => h d' t (.later hx hcall)
  | identify d next ih => exact ih d.hash fun d' t hcall => h d' t (.identify hcall)

/-- A demand of which nobody reports the error is answered as it is. -/
theorem run_own (ask : Answers) (d : Demand) (s : BuildState) :
    (Plan.demand d none .done).run ask s = ask d s := by
  rw [run_demand]
  rcases ask d s with ⟨halt | a, s'⟩
  · cases halt <;> rfl
  · rfl

/-- Every call of a plan is made for one of the items that it asks for. -/
theorem Walks.call {M : Model} {user : Option String} {known : List StructuralHash}
    {items : List Item} {p : Plan α} (hp : p.Walks M user known items) {s t : BuildState}
    {d : Demand} (h : p.Calls ask s d t) : ∃ item ∈ items, item.Makes M user d := by
  induction h generalizing known items with
  | here =>
    cases hp with
    | demand hm _ => exact ⟨_, List.mem_cons_self, hm⟩
  | later _ _ ih =>
    cases hp with
    | demand _ hnext =>
      obtain ⟨item, hitem, hm⟩ := ih (hnext _)
      exact ⟨item, List.mem_cons_of_mem _ hitem, hm⟩
  | identify _ ih =>
    cases hp with
    | identify _ hnext => exact ih (hnext _)

end Plan

/-! ## The calls of a demand -/

namespace Evaluation

/-- Answering a demand makes another one. A value asks for what its expression asks for; what
is identified asks for its arguments, and what is built for its arguments and then, unless an
answer is found in the cache, for its inputs. -/
inductive Makes (ev : Evaluation) (ask : Answers) :
    Demand → BuildState → Demand → BuildState → Prop where
  | value {d s d' t} : d.IsValue → (ev.plan d).Calls ask s d' t → Makes ev ask d s d' t
  | identity {f s d' t} : (s.feature f).hash? = none → (s.feature f).hashing = false →
      (ev.arguments f).Calls ask (s.setHashing f true) d' t → Makes ev ask (.hash f) s d' t
  | argument {f s d' t} : (s.feature f).progress = .unbuilt →
      ((s.setProgress f .building).feature f).hashing = false →
      (ev.arguments f).Calls ask ((s.setProgress f .building).setHashing f true) d' t →
      Makes ev ask (.build f) s d' t
  | input {f s x u d' t} : (s.feature f).progress = .unbuilt →
      Fingerprints ev ask f (s.setProgress f .building) (.ok x) u →
      (ev.caching = true → u.cache.entries.get? x.1 = none) →
      (inputs (some f.label) x.2).Calls ask (u.missed ev.caching) d' t →
      Makes ev ask (.build f) s d' t

section Congruence

variable {ev : Evaluation} {ask ask' : Answers} {f : Feature} {s : BuildState}

theorem fingerprint_congr (h : (s.feature f).hashing = false → ∀ d t,
    (ev.arguments f).Calls ask (s.setHashing f true) d t → ask' d t = ask d t) :
    ev.fingerprint ask' f s = ev.fingerprint ask f s := by
  unfold fingerprint
  rw [Build.bind_apply, Build.bind_apply]
  simp only [Build.featureState]
  cases hh : (s.feature f).hashing with
  | true => rfl
  | false =>
    simp only [Bool.false_eq_true, ↓reduceIte, Build.bind_apply, Build.updateFeature,
      Build.attempt]
    have hrun := Plan.run_congr (h hh)
    unfold BuildState.setHashing BuildState.update at hrun
    rw [hrun]

theorem hashOver_congr
    (h : ∀ d t, ev.Makes ask (.hash f) s d t → ask' d t = ask d t) :
    ev.hashOver ask' f s = ev.hashOver ask f s := by
  unfold hashOver
  rw [Build.bind_apply, Build.bind_apply]
  simp only [Build.featureState]
  cases hh : (s.feature f).hash? with
  | some g => rfl
  | none =>
    simp only [Build.bind_apply]
    rw [fingerprint_congr fun hidle d t hcall => h d t (.identity hh hidle hcall)]

theorem buildOver_congr
    (h : ∀ d t, ev.Makes ask (.build f) s d t → ask' d t = ask d t) :
    ev.buildOver ask' f s = ev.buildOver ask f s := by
  unfold buildOver
  rw [Build.bind_apply, Build.bind_apply]
  simp only [Build.featureState]
  cases hp : (s.feature f).progress with
  | built result => rfl
  | failed e => rfl
  | building => rfl
  | unbuilt =>
    simp only [Build.bind_apply, Build.updateFeature, Build.attempt]
    suffices ev.buildAnew ask' f (s.setProgress f .building) =
        ev.buildAnew ask f (s.setProgress f .building) by
      unfold BuildState.setProgress BuildState.update at this
      rw [this]
    unfold buildAnew
    rw [Build.bind_apply, Build.bind_apply,
      fingerprint_congr fun hidle d t hcall => h d t (.argument hp hidle hcall)]
    have hcases := fingerprint_cases ev ask f (s.setProgress f .building)
    revert hcases
    generalize ev.fingerprint ask f (s.setProgress f .building) = r
    obtain ⟨outcome, u⟩ := r
    intro hcases
    cases outcome with
    | error halt => rfl
    | ok x =>
      have hrun : (ev.caching = true → u.cache.entries.get? x.1 = none) →
          (inputs (some f.label) x.2).run ask' (u.missed ev.caching) =
            (inputs (some f.label) x.2).run ask (u.missed ev.caching) := fun hmiss =>
        Plan.run_congr fun d t hcall => h d t (.input hp hcases hmiss hcall)
      cases hc : ev.caching with
      | false =>
        simp only [hc, BuildState.missed, Bool.false_eq_true, ↓reduceIte] at hrun
        simp only [Bool.false_eq_true, ↓reduceIte, Build.bind_apply, Build.pure_apply]
        rw [hrun False.elim]
      | true =>
        simp only [hc, BuildState.missed, ↓reduceIte] at hrun
        simp only [↓reduceIte, Build.bind_apply, Build.lookup, ResultCache.lookup]
        cases he : u.cache.entries.get? x.1 with
        | none =>
          simp only [Build.bind_apply]
          rw [hrun fun _ => he]
        | some answer => rfl

/-- The answer to a demand depends on the answers to its calls alone. -/
theorem answerOver_congr (d : Demand)
    (h : ∀ d' t, ev.Makes ask d s d' t → ask' d' t = ask d' t) :
    ev.answerOver ask' d s = ev.answerOver ask d s := by
  cases d with
  | hash f => exact hashOver_congr h
  | build f => exact buildOver_congr h
  | scalar user value => exact Plan.run_congr fun d t hcall => h d t (.value True.intro hcall)
  | vector user value => exact Plan.run_congr fun d t hcall => h d t (.value True.intro hcall)
  | datum user value => exact Plan.run_congr fun d t hcall => h d t (.value True.intro hcall)
  | selection user value => exact Plan.run_congr fun d t hcall => h d t (.value True.intro hcall)

end Congruence

end Evaluation

/-- A demand that is answered to some depth, and what is remembered when it is made. -/
structure Call where
  depth : Nat
  demand : Demand
  state : BuildState

namespace Evaluation

variable (ev : Evaluation)

/-- What a call comes to, and what is remembered afterwards. -/
def outcome (c : Call) : Except Halt c.demand.Answer × BuildState :=
  ev.answer c.depth c.demand c.state

/-- One call makes another. -/
inductive Spawns : Call → Call → Prop where
  | mk {n d s d' t} : ev.Makes (ev.answer n) d s d' t → Spawns ⟨n + 1, d, s⟩ ⟨n, d', t⟩

/-- Calls with those that they make. -/
def Complete (C : Call → Prop) : Prop := ∀ c c', C c → ev.Spawns c c' → C c'

/-- What a demand for a construction of a closed collection demands is within the
collection. -/
theorem Makes.within {ev : Evaluation} {fs : List Feature} (hfs : Closed ev.model fs)
    {ask : Answers} {d d' : Demand} {s t : BuildState} (h : ev.Makes ask d s d' t)
    (hd : d.constructions ⊆ fs) : d'.constructions ⊆ fs := by
  have hwalks : ∀ {user : Option String} {α : Type} {items : List Item} {p : Plan α}
      {s t : BuildState} {d : Demand}, p.Walks ev.model user [] items → ItemsWithin fs items →
      p.Calls ask s d t → d.constructions ⊆ fs := by
    intro user α items p s t d hp hitems hcall
    obtain ⟨item, hitem, hm⟩ := hp.call hcall
    exact hfs.makes (hitems item hitem) hm
  cases h with
  | value hv hcall => exact hwalks (ev.value_walks hv) (d.items_within.mono hd) hcall
  | @identity f _ _ _ hf hidle hcall =>
    exact hwalks (ev.arguments_walks [] f) (hfs.items (hd f.mem_constructions)) hcall
  | @argument f _ _ _ hf hidle hcall =>
    exact hwalks (ev.arguments_walks [] f) (hfs.items (hd f.mem_constructions)) hcall
  | @input f _ x u _ _ hf hp hmiss hcall =>
    obtain ⟨-, -, t0, hrun, -⟩ := hp.of_ok
    exact hwalks (inputs_walks ev (some f.label) x.2 [])
      (arguments_inputs_within hfs (hd f.mem_constructions) hrun) hcall

/-! ## Deeds -/

/-- The backend is about to be invoked for a construction: the arguments are evaluated, no
answer to them is found in the cache, and the inputs are built. `s` is where the build began,
and `t` what is remembered now. -/
structure Readies (ask : Answers) (f : Feature) (s : BuildState) (hash : StructuralHash)
    (args : List ResolvedArgument) (ins : List Input) (t : BuildState) : Prop where
  unbuilt : (s.feature f).progress = .unbuilt
  steps : ∃ u, Fingerprints ev ask f (s.setProgress f .building) (.ok (hash, args)) u ∧
    (ev.caching = true → u.cache.entries.get? hash = none) ∧
    (inputs (some f.label) args).run ask (u.missed ev.caching) = (.ok ins, t)

/-- The answer of the backend to a request, a result with the number of the requests before
it. -/
def numbered (t : BuildState) (request : BuildRequest) : BuildAnswer :=
  (ev.backend.build request).map fun result => { result with serial := t.requests.length }

/-- A fingerprint of a construction begins with `s` remembered, to identify it or to build it;
what its arguments demand is answered to depth `n`. -/
inductive Begins (C : Call → Prop) (n : Nat) (f : Feature) : BuildState → Prop where
  | identity {s} : C ⟨n + 1, .hash f, s⟩ → (s.feature f).hash? = none → Begins C n f s
  | build {s} : C ⟨n + 1, .build f, s⟩ → (s.feature f).progress = .unbuilt →
      Begins C n f (s.setProgress f .building)

/-- One change of what is remembered while the calls in `C` are answered. -/
inductive Deed (C : Call → Prop) : BuildState → BuildState → Prop where
  | describe (s : BuildState) (d : Description) : Deed C s (s.describe d)
  | hashing (s : BuildState) (f : Feature) (b : Bool) : Deed C s (s.setHashing f b)
  | identify {n s f args t} : Begins C n f s → (s.feature f).hashing = false →
      (ev.arguments f).run (ev.answer n) (s.setHashing f true) = (.ok args, t) →
      Deed C t (t.identified f args)
  | missed (s : BuildState) (caching : Bool) : Deed C s (s.missed caching)
  | begin (s : BuildState) (f : Feature) : Deed C s (s.setProgress f .building)
  | fail {n f s halt} (t : BuildState) : C ⟨n + 1, .build f, s⟩ →
      (s.feature f).progress = .unbuilt → (ev.answer (n + 1) (.build f) s).1 = .error halt →
      Deed C t (t.setProgress f (progressAfter (.error halt)))
  | cached {n f s hash answer t} : C ⟨n + 1, .build f, s⟩ → ev.caching = true →
      t.cache.entries.get? hash = some answer →
      Deed C t (t.hit.setProgress f (progressAfter (outcomeOf f answer)))
  | invoke {n f s hash args ins t} : C ⟨n + 1, .build f, s⟩ →
      ev.Readies (ev.answer n) f s hash args ins t →
      Deed C t ((t.invoked ev.caching f (request f hash ins)
        (ev.numbered t (request f hash ins))).setProgress f
          (progressAfter (outcomeOf f (ev.numbered t (request f hash ins)))))

/-- Deeds in sequence. -/
abbrev Deeds (C : Call → Prop) : BuildState → BuildState → Prop := ReflTransGen (ev.Deed C)

variable {ev} {C : Call → Prop} {n : Nat}

/-- What every deed keeps. -/
theorem Deeds.keeps {I : BuildState → Prop} {s t : BuildState} (h : ev.Deeds C s t)
    (hI : ∀ s t, ev.Deed C s t → I s → I t) (hs : I s) : I t := by
  induction h with
  | refl => exact hs
  | tail _ hdeed ih => exact hI _ _ hdeed ih

theorem run_deeds (hn : ∀ d t, C ⟨n, d, t⟩ → ev.Deeds C t (ev.answer n d t).2) {α : Type}
    (p : Plan α) {s : BuildState} (hcalls : ∀ d t, p.Calls (ev.answer n) s d t → C ⟨n, d, t⟩) :
    ev.Deeds C s (p.run (ev.answer n) s).2 ∧
      ∀ d t, p.Calls (ev.answer n) s d t → ev.Deeds C s t := by
  induction p generalizing s with
  | done a => exact ⟨.refl, nofun⟩
  | stop e => exact ⟨.refl, nofun⟩
  | demand d reported next ih =>
    have hfirst := hn d s (hcalls d s .here)
    rw [Plan.run_demand]
    rcases hx : ev.answer n d s with ⟨halt | a, s'⟩
    · rw [hx] at hfirst
      refine ⟨hfirst, fun d' t hcall => ?_⟩
      cases hcall with
      | here => exact .refl
      | later ha _ => cases hx.symm.trans ha
    · rw [hx] at hfirst
      obtain ⟨hrun, hnext⟩ := ih a fun d' t hcall => hcalls d' t (.later hx hcall)
      refine ⟨hfirst.trans hrun, fun d' t hcall => ?_⟩
      cases hcall with
      | here => exact .refl
      | later ha hcall =>
        obtain ⟨heq, rfl⟩ := Prod.mk.inj (hx.symm.trans ha)
        obtain rfl := Except.ok.inj heq
        exact hfirst.trans (hnext d' t hcall)
  | identify d next ih =>
    obtain ⟨hrun, hnext⟩ := ih d.hash fun d' t hcall => hcalls d' t (.identify hcall)
    refine ⟨.head (.describe s d) hrun, fun d' t hcall => ?_⟩
    cases hcall with
    | identify hcall => exact .head (.describe s d) (hnext d' t hcall)

section Complete

variable (hC : ev.Complete C)
include hC

/-- The calls of a fingerprint. -/
theorem Begins.calls {f : Feature} {s t : BuildState} {d : Demand} (h : Begins C n f s)
    (hidle : (s.feature f).hashing = false)
    (hcall : (ev.arguments f).Calls (ev.answer n) (s.setHashing f true) d t) : C ⟨n, d, t⟩ := by
  cases h with
  | identity hs hh => exact hC _ _ hs (.mk (.identity hh hidle hcall))
  | build hs hp => exact hC _ _ hs (.mk (.argument hp hidle hcall))

theorem Fingerprints.deeds (hn : ∀ d t, C ⟨n, d, t⟩ → ev.Deeds C t (ev.answer n d t).2)
    {f : Feature} {s s' : BuildState} (hbegins : Begins C n f s)
    {o : Except Halt (StructuralHash × List ResolvedArgument)}
    (h : Fingerprints ev (ev.answer n) f s o s') : ev.Deeds C s s' := by
  cases h with
  | entered _ => exact .refl
  | @stopped halt t hidle hr =>
    have hrun := (run_deeds hn (ev.arguments f) fun _ _ => hbegins.calls hC hidle).1
    rw [hr] at hrun
    exact .tail (.head (.hashing s f true) hrun) (.hashing t f false)
  | @finished args t hidle hr =>
    have hrun := (run_deeds hn (ev.arguments f) fun _ _ => hbegins.calls hC hidle).1
    rw [hr] at hrun
    exact .tail (.head (.hashing s f true) hrun) (.identify hbegins hidle hr)

theorem Identifies.deeds (hn : ∀ d t, C ⟨n, d, t⟩ → ev.Deeds C t (ev.answer n d t).2)
    {f : Feature} {s s' : BuildState} (hs : C ⟨n + 1, .hash f, s⟩)
    {o : Except Halt StructuralHash} (h : Identifies ev (ev.answer n) f s o s') :
    ev.Deeds C s s' := by
  cases h with
  | remembered _ => exact .refl
  | halted hh hp => exact hp.deeds hC hn (.identity hs hh)
  | computed hh hp => exact hp.deeds hC hn (.identity hs hh)

/-- A build evaluates its arguments before it builds its inputs. -/
theorem inputs_deeds (hn : ∀ d t, C ⟨n, d, t⟩ → ev.Deeds C t (ev.answer n d t).2)
    {f : Feature} {s u v : BuildState} (hs : C ⟨n + 1, .build f, s⟩)
    (hp : (s.feature f).progress = .unbuilt) {x : StructuralHash × List ResolvedArgument}
    (hprints : Fingerprints ev (ev.answer n) f (s.setProgress f .building) (.ok x) u)
    (hmiss : ev.caching = true → u.cache.entries.get? x.1 = none) {o : Except Halt (List Input)}
    (hrun : (inputs (some f.label) x.2).run (ev.answer n) (u.missed ev.caching) = (o, v)) :
    ev.Deeds C s v := by
  have harguments := hprints.deeds hC hn (.build hs hp)
  have hinputs := (run_deeds hn (inputs (some f.label) x.2) fun d t hcall =>
    hC _ _ hs (.mk (.input hp hprints hmiss hcall))).1
  rw [hrun] at hinputs
  exact .head (.begin s f) ((harguments.tail (.missed u _)).trans hinputs)

theorem Builds.deeds (hn : ∀ d t, C ⟨n, d, t⟩ → ev.Deeds C t (ev.answer n d t).2)
    {f : Feature} {s s' : BuildState} (hs : C ⟨n + 1, .build f, s⟩)
    {o : Except Halt BuildResult} (ho : (ev.answer (n + 1) (.build f) s).1 = o)
    (h : Builds ev (ev.answer n) f s o s') : ev.Deeds C s s' := by
  cases h with
  | remembered _ => exact .refl
  | failed _ => exact .refl
  | entered _ => exact .refl
  | @anew _ t hp hb =>
    have hprint : ∀ {o u}, Fingerprints ev (ev.answer n) f (s.setProgress f .building) o u →
        ev.Deeds C s u := fun h => .head (.begin s f) (h.deeds hC hn (.build hs hp))
    cases hb with
    | unidentified hprints => exact (hprint hprints).tail (.fail t hs hp ho)
    | recalled hprints hcaching hentry =>
      exact (hprint hprints).tail (.cached hs hcaching hentry)
    | starved hprints hmiss hrun =>
      exact (inputs_deeds hC hn hs hp hprints hmiss hrun).tail (.fail t hs hp ho)
    | invoked hprints hmiss hrun hnumbered =>
      subst hnumbered
      exact (inputs_deeds hC hn hs hp hprints hmiss hrun).tail
        (.invoke hs ⟨hp, _, hprints, hmiss, hrun⟩)

/-- What is remembered changes by deeds while a call is answered. -/
theorem deeds_at (n : Nat) (d : Demand) (s : BuildState) (hs : C ⟨n, d, s⟩) :
    ev.Deeds C s (ev.answer n d s).2 := by
  induction n generalizing d s with
  | zero => exact .refl
  | succ n ih =>
    have hvalue : d.IsValue → ev.Deeds C s ((ev.plan d).run (ev.answer n) s).2 := fun hv =>
      (run_deeds ih (ev.plan d) fun d' t hcall => hC _ _ hs (.mk (.value hv hcall))).1
    cases d with
    | hash f => exact (hashOver_cases ev _ f s).deeds hC ih hs
    | build f => exact (buildOver_cases ev _ f s).deeds hC ih hs rfl
    | scalar user value => exact hvalue True.intro
    | vector user value => exact hvalue True.intro
    | datum user value => exact hvalue True.intro
    | selection user value => exact hvalue True.intro

/-- Until the backend is invoked. -/
theorem Readies.deeds {f : Feature} {s t : BuildState} {hash : StructuralHash}
    {args : List ResolvedArgument} {ins : List Input} (hs : C ⟨n + 1, .build f, s⟩)
    (h : ev.Readies (ev.answer n) f s hash args ins t) : ev.Deeds C s t := by
  obtain ⟨u, hprints, hmiss, hrun⟩ := h.steps
  exact inputs_deeds hC (deeds_at hC n) hs h.unbuilt hprints hmiss hrun

/-- From a call to those that it makes. -/
theorem Spawns.deeds {c c' : Call} (h : ev.Spawns c c') (hc : C c) :
    ev.Deeds C c.state c'.state := by
  have hn := deeds_at hC
  cases h with
  | @mk n d s d' t hmakes =>
    have hmade : ∀ {d' t}, ev.Makes (ev.answer n) d s d' t → C ⟨n, d', t⟩ :=
      fun h => hC _ _ hc (.mk h)
    cases hmakes with
    | value hv hcall =>
      exact (run_deeds (hn n) (ev.plan d) fun _ _ h => hmade (.value hv h)).2 d' t hcall
    | @identity f _ _ _ hh hidle hcall =>
      have harguments := (run_deeds (hn n) (ev.arguments f) fun _ _ h =>
        hmade (.identity hh hidle h)).2 d' t hcall
      exact .head (.hashing s f true) harguments
    | @argument f _ _ _ hp hidle hcall =>
      have harguments := (run_deeds (hn n) (ev.arguments f) fun _ _ h =>
        hmade (.argument hp hidle h)).2 d' t hcall
      exact .head (.begin s f) (.head (.hashing _ f true) harguments)
    | @input f _ x u _ _ hp hprints hmiss hcall =>
      have hprint := hprints.deeds hC (hn n) (.build hc hp)
      have hinputs := (run_deeds (hn n) (inputs (some f.label) x.2) fun _ _ h =>
        hmade (.input hp hprints hmiss h)).2 d' t hcall
      exact .head (.begin s f) ((hprint.tail (.missed u _)).trans hinputs)

end Complete

end Evaluation

/-! ## The calls of a query -/

namespace Workbench

/-- The calls that are made for a query. -/
inductive Calls (b : Workbench) (id : Nat) (q : Query) : Call → Prop where
  | ask {d t} : (q.plan (b.shop.evaluation id)).Calls
      ((b.shop.evaluation id).answers (b.made id).length) (b.shop.state id) d t →
      Calls b id q ⟨(b.shop.evaluation id).depth (b.made id).length, d, t⟩
  | next {c c'} : Calls b id q c → (b.shop.evaluation id).Spawns c c' → Calls b id q c'

variable {b : Workbench} {id : Nat} {q : Query}

theorem calls_complete (b : Workbench) (id : Nat) (q : Query) :
    (b.shop.evaluation id).Complete (b.Calls id q) := fun _ _ => .next

/-- A query calls for nothing but constructions of its session. -/
theorem Calls.within {registry : Registry} (h : b.Keeps registry id)
    (hq : q.constructions ⊆ b.constructions id) {c : Call} (hc : b.Calls id q c) :
    c.demand.constructions ⊆ b.constructions id := by
  induction hc with
  | ask hcall =>
    obtain ⟨user, hwalks⟩ := q.plan_walks (b.shop.evaluation id)
    obtain ⟨item, hitem, hm⟩ := hwalks.call hcall
    exact h.closed.makes (items_within_ask hq (List.Subset.refl _) item hitem) hm
  | next _ hspawns ih =>
    cases hspawns with
    | mk hmakes => exact hmakes.within h.closed ih

/-- What is remembered during a query, and after it, is what its deeds come to. -/
theorem deeds_ask (b : Workbench) (id : Nat) (q : Query) :
    (b.shop.evaluation id).Deeds (b.Calls id q) (b.shop.state id) (b.outcome id q).2 ∧
      ∀ c, b.Calls id q c →
        (b.shop.evaluation id).Deeds (b.Calls id q) (b.shop.state id) c.state := by
  have hcomplete := b.calls_complete id q
  obtain ⟨hrun, hcalls⟩ := Evaluation.run_deeds (Evaluation.deeds_at hcomplete _)
    (q.plan (b.shop.evaluation id)) fun d t hcall => .ask hcall
  refine ⟨hrun, fun c hc => ?_⟩
  induction hc with
  | ask hcall => exact hcalls _ _ hcall
  | next hc hspawns ih => exact ih.trans (hspawns.deeds hcomplete hc)

/-- What every deed of a query keeps holds at each of its calls, and after it. -/
theorem kept_ask {I : BuildState → Prop}
    (hI : ∀ s t, (b.shop.evaluation id).Deed (b.Calls id q) s t → I s → I t)
    (h : I (b.shop.state id)) :
    I (b.outcome id q).2 ∧ ∀ c, b.Calls id q c → I c.state :=
  ⟨(b.deeds_ask id q).1.keeps hI h, fun c hc => ((b.deeds_ask id q).2 c hc).keeps hI h⟩

end Workbench

end PartScript
