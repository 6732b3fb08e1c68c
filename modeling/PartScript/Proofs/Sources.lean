/-
  Where outcomes come from. A construction that has a result, or was refused by the backend, had
  the backend invoked for it with the inputs of its own arguments, or found an answer to a
  request with its identity in a cache. Everything in a cache is the answer to a request on
  record. This holds of every session in every run.
-/
import PartScript.Proofs.Chains
import PartScript.Proofs.Deliveries

namespace PartScript

open Relation

theorem List.getElem?_of_prefix {α : Type} {l more : List α} (h : l <+: more) {i : Nat} {a : α}
    (ha : l[i]? = some a) : more[i]? = some a := by
  obtain ⟨rest, rfl⟩ := h
  rw [List.getElem?_append_left (List.getElem?_eq_some_iff.mp ha).1]
  exact ha

/-! ## Answers on record -/

/-- The input that an evaluated argument calls for: its value, or any shape for a feature. -/
inductive ResolvedArgument.Fits : ResolvedArgument → Input → Prop where
  | scalar (x : Float) : Fits (.scalar x) (.scalar x)
  | vector (v : Vec3) : Fits (.vector v) (.vector v)
  | datum (d : Datum) : Fits (.datum d) (.datum d)
  | keyword (word : String) : Fits (.keyword word) (.keyword word)
  | feature (r : ResolvedFeature) (shape : BuildResult) : Fits (.feature r) (.shape shape)
  | selection (t : Selection) : Fits (.selection t) (.selection t)

theorem ResolvedArgument.Delivers.fits {s : BuildState} {a : ResolvedArgument} {input : Input}
    (h : a.Delivers s input) : a.Fits input := by
  cases h with
  | scalar x => exact .scalar x
  | vector v => exact .vector v
  | datum d => exact .datum d
  | keyword word => exact .keyword word
  | feature _ _ => exact .feature _ _
  | selection t => exact .selection t

/-- The request with a number is one for a construction of a collection. What its arguments
evaluate to has been described, and the inputs fit it. -/
structure BuildState.Requested (s : BuildState) (owned : Feature → Prop) (i : Nat) (g : Feature)
    (args : List ResolvedArgument) (ins : List Input) : Prop where
  mem : owned g
  described : Description.feature g.typeName args ∈ s.described
  length : args.length = g.arguments.length
  inputs : List.Forall₂ ResolvedArgument.Fits args ins
  recorded : s.requests[i]? = some (g.origin,
    Evaluation.request g (Description.feature g.typeName args).hash ins)

/-- A shape for an identity: what the backend answered to a request for a construction with it,
given shapes for the identities that its arguments refer to; or what is found below such a
shape. -/
inductive Backend.Shows (backend : Backend) (owned : Feature → Prop) (s : BuildState) :
    StructuralHash → BuildResult → Prop where
  | built {i g args ins r} : s.Requested owned i g args ins →
      (∀ (j : Nat) a input k shape, args[j]? = some a → ins[j]? = some input → a.ref? = some k →
        input.shape? = some shape → Shows backend owned s k shape) →
      backend.answerTo i (Evaluation.request g (Description.feature g.typeName args).hash ins) =
        .ok r →
      Shows backend owned s (Description.feature g.typeName args).hash r
  | sub {h r owner path shape} : Shows backend owned s h r →
      Description.subResult h path ∈ s.described → r.descend owner path = .ok shape →
      Shows backend owned s (Description.subResult h path).hash shape

/-- The backend has answered so to a request for a construction with the identity, given shapes
for the identities that its arguments refer to. -/
structure Backend.Answered (backend : Backend) (owned : Feature → Prop) (s : BuildState)
    (hash : StructuralHash) (answer : BuildAnswer) (i : Nat) (g : Feature)
    (args : List ResolvedArgument) (ins : List Input) : Prop
    extends s.Requested owned i g args ins where
  hash_eq : hash = (Description.feature g.typeName args).hash
  shows : ∀ (j : Nat) a input k shape, args[j]? = some a → ins[j]? = some input →
    a.ref? = some k → input.shape? = some shape → backend.Shows owned s k shape
  answer_eq : answer = backend.answerTo i (Evaluation.request g hash ins)

section Later

variable {backend : Backend} {owned owned' : Feature → Prop} {s s' : BuildState}
  {hash : StructuralHash} {answer : BuildAnswer} {i : Nat} {g : Feature}
  {args : List ResolvedArgument} {ins : List Input} {r : BuildResult}
  (hdescribed : s.described ⊆ s'.described) (hrequests : s.requests <+: s'.requests)
  (howned : ∀ g, owned g → owned' g)

theorem Backend.Answered.shown (h : backend.Answered owned s hash (.ok r) i g args ins) :
    backend.Shows owned s hash r := by
  obtain ⟨hrequested, rfl, hshows, hanswer⟩ := h
  exact .built hrequested hshows hanswer.symm

include hdescribed hrequests howned

theorem BuildState.Requested.mono (h : s.Requested owned i g args ins) :
    s'.Requested owned' i g args ins :=
  ⟨howned g h.mem, hdescribed h.described, h.length, h.inputs,
    List.getElem?_of_prefix hrequests h.recorded⟩

theorem Backend.Shows.mono (h : backend.Shows owned s hash r) :
    backend.Shows owned' s' hash r := by
  induction h with
  | built hrequested _ hanswer ih =>
    exact .built (hrequested.mono hdescribed hrequests howned) ih hanswer
  | sub _ hd hdescend ih => exact .sub ih (hdescribed hd) hdescend

theorem Backend.Answered.mono (h : backend.Answered owned s hash answer i g args ins) :
    backend.Answered owned' s' hash answer i g args ins :=
  ⟨h.toRequested.mono hdescribed hrequests howned, h.hash_eq,
    fun j a input k shape ha hinput hk hshape =>
      (h.shows j a input k shape ha hinput hk hshape).mono hdescribed hrequests howned, h.answer_eq⟩

end Later

namespace Evaluation

variable {ev : Evaluation} {fs : List Feature} {s s' t : BuildState} {f : Feature}

/-! ## Ends of builds -/

/-- A build that stops on the way to an answer ends with no refusal of its own. -/
theorem Stops.not_refusal {halt : Halt} (h : ev.Stops f halt) (label : String)
    (source : BackendError) : halt ≠ .failed (.backend label source) := by
  -- What is asked for on behalf of a construction is reported as its input.
  have hstems : ∀ {e items}, ev.model.Stems (fun _ _ => True) (some f.label) items e →
      e ≠ .backend label source := by
    rintro e items (hplain | ⟨g, source', -, -, rfl⟩) heq
    · rw [heq] at hplain
      exact hplain
    · cases heq
  rintro rfl
  cases h with
  | @arguments n s _ t hr =>
    exact hstems (calls_stem (C := fun _ => True) (fun _ _ _ _ => True.intro)
      (fun _ _ _ _ _ _ => True.intro) (ev.arguments_walks [] f) (ev.arguments_reports f)
      (fun _ _ _ => True.intro) hr) rfl
  | @inputs n args s _ t hr =>
    exact hstems (calls_stem (C := fun _ => True) (fun _ _ _ _ => True.intro)
      (fun _ _ _ _ _ _ => True.intro) (inputs_walks ev (some f.label) args [])
      (inputs_reports _ args) (fun _ _ _ => True.intro) hr) rfl

theorem outcomeOf_refused {answer : BuildAnswer} {label : String} {source : BackendError}
    (h : outcomeOf f answer = .error (.failed (.backend label source))) :
    label = f.label ∧ answer = .error source := by
  cases answer with
  | ok result => cases h
  | error source' =>
    cases h
    exact ⟨rfl, rfl⟩

/-! ## Sources -/

variable {owned owned' : Feature → Prop}

/-- A construction's own request: for its identity, with the inputs of its evaluated
arguments. -/
inductive Owns (ev : Evaluation) (s : BuildState) (f : Feature) : BuildRequest → Prop where
  | mk {hash args ins} : (s.feature f).hash? = some hash → (ev.arguments f).Recalls ev s args →
      (inputs (some f.label) args).Recalls ev s ins → Owns ev s f (request f hash ins)

theorem Owns.mono {r : BuildRequest} (h : ev.Owns s f r) (hs : s'.Remembers s) :
    ev.Owns s' f r := by
  cases h with
  | mk hhash hargs hins => exact .mk (hs.hash? hhash) (hargs.mono hs) (hins.mono hs)

theorem Owns.extends {r : BuildRequest} (h : ev.Owns s f r) {M : Model}
    (hM : M.Extends ev.model) : Owns { ev with model := M } s f r := by
  have hc := (Pairing.extension_complete hM).toSound
  cases h with
  | @mk hash args ins hhash hargs hins =>
    have hself : List.Forall₂ (ResolvedArgument.Related Eq) args args :=
      List.forall₂_same.mpr fun a _ => .refl (fun _ => rfl) a
    have hargs' : ({ ev with model := M }.arguments f).Recalls { ev with model := M } s args :=
      hargs.extends hM (fun _ _ => ResolvedArgument.forall₂_eq) (arguments_matches hc f [])
    have hins' : (inputs (some f.label) args).Recalls { ev with model := M } s ins :=
      hins.extends hM (fun _ _ h => Pairing.input_forall₂_eq h)
        (inputs_matches hc (some f.label) hself [])
    exact .mk hhash hargs' hins'

/-- How a construction with an identity came to an answer: the backend gave it to a construction
with the identity, and to this one for its own request if there is no cache. -/
inductive Source (ev : Evaluation) (owned : Feature → Prop) (s : BuildState) (f : Feature)
    (answer : BuildAnswer) : Prop where
  | answered {hash i g args ins} : (s.feature f).hash? = some hash →
      ev.backend.Answered owned s hash answer i g args ins →
      (ev.caching = true ∨ g = f ∧ ev.Owns s f (request g hash ins)) → Source ev owned s f answer

theorem Source.mono {answer : BuildAnswer} (h : ev.Source owned s f answer)
    (hs : s'.Remembers s) (hrequests : s.requests <+: s'.requests)
    (howned : ∀ g, owned g → owned' g) : ev.Source owned' s' f answer := by
  cases h with
  | answered hhash hanswered hown =>
    exact .answered (hs.hash? hhash) (hanswered.mono hs.described hrequests howned)
      (hown.imp_right fun h => ⟨h.1, h.2.mono hs⟩)

theorem Source.extends {answer : BuildAnswer} (h : ev.Source owned s f answer) {M : Model}
    (hM : M.Extends ev.model) : Source { ev with model := M } owned s f answer := by
  cases h with
  | answered hhash hanswered hown =>
    exact .answered hhash hanswered (hown.imp_right fun h => ⟨h.1, h.2.extends hM⟩)

/-- Every outcome that is remembered has a source, and everything in the cache was answered. -/
structure Sourced (ev : Evaluation) (owned : Feature → Prop) (fs : List Feature)
    (s : BuildState) : Prop where
  results : ∀ f ∈ fs, ∀ r, (s.feature f).progress = .built r → ev.Source owned s f (.ok r)
  refusals : ∀ f ∈ fs, ∀ label source, (s.feature f).progress = .failed (.backend label source) →
    label = f.label ∧ ev.Source owned s f (.error source)
  entries : ∀ hash answer, s.cache.entries.get? hash = some answer →
    ∃ i g args ins, ev.backend.Answered owned s hash answer i g args ins

namespace Sourced

/-- More is remembered, and nothing has been settled. -/
theorem later (h : ev.Sourced owned fs s) (hs : s'.Remembers s)
    (hrequests : s.requests <+: s'.requests) (howned : ∀ g, owned g → owned' g)
    (hbuilt : ∀ f r, (s'.feature f).progress = .built r → (s.feature f).progress = .built r)
    (hfailed : ∀ f e, (s'.feature f).progress = .failed e → (s.feature f).progress = .failed e)
    (hcache : s'.cache.entries = s.cache.entries ∨ ∀ hash answer,
      s'.cache.entries.get? hash = some answer →
        ∃ i g args ins, ev.backend.Answered owned' s' hash answer i g args ins) :
    ev.Sourced owned' fs s' where
  results := fun f hf r hr => (h.results f hf r (hbuilt f r hr)).mono hs hrequests howned
  refusals := fun f hf label source he => by
    obtain ⟨hlabel, hsource⟩ := h.refusals f hf label source (hfailed f _ he)
    exact ⟨hlabel, hsource.mono hs hrequests howned⟩
  entries := fun hash answer hget => by
    rcases hcache with heq | hanswered
    · rw [heq] at hget
      obtain ⟨i, g, args, ins, hanswered⟩ := h.entries hash answer hget
      exact ⟨i, g, args, ins, hanswered.mono hs.described hrequests howned⟩
    · exact hanswered hash answer hget

/-- A build has ended: with an answer that has a source, or with no refusal. -/
theorem settle (h : ev.Sourced owned fs s) (hfs : Closed ev.model fs) (hf : f ∈ fs)
    (hp : (s.feature f).progress = .building) {o : Except Halt BuildResult}
    (hok : ∀ r, o = .ok r → ev.Source owned s f (.ok r))
    (herror : ∀ label source, o = .error (.failed (.backend label source)) →
      label = f.label ∧ ev.Source owned s f (.error source)) :
    ev.Sourced owned fs (s.setProgress f (progressAfter o)) := by
  have hs : (s.setProgress f (progressAfter o)).Remembers s :=
    .update s f (fun _ hh => hh) fun r hr => by
      rw [hp] at hr
      cases hr
  have hkeep : ∀ {g answer}, ev.Source owned s g answer →
      ev.Source owned (s.setProgress f (progressAfter o)) g answer := fun hsource =>
    hsource.mono hs (List.prefix_refl _) fun _ => id
  refine ⟨fun g hg r hr => ?_, fun g hg label source he => ?_, fun hash answer hget => ?_⟩
  · rw [BuildState.progress_setProgress] at hr
    split at hr
    · next hfg =>
      obtain rfl := hfs.unique f hf g hg hfg
      exact hkeep (hok r (progressAfter_built hr))
    · exact hkeep (h.results g hg r hr)
  · rw [BuildState.progress_setProgress] at he
    split at he
    · next hfg =>
      obtain rfl := hfs.unique f hf g hg hfg
      obtain ⟨hlabel, hsource⟩ := herror label source (progressAfter_failed he).1
      exact ⟨hlabel, hkeep hsource⟩
    · obtain ⟨hlabel, hsource⟩ := h.refusals g hg label source he
      exact ⟨hlabel, hkeep hsource⟩
  · obtain ⟨i, g, args, ins, hanswered⟩ := h.entries hash answer hget
    exact ⟨i, g, args, ins, hanswered.mono hs.described (List.prefix_refl _) fun _ => id⟩

/-- What a reference designates is shown for its identity once it has been built. -/
theorem shows (h : ev.Sourced owned fs s) {reference : FeatureRef} {r : ResolvedFeature}
    (hback : r.Backed ev.model (remembered s) (· ∈ s.described) reference) (hroot : r.root ∈ fs)
    {result shape : BuildResult} (hbuilt : (s.feature r.root).progress = .built result)
    (hdescend : result.descend r.root.label r.path = .ok shape) :
    ev.backend.Shows owned s r.hash shape := by
  obtain ⟨hash, hhash, hidentity⟩ := hback.identity
  obtain ⟨hhash', hanswered, -⟩ := h.results r.root hroot result hbuilt
  obtain rfl := Option.some.inj (hhash.symm.trans hhash')
  rcases hidentity with ⟨hnil, heq⟩ | ⟨-, hdescribed, heq⟩
  · rw [hnil] at hdescend
    obtain rfl := Except.ok.inj hdescend
    exact heq ▸ hanswered.shown
  · exact heq ▸ .sub hanswered.shown hdescribed hdescend

/-- Before the backend is invoked for a construction, the shapes among the inputs are shown for
what the arguments refer to. -/
theorem shows_inputs (h : ev.Sourced owned fs s) {args : List ResolvedArgument}
    {ins : List Input} (hback : ev.Backed fs s args)
    (hdelivers : List.Forall₂ (ResolvedArgument.Delivers s) args ins) (j : Nat)
    (a : ResolvedArgument) (input : Input) (k : StructuralHash) (shape : BuildResult)
    (ha : args[j]? = some a) (hinput : ins[j]? = some input) (hk : a.ref? = some k)
    (hshape : input.shape? = some shape) : ev.backend.Shows owned s k shape := by
  obtain ⟨hja, rfl⟩ := List.getElem?_eq_some_iff.mp ha
  obtain ⟨hji, rfl⟩ := List.getElem?_eq_some_iff.mp hinput
  have hbacked := hback _ (List.getElem_mem hja)
  have hdelivered := hdelivers.get hja hji
  simp only [List.get_eq_getElem] at hdelivered
  revert hbacked hdelivered hk hshape
  generalize args[j] = a, ins[j] = input
  intro hk hshape hbacked hdelivered
  cases hdelivered with
  | @feature r result _ hbuilt hdescend =>
    obtain ⟨⟨reference, hr⟩, hroot⟩ := hbacked
    cases hk
    cases hshape
    exact h.shows hr hroot hbuilt hdescend
  | selection t =>
    obtain ⟨reference, r, result, hr, hroot, hbuilt, hdescend, hsource⟩ := hbacked
    cases hk
    cases hshape
    rw [hsource]
    exact h.shows hr hroot hbuilt hdescend
  | _ => cases hk

/-- The backend has been invoked, for a construction of the collection. -/
theorem invoked (h : ev.Sourced owned fs s) {hash : StructuralHash} {args : List ResolvedArgument}
    {ins : List Input} {answer : BuildAnswer} (hanswered : ev.backend.Answered owned
      (s.invoked ev.caching f (request f hash ins) answer) hash answer s.requests.length f args
        ins) :
    ev.Sourced owned fs (s.invoked ev.caching f (request f hash ins) answer) := by
  have hlater : s.requests <+: s.requests ++ [(f.origin, request f hash ins)] :=
    List.prefix_append _ _
  refine h.later ⟨id, id, List.Subset.refl _⟩ hlater (fun _ => id) (fun _ _ => id)
    (fun _ _ => id) ?_
  cases hc : ev.caching with
  | false => exact .inl rfl
  | true =>
    rw [hc] at hanswered
    refine .inr fun other answer' hget => ?_
    replace hget : (s.cache.entries.insert hash answer).get? other = some answer' := hget
    rw [Table.get?_insert] at hget
    split at hget
    · next heq =>
      cases hget
      exact heq ▸ ⟨_, _, _, _, hanswered⟩
    · obtain ⟨i, g, args, ins, hanswered⟩ := h.entries other answer' hget
      refine ⟨i, g, args, ins, hanswered.mono ?_ hlater fun _ => id⟩
      exact List.Subset.refl _

end Sourced

/-- When the backend is invoked, its answer is one to the identity of the construction. -/
theorem Identified.answered (hfs : Closed ev.model fs) (howned : ∀ f ∈ fs, owned f)
    (hs : ev.Sourced owned fs s) {hash : StructuralHash} {args : List ResolvedArgument}
    {ins : List Input} (hid : ev.Identified fs s f hash args)
    (hins : (inputs (some f.label) args).Recalls ev s ins) {answer : BuildAnswer}
    (hanswer : answer = ev.backend.answerTo s.requests.length (request f hash ins)) :
    ev.backend.Answered owned (s.invoked ev.caching f (request f hash ins) answer) hash answer
      s.requests.length f args ins := by
  have hlater : s.requests <+: s.requests ++ [(f.origin, request f hash ins)] :=
    List.prefix_append _ _
  have hdelivers := recalls_delivers hins
  obtain ⟨args', hargs', hdescribed, -⟩ :=
    hid.recollects.identified f hid.mem hash hid.hash?
  obtain rfl := hargs'.unique hid.arguments
  refine ⟨⟨howned f hid.mem, hdescribed, recalls_arguments_length hid.arguments,
    hdelivers.imp fun _ _ h => h.fits, ?_⟩, hid.hash_eq, fun j a input k shape ha hinput hk hshape =>
      ?_, hanswer⟩
  · show (s.requests ++ [(f.origin, request f hash ins)])[s.requests.length]? = _
    rw [← hid.hash_eq]
    simp
  · exact (hs.shows_inputs (recalls_backed hfs hid.mem hid.arguments) hdelivers j a input k shape
      ha hinput hk hshape).mono (List.Subset.refl s.described) hlater fun _ => id

/-- Every turn keeps the sources. -/
theorem Turn.sourced (hfs : Closed ev.model fs) (howned : ∀ f ∈ fs, owned f)
    (h : ev.Turn fs s t) (hs : ev.Sourced owned fs s) : ev.Sourced owned fs t := by
  cases h with
  | describe d =>
    exact hs.later (BuildState.Advances.describe s d).remembers (List.prefix_refl _)
      (fun _ => id) (fun _ _ => id) (fun _ _ => id) (.inl rfl)
  | hashing f b =>
    refine hs.later (.update s f (fun _ => id) fun _ => id) (List.prefix_refl _) (fun _ => id)
      ?_ ?_ (.inl rfl)
    · exact fun g r hr => by rwa [BuildState.progress_setHashing] at hr
    · exact fun g e he => by rwa [BuildState.progress_setHashing] at he
  | @identify f args hf _ _ =>
    have hrem : (s.identified f args).Remembers s :=
      ((BuildState.Remembers.update s f (fun _ => id) fun _ => id).trans
        (BuildState.Advances.describe _ _).remembers).trans
          (.update _ f (fun h hh => by rw [hh]; rfl) fun _ => id)
    refine hs.later hrem (List.prefix_refl _) (fun _ => id) ?_ ?_ (.inl rfl)
    · exact fun g r hr => by rwa [BuildState.progress_identified] at hr
    · exact fun g e he => by rwa [BuildState.progress_identified] at he
  | missed caching =>
    have hadv := BuildState.Advances.missed s caching
    refine hs.later hadv.remembers hadv.requests (fun _ => id) ?_ ?_ (.inl ?_)
    · exact fun g r hr => by rwa [BuildState.feature_missed] at hr
    · exact fun g e he => by rwa [BuildState.feature_missed] at he
    · unfold BuildState.missed
      split <;> rfl
  | @begin f hf hp =>
    refine hs.later (.update s f (fun _ => id) fun r hr => ?_) (List.prefix_refl _) (fun _ => id)
      ?_ ?_ (.inl rfl)
    · rw [hp] at hr
      cases hr
    · intro g r hr
      rw [BuildState.progress_setProgress] at hr
      split at hr
      · cases hr
      · exact hr
    · intro g e he
      rw [BuildState.progress_setProgress] at he
      split at he
      · cases he
      · exact he
  | stop hf hp hstops =>
    refine hs.settle hfs hf hp (fun _ hok => by cases hok) fun label source heq => ?_
    exact absurd (Except.error.inj heq) (hstops.not_refusal label source)
  | @cached f hash args answer hid hp hc hentry =>
    have hhit : ev.Sourced owned fs s.hit := hs.later (BuildState.Advances.hit s).remembers
      (List.prefix_refl _) (fun _ => id) (fun _ _ => id) (fun _ _ => id) (.inl rfl)
    obtain ⟨i, g, args', ins, hanswered⟩ := hhit.entries hash answer hentry
    have hsource : ev.Source owned s.hit f answer := .answered hid.hash? hanswered (.inl hc)
    refine hhit.settle hfs hid.mem hp (fun r hr => ?_) fun label source heq => ?_
    · rwa [← outcomeOf_ok hr]
    · obtain ⟨hlabel, hanswer⟩ := outcomeOf_refused heq
      refine ⟨hlabel, ?_⟩
      rwa [← hanswer]
  | @invoke f hash args ins hid hp hins =>
    have hanswered := hid.answered hfs howned hs hins rfl
    have hrem := (BuildState.Advances.invoked s ev.caching f (request f hash ins)
      (ev.backend.answerTo s.requests.length (request f hash ins))).remembers
    have hsource : ev.Source owned (s.invoked ev.caching f (request f hash ins)
        (ev.backend.answerTo s.requests.length (request f hash ins))) f
        (ev.backend.answerTo s.requests.length (request f hash ins)) :=
      .answered hid.hash? hanswered (.inr ⟨rfl, .mk hid.hash? (hid.arguments.mono hrem) (hins.mono hrem)⟩)
    refine (hs.invoked hanswered).settle hfs hid.mem hp (fun r hr => ?_) fun label source heq => ?_
    · rwa [← outcomeOf_ok hr]
    · obtain ⟨hlabel, hanswer⟩ := outcomeOf_refused heq
      refine ⟨hlabel, ?_⟩
      rwa [← hanswer]

end Evaluation

/-! ## All sessions -/

namespace Workbench

variable {registries : Nat → Registry} {backend : Backend} {scope : CacheScope}
  {b b' : Workbench} {id : Nat} {q : Query}

/-- A construction of a session with the same cache. -/
def Shares (b : Workbench) (id : Nat) (g : Feature) : Prop :=
  ∃ other, (other = id ∨ b.shop.scope = .shared) ∧ g ∈ b.constructions other

theorem Shares.mono {g : Feature} (h : b.Shares id g) (hscope : b'.shop.scope = b.shop.scope)
    (hconstructions : ∀ other, b.constructions other ⊆ b'.constructions other) :
    b'.Shares id g := by
  obtain ⟨other, hother, hg⟩ := h
  exact ⟨other, hother.imp_right hscope.trans, hconstructions other hg⟩

/-- Every outcome in a session has a source among the constructions that share its cache, for
every collection in which its evaluation stays. -/
def Sourced (b : Workbench) (id : Nat) : Prop :=
  ∀ fs, Closed (b.shop.session id).model fs → b.constructions id ⊆ fs →
    (b.shop.evaluation id).Sourced (fun g => g ∈ fs ∨ b.Shares id g) fs (b.shop.state id)

theorem Unasked.remembers (h : Unasked b b' id) :
    (b'.shop.state id).Remembers (b.shop.state id) :=
  ⟨fun hh => by rwa [h.feature], fun hr => by rwa [h.feature], h.described⟩

/-- A session that stands by keeps its sources. -/
theorem Sourced.stands (h : b.Sourced id) (hid : Bystander b b' id)
    (hconstructions : ∀ other, b.constructions other ⊆ b'.constructions other)
    (hcache : (b'.shop.state id).cache = (b.shop.state id).cache ∨
      ∀ hash answer, (b'.shop.state id).cache.entries.get? hash = some answer →
        ∃ i g args ins, b.shop.backend.Answered (b'.Shares id) (b'.shop.state id) hash answer
          i g args ins) : b'.Sourced id := by
  intro fs hfs hsub
  have hs := h fs (hfs.of_continues hid.model) (List.Subset.trans hid.constructions hsub)
  have howned : ∀ g, g ∈ fs ∨ b.Shares id g → g ∈ fs ∨ b'.Shares id g := fun g =>
    Or.imp_right fun hg => hg.mono hid.scope hconstructions
  have hlater : (b.shop.evaluation id).Sourced (fun g => g ∈ fs ∨ b'.Shares id g) fs
      (b'.shop.state id) := by
    refine hs.later hid.remembers hid.requests howned ?_ ?_ ?_
    · exact fun f r hr => by rwa [hid.feature] at hr
    · exact fun f e he => by rwa [hid.feature] at he
    · refine hcache.imp (fun heq => by rw [heq]) fun hanswered hash answer hget => ?_
      obtain ⟨i, g, args, ins, hanswered⟩ := hanswered hash answer hget
      exact ⟨i, g, args, ins, hanswered.mono (List.Subset.refl _) (List.prefix_refl _)
        fun _ => .inr⟩
  rw [hid.evaluation]
  refine ⟨fun f hf r hr => ?_, fun f hf label source he => ?_, hlater.entries⟩
  · exact (hlater.results f hf r hr).extends hid.model.toExtends
  · obtain ⟨hlabel, hsource⟩ := hlater.refusals f hf label source he
    exact ⟨hlabel, hsource.extends hid.model.toExtends⟩

theorem shares_ask (b : Workbench) (asked : Nat) (q : Query) (id : Nat) :
    (b.ask asked q).2.Shares id = b.Shares id := by
  funext g
  unfold Shares
  simp only [constructions_ask]
  rw [show (b.ask asked q).2.shop.scope = b.shop.scope from Workshop.scope_setState _ _ _]

/-- A query keeps the sources of its session. -/
theorem Keeps.sourced_ask {registry : Registry} (h : b.Keeps registry id) (hs : b.Sourced id)
    (hq : q.constructions ⊆ b.constructions id) : (b.ask id q).2.Sourced id := by
  intro fs hfs hsub
  rw [constructions_ask] at hsub
  rw [model_ask] at hfs
  rw [evaluation_ask, state_ask, shares_ask]
  exact (h.turns_ask hq hfs hsub).keeps (fun _ _ => Evaluation.Turn.sourced hfs fun _ => .inl)
    (hs fs hfs hsub)

/-- What a query leaves in a shared cache has a source for every session. -/
theorem Keeps.answered_shared {registry : Registry} {asked : Nat} (h : b.Keeps registry asked)
    (hs : b.Sourced asked) (hq : q.constructions ⊆ b.constructions asked)
    (hscope : b.shop.scope = .shared) {hash : StructuralHash} {answer : BuildAnswer}
    (hget : ((b.ask asked q).2.shop.state asked).cache.entries.get? hash = some answer) :
    ∃ i g args ins, b.shop.backend.Answered ((b.ask asked q).2.Shares id)
      ((b.ask asked q).2.shop.state id) hash answer i g args ins := by
  have hentries := (h.sourced_ask hs hq _ (h.ask hq).closed (List.Subset.refl _)).entries
  have hbackend : ((b.ask asked q).2.shop.evaluation asked).backend = b.shop.backend :=
    Workshop.backend_setState _ _ _
  rw [hbackend] at hentries
  obtain ⟨i, g, args, ins, hanswered⟩ := hentries hash answer hget
  -- All sessions have the same descriptions and requests on record.
  refine ⟨i, g, args, ins, hanswered.mono ?_ ?_ fun g hg => ?_⟩
  · exact List.Subset.refl _
  · exact List.prefix_refl _
  · rw [shares_ask] at hg ⊢
    rcases hg with hg | ⟨other, -, hg⟩
    · exact ⟨asked, .inr hscope, b.constructions_ask asked q asked ▸ hg⟩
    · exact ⟨other, .inr hscope, hg⟩

theorem Step.sourced (hstep : Step registries b b') (hb : b.Kept registries)
    (h : ∀ id, b.Sourced id) (id : Nat) : b'.Sourced id := by
  rcases hstep.views hb id with ⟨q, hq, rfl⟩ | hstands
  · exact (hb.sessions id).sourced_ask (h id) hq
  refine (h id).stands hstands (hstep.constructions hb) ?_
  rcases hstands.cache with heq | heq | ⟨asked, q, hscope, hq, rfl, heq⟩
  · exact .inl heq
  · refine .inr fun hash answer hget => ?_
    rw [heq] at hget
    cases hget
  · refine .inr fun hash answer hget => ?_
    rw [heq] at hget
    exact (hb.sessions asked).answered_shared (h asked) hq hscope hget

/-- In every run, every outcome in every session has a source. -/
theorem Reachable.sourced (h : Reachable registries backend scope b) (id : Nat) :
    b.Sourced id := by
  induction h generalizing id with
  | refl =>
    intro fs _ _
    refine ⟨fun f _ r hr => ?_, fun f _ label source he => ?_, fun hash answer hget => ?_⟩
    · cases hr
    · cases he
    · have hcache : ((create (registries 0) backend scope).shop.state id).cache = .empty :=
        Workshop.cacheOf_create _ _ _ id
      rw [hcache] at hget
      cases hget
  | tail hreachable hstep ih => exact hstep.sourced (Reachable.kept hreachable) ih id

end Workbench

end PartScript
