/-
  Refusals. A refusal that a construction is remembered with is the backend's answer to a request
  for a construction with the same identity. If the backend was invoked for the construction
  itself, that is its own request. If the answer was found in a cache, the other construction has
  the same type and the same arguments; its request then differs in nothing that the symbolic
  backend looks at when it refuses, but in the label that the message names.
-/
import PartScript.Proofs.Counts
import PartScript.Proofs.Returns
import PartScript.Proofs.Sharing

namespace PartScript

open Relation

/-! ## What a refusal depends on -/

/-- A request under another label. -/
def BuildRequest.under (request : BuildRequest) (label : String) : BuildRequest :=
  { request with label := label }

/-- The number that an input is, if it is one. -/
def Input.number? : Input → Option Float
  | .scalar value => some value
  | _ => none

namespace Symbolic

variable {failing : List String} {request request' : BuildRequest}

theorem checkInput_eq (request : BuildRequest) (name : String) (x : Input) :
    checkInput request (name, x) =
      x.number?.elim (.ok ()) fun value => checkInput request (name, .scalar value) := by
  cases x <;> rfl

section Congruence

variable (htype : request.typeName = request'.typeName) (hlabel : request.label = request'.label)
include htype hlabel

theorem checkInput_congr (name : String) {x y : Input} (h : x.number? = y.number?) :
    checkInput request (name, x) = checkInput request' (name, y) := by
  have hscalar : ∀ value, checkInput request (name, .scalar value) =
      checkInput request' (name, .scalar value) := by
    intro value
    simp only [checkInput, htype, hlabel]
  rw [checkInput_eq, checkInput_eq request', h]
  simp only [hscalar]

theorem checkFeasible_congr (hsignature : request.signature = request'.signature)
    (hinputs : List.Forall₂ (fun x y => x.number? = y.number?) request.inputs request'.inputs) :
    checkFeasible request = checkFeasible request' := by
  have hall : ∀ {xs ys : List Input}, List.Forall₂ (fun x y => x.number? = y.number?) xs ys →
      ∀ names : Nat → String, (xs.mapIdx fun i x => (names i, x)).forM (checkInput request) =
        (ys.mapIdx fun i x => (names i, x)).forM (checkInput request') := by
    intro xs ys h
    induction h with
    | nil => exact fun _ => rfl
    | cons hx _ ih =>
      intro names
      rw [List.mapIdx_cons, List.mapIdx_cons, List.forM, List.forM,
        checkInput_congr htype hlabel (names 0) hx, ih fun i => names (i + 1)]
  unfold checkFeasible BuildRequest.namedInputs
  rw [hsignature]
  exact hall hinputs _

/-- Requests of one type, label and signature with the same numbers in the same places are
refused alike. -/
theorem build_refused (hsignature : request.signature = request'.signature)
    (hinputs : List.Forall₂ (fun x y => x.number? = y.number?) request.inputs request'.inputs)
    {source : BackendError} (h : build failing request = .error source) :
    build failing request' = .error source := by
  have hcheck := checkFeasible_congr htype hlabel hsignature hinputs
  unfold build at h ⊢
  rw [htype, hlabel, hcheck] at h
  by_cases hfailing : failing.contains request'.typeName = true
  · rw [if_pos hfailing] at h ⊢
    exact h
  · rw [if_neg hfailing] at h ⊢
    cases hfeasible : checkFeasible request' with
    | error e =>
      rw [hfeasible] at h
      exact h
    | ok _ =>
      rw [hfeasible] at h
      cases h

end Congruence

end Symbolic

/-- Arguments that are the same, with the same numbers, call for the same numbers. -/
theorem ResolvedArgument.Fits.number?_eq {a b : ResolvedArgument} {x y : Input} (h : a.Same b)
    (hnumbers : a.numbers = b.numbers) (hx : a.Fits x) (hy : b.Fits y) :
    x.number? = y.number? := by
  cases h with
  | scalar _ =>
    cases hx
    cases hy
    exact congrArg List.head? hnumbers
  | _ =>
    cases hx
    cases hy
    rfl

theorem ResolvedArgument.fits_numbers {as bs : List ResolvedArgument} {xs ys : List Input}
    (h : List.Forall₂ (fun a b => a.Same b ∧ a.numbers = b.numbers) as bs)
    (hxs : List.Forall₂ ResolvedArgument.Fits as xs)
    (hys : List.Forall₂ ResolvedArgument.Fits bs ys) :
    List.Forall₂ (fun x y => x.number? = y.number?) xs ys := by
  induction h generalizing xs ys with
  | nil =>
    cases hxs
    cases hys
    exact .nil
  | cons hab _ ih =>
    cases hxs with
    | cons hx hxs =>
      cases hys with
      | cons hy hys => exact .cons (hx.number?_eq hab.1 hab.2 hy) (ih hxs hys)

/-- An error that was not passed on is its own cause. -/
theorem BuildError.eq_rootCause {e : BuildError} (h : e.path = []) : e.rootCause = e := by
  cases e with
  | failedInput label source => cases h
  | _ => rfl

/-! ## Requests of two constructions with one identity -/

/-- A construction with the identity of what was requested for another one is of the same type,
and has the same arguments up to the signs of zeros. -/
theorem BuildState.Requested.same {s : BuildState} {owned : Feature → Prop} {i : Nat}
    {f g : Feature} {args args' : List ResolvedArgument} {ins : List Input}
    (h : s.Requested owned i g args' ins) (hlegible : Description.Legible s.described)
    (hdescribed : Description.feature f.typeName args ∈ s.described)
    (heq : (Description.feature f.typeName args).hash =
      (Description.feature g.typeName args').hash) :
    g.typeName = f.typeName ∧ List.Forall₂ ResolvedArgument.Same args' args := by
  have hstream := hlegible.distinct _ h.described _ hdescribed heq.symm
  exact Encoding.feature_stream_inj (hlegible.fits _ h.described).texts
    (hlegible.fits _ hdescribed).texts hstream

namespace Workbench

variable {registries : Nat → Registry} {backend : Backend} {scope : CacheScope}
  {b b' : Workbench} {id : Nat} {f : Feature}

/-- A request on record is the own request of its construction, and the build of the construction
ended with the answer to it. -/
theorem Reachable.concluded (hb : Reachable registries backend scope b)
    (hf : f ∈ b.constructions id) {i : Nat} {request : BuildRequest}
    (hget : b.shop.requests[i]? = some (id, f.origin, request)) :
    (b.shop.evaluation id).Owns (b.shop.state id) f request ∧
      ((b.shop.state id).feature f).progress = Evaluation.progressAfter
        (Evaluation.outcomeOf f (backend.answerTo i request)) := by
  obtain ⟨b₀, q, g, args, t, hb₀, hq, hrun, hinvokes, horigin, htake⟩ := hb.recorded hget
  cases hinvokes with
  | @call n s hash ins hc hready =>
    have hkeeps := hb₀.kept.sessions id
    have hasked : ReflTransGen (Step registries) b₀ b := .head (.works (.ask hq)) hrun
    have hlater := hb₀.kept.laterRun hasked id
    have hg := hc.within hkeeps hq g.mem_constructions
    obtain rfl := (hb.kept.sessions id).closed.unique g (hlater.constructions hg) f hf horigin
    obtain ⟨hhash, -, hargs, hins⟩ :=
      hready.remembers hkeeps.closed hg (hc.recollects hkeeps hq)
    obtain ⟨hends, hretains⟩ := hready.ends
    have hkept := hc.retained hb₀.kept hq hrun
    have hev : b.shop.evaluation id =
        { b₀.shop.evaluation id with model := (b.shop.session id).model } := by
      rw [hlater.evaluation, hb.keeps_backend, ← hb₀.keeps_backend]
      rfl
    have howns : (b₀.shop.evaluation id).Owns t g (Evaluation.request g hash ins) :=
      .mk hhash hargs hins
    refine ⟨?_, ?_⟩
    · rw [hev]
      exact (howns.mono (hretains.toRemembers.trans hkept.toRemembers)).extends
        hlater.model.toExtends
    · have hlength : t.requests.length = i := by
        rw [htake, List.length_map, List.length_take]
        exact Nat.min_eq_left (Nat.le_of_lt (List.getElem?_eq_some_iff.mp hget).1)
      have hnumbered : (b₀.shop.evaluation id).numbered t (Evaluation.request g hash ins) =
          backend.answerTo i (Evaluation.request g hash ins) := by
        unfold Evaluation.numbered Backend.answerTo
        rw [hlength, show (b₀.shop.evaluation id).backend = backend from hb₀.keeps_backend]
      rw [hnumbered] at hends
      cases hanswer : backend.answerTo i (Evaluation.request g hash ins) with
      | ok r =>
        rw [hanswer] at hends
        exact hkept.built hends
      | error source =>
        rw [hanswer] at hends
        exact hkept.failed hends

/-- In every run, a refusal of the backend that the build of a construction has ended with names
the construction. If the backend was invoked for the construction, it is the answer to the
construction's own request. In any case it is the answer to a request for a construction with
the same identity, that shares the cache; without a cache, for the construction itself. If no two
descriptions on record have one digest, the other construction has the same type and the same
arguments up to the signs of zeros. Where these agree as well, the symbolic backend refuses the
construction's own request with the same error, but for the label. -/
theorem refusals_attributed {label : String} {source : BackendError}
    (h : Returned registries backend scope b id f (.backend label source)) :
    label = f.label ∧
    (∀ (i : Nat) request, b.shop.requests[i]? = some (id, f.origin, request) →
      (b.shop.evaluation id).Owns (b.shop.state id) f request ∧
      backend.build request = .error source) ∧
    ∃ hash args, ((b.shop.state id).feature f).hash? = some hash ∧
      ((b.shop.evaluation id).arguments f).Recalls (b.shop.evaluation id) (b.shop.state id) args ∧
      ∃ i g args' ins, (b.shop.state id).Requested (b.Shares id) i g args' ins ∧
        hash = (Description.feature g.typeName args').hash ∧
        backend.build (Evaluation.request g hash ins) = .error source ∧
        (scope = .disabled → g = f ∧
          (b.shop.evaluation id).Owns (b.shop.state id) f (Evaluation.request f hash ins)) ∧
        (Description.Legible b.shop.described →
          g.typeName = f.typeName ∧ List.Forall₂ ResolvedArgument.Same args' args ∧
          ∀ failing registry, backend = Symbolic.backend failing →
            f.Registered registry → g.Registered registry →
            args'.flatMap ResolvedArgument.numbers = args.flatMap ResolvedArgument.numbers →
            ∀ ins', List.Forall₂ ResolvedArgument.Fits args ins' →
              backend.build ((Evaluation.request f hash ins').under g.label) = .error source) := by
  obtain ⟨hb, hf, hp⟩ := h.refused
  have hkeeps := hb.kept.sessions id
  obtain ⟨hlabel, hsource⟩ :=
    (hb.sourced id _ hkeeps.closed (List.Subset.refl _)).refusals f hf label source hp
  refine ⟨hlabel, fun i request hget => ?_, ?_⟩
  · obtain ⟨howns, hprogress⟩ := hb.concluded hf hget
    obtain ⟨houtcome, -⟩ := Evaluation.progressAfter_failed (hprogress.symm.trans hp)
    exact ⟨howns, Backend.refused_of_answerTo (Evaluation.outcomeOf_refused houtcome).2.symm⟩
  · cases hsource with
    | @answered hash i g args' ins hhash hanswered hown =>
      obtain ⟨args, hargs, hdescribed, heq⟩ :=
        (hkeeps.recollects _ hkeeps.closed (List.Subset.refl _)).identified f hf hash hhash
      have hbackend : (b.shop.evaluation id).backend = backend := hb.keeps_backend
      have hrequested : (b.shop.state id).Requested (b.Shares id) i g args' ins :=
        hanswered.toRequested.mono (List.Subset.refl _) (List.prefix_refl _) fun g hg =>
          hg.elim (fun hg => ⟨id, .inl rfl, hg⟩) (fun hg => hg)
      have hbuild : backend.build (Evaluation.request g hash ins) = .error source := by
        rw [← hbackend]
        exact Backend.refused_of_answerTo hanswered.answer_eq
      refine ⟨hash, args, hhash, hargs, i, g, args', ins, hrequested, hanswered.hash_eq, hbuild,
        fun hscope => ?_, fun hlegible => ?_⟩
      · rcases hown with hcaching | ⟨rfl, howns⟩
        · subst hscope
          cases hcaching.symm.trans hb.not_caching
        · exact ⟨rfl, howns⟩
      · obtain ⟨htype, hsame⟩ := hrequested.same hlegible hdescribed
          (heq.symm.trans hanswered.hash_eq)
        refine ⟨htype, hsame, ?_⟩
        rintro failing registry rfl hfr hgr hnumbers ins' hfits
        have hlength : g.arguments.length = f.arguments.length := by
          rw [← hrequested.length, hsame.length_eq, Evaluation.recalls_arguments_length hargs]
        have hinputs := ResolvedArgument.fits_numbers
          (ResolvedArgument.same_numbers hsame hnumbers) hrequested.inputs hfits
        have hsignature := hgr.signature_eq hfr htype hlength
        have hlabels : (Evaluation.request g hash ins).label =
            ((Evaluation.request f hash ins').under g.label).label := rfl
        exact Symbolic.build_refused htype hlabels hsignature hinputs hbuild

/-! ### Two spheres that are refused -/

/-- Two equal spheres, in a session with a cache whose backend refuses spheres. The first of them
has been asked for. -/
def twins : Workbench :=
  (((create Catalog.registry (Symbolic.backend ["Sphere"]) .session).load Catalog.registry 0 (.script
    "a = Sphere([0, 0, 0], 1); b = Sphere([0, 0, 0], 1);")).ask 0 (.named (.build "a"))).2

theorem twins_reachable :
    Reachable (fun _ => Catalog.registry) (Symbolic.backend ["Sphere"]) .session twins :=
  (ReflTransGen.single (.works (.load 0 _))).tail (.works (.ask (List.nil_subset _)))

set_option maxRecDepth 100000 in
/-- The second sphere is answered with the refusal of the first. -/
theorem twins_refused : ∃ f ∈ twins.constructions 0, f.typeName = "Sphere" ∧ f.label = "b" ∧
    Returned (fun _ => Catalog.registry) (Symbolic.backend ["Sphere"]) .session
      (twins.ask 0 (.result f)).2 0 f
      (.backend "b" (.operationFailed "Sphere 'a' rejected by backend")) := by
  have hspheres : (twins.constructions 0).all (fun f => f.typeName = "Sphere") = true := by
    decide +kernel
  have hfailures : ("b", some ([], BuildError.backend "b"
      (.operationFailed "Sphere 'a' rejected by backend"))) ∈ twins.failures 0 := by
    decide +kernel
  obtain ⟨f, hf, hlabel, e, he, hpath, hcause⟩ := twins.exists_of_failures 0 hfailures
  refine ⟨f, hf, by simpa using List.all_eq_true.mp hspheres f hf, hlabel, ?_⟩
  rw [BuildError.eq_rootCause hpath] at hcause
  exact hcause ▸ (returned_ask twins_reachable hf).2 e he

theorem refusals_attributed_twins : ∃ f ∈ twins.constructions 0, f.label = "b" ∧
    ∃ i g args ins, ((twins.ask 0 (.result f)).2.shop.state 0).Requested
        ((twins.ask 0 (.result f)).2.Shares 0) i g args ins ∧
      (Symbolic.backend ["Sphere"]).build
        (Evaluation.request g (Description.feature g.typeName args).hash ins) =
          .error (.operationFailed "Sphere 'a' rejected by backend") := by
  obtain ⟨f, hf, -, hlabel, hreturned⟩ := twins_refused
  obtain ⟨-, -, hash, args, -, -, i, g, args', ins, hrequested, rfl, hbuild, -⟩ :=
    refusals_attributed hreturned
  exact ⟨f, hf, hlabel, i, g, args', ins, hrequested, hbuild⟩

/-- The refusal of the second sphere is not what the backend answers to any request for it. -/
theorem shared_refusal : ∃ f ∈ twins.constructions 0, ∃ source,
    Returned (fun _ => Catalog.registry) (Symbolic.backend ["Sphere"]) .session
      (twins.ask 0 (.result f)).2 0 f (.backend f.label source) ∧
    ∀ hash ins, (Symbolic.backend ["Sphere"]).build (Evaluation.request f hash ins) ≠
      .error source := by
  obtain ⟨f, hf, htype, hlabel, hreturned⟩ := twins_refused
  refine ⟨f, hf, _, hlabel ▸ hreturned, fun hash ins heq => ?_⟩
  have hown : Symbolic.build ["Sphere"] (Evaluation.request f hash ins) =
      .error (.operationFailed "Sphere 'b' rejected by backend") := by
    unfold Evaluation.request
    rw [htype, hlabel]
    rfl
  have hdiffer : BackendError.operationFailed "Sphere 'a' rejected by backend" ≠
      .operationFailed "Sphere 'b' rejected by backend" := by decide
  exact hdiffer (Except.error.inj (heq.symm.trans hown))

end Workbench

end PartScript
