/-
  What the backend is given. Whenever it is invoked for a construction, the identity in the
  request is the one that the construction keeps, the inputs are those of its evaluated
  arguments, in order, and every shape among them is the remembered result of a construction
  that has been built. Every result that is remembered or cached was given by the backend for
  an earlier request, so the backend receives nothing but shapes that it made itself.
-/
import PartScript.Proofs.Calls
import PartScript.Proofs.Stability

namespace PartScript

open Relation

/-! ## Where results come from -/

/-- The backend has given the result for one of the requests; it is numbered by those before
it. -/
def Backend.Gave (backend : Backend) (requests : List (Origin × BuildRequest))
    (r : BuildResult) : Prop :=
  ∃ i q result, requests[i]? = some q ∧ backend.build q.2 = .ok result ∧
    r = { result with serial := i }

theorem Backend.Gave.mono {backend : Backend} {requests more : List (Origin × BuildRequest)}
    {r : BuildResult} (h : backend.Gave requests r) (hlater : requests <+: more) :
    backend.Gave more r := by
  obtain ⟨i, q, result, hq, hbuild, heq⟩ := h
  obtain ⟨rest, rfl⟩ := hlater
  refine ⟨i, q, result, ?_, hbuild, heq⟩
  rw [List.getElem?_append_left (List.getElem?_eq_some_iff.mp hq).1]
  exact hq

/-- Every result that is remembered, and every one in the cache, was given by the backend. -/
structure BuildState.Given (backend : Backend) (s : BuildState) : Prop where
  results : ∀ f r, (s.feature f).progress = .built r → backend.Gave s.requests r
  entries : ∀ hash r, s.cache.entries.get? hash = some (.ok r) → backend.Gave s.requests r

namespace Evaluation

variable {ev : Evaluation} {C : Call → Prop} {s t : BuildState}

theorem outcomeOf_ok {f : Feature} {answer : BuildAnswer} {r : BuildResult}
    (h : outcomeOf f answer = .ok r) : answer = .ok r := by
  cases answer with
  | ok result => exact congrArg Except.ok (Except.ok.inj h)
  | error source => cases h

/-- What the backend answers next is given for the request that is recorded with it. -/
theorem gave_numbered {request : BuildRequest} {origin : Origin} {r : BuildResult}
    (h : ev.numbered t request = .ok r) :
    ev.backend.Gave (t.requests ++ [(origin, request)]) r := by
  unfold numbered at h
  cases hbuild : ev.backend.build request with
  | error source =>
    rw [hbuild] at h
    cases h
  | ok result =>
    rw [hbuild] at h
    cases h
    refine ⟨t.requests.length, (origin, request), result, ?_, hbuild, rfl⟩
    simp

/-- A build that ends with a result that the backend gave. -/
theorem Given.settle {backend : Backend} (h : s.Given backend) (f : Feature)
    {o : Except Halt BuildResult} (ho : ∀ r, o = .ok r → backend.Gave s.requests r) :
    (s.setProgress f (progressAfter o)).Given backend := by
  refine ⟨fun g r hr => ?_, h.entries⟩
  rw [BuildState.progress_setProgress] at hr
  split at hr
  · exact ho r (progressAfter_built hr)
  · exact h.results g r hr

theorem Given.invoked {backend : Backend} (h : s.Given backend) (caching : Bool) (f : Feature)
    (request : BuildRequest) {answer : BuildAnswer} (hanswer : ∀ r, answer = .ok r →
      backend.Gave (s.requests ++ [(f.origin, request)]) r) :
    (s.invoked caching f request answer).Given backend := by
  have hlater : s.requests <+: (s.invoked caching f request answer).requests :=
    List.prefix_append _ _
  refine ⟨fun g r hr => (h.results g r hr).mono hlater, fun hash r hr => ?_⟩
  cases caching with
  | false => exact (h.entries hash r hr).mono hlater
  | true =>
    have hr : (s.cache.entries.insert request.hash answer).get? hash = some (.ok r) := hr
    rw [Table.get?_insert] at hr
    split at hr
    · exact hanswer r (Option.some.inj hr)
    · exact (h.entries hash r hr).mono hlater

theorem Deed.given (h : ev.Deed C s t) (hs : s.Given ev.backend) : t.Given ev.backend := by
  cases h with
  | describe d => exact ⟨hs.results, hs.entries⟩
  | hashing f b =>
    exact ⟨fun g r hr => hs.results g r (by rwa [BuildState.progress_setHashing] at hr), hs.entries⟩
  | identify _ _ _ =>
    exact ⟨fun g r hr => hs.results g r (by rwa [BuildState.progress_identified] at hr), hs.entries⟩
  | missed caching =>
    unfold BuildState.missed
    split <;> exact ⟨hs.results, hs.entries⟩
  | begin f =>
    refine ⟨fun g r hr => hs.results g r ?_, hs.entries⟩
    rw [BuildState.progress_setProgress] at hr
    split at hr
    · cases hr
    · exact hr
  | fail _ _ _ => exact Given.settle hs _ nofun
  | cached _ _ hentry =>
    refine Given.settle (s := s.hit) ⟨hs.results, hs.entries⟩ _ fun r hr => ?_
    rw [outcomeOf_ok hr] at hentry
    exact hs.entries _ r hentry
  | invoke _ _ =>
    refine Given.settle (Given.invoked hs _ _ _ fun r hr => gave_numbered hr) _ fun r hr => ?_
    exact gave_numbered (outcomeOf_ok hr)

end Evaluation

/-! ## What arguments and inputs are -/

/-- The reference to the feature that a selection picks from. Both operands of a combination
pick from the same feature, and the shape is that of the first. -/
inductive Model.Selects (M : Model) : SelectionExpr → FeatureRef → Prop where
  | query {kind reference filter} : Selects M (.query kind reference filter) reference
  | union {left right reference} : Selects M left reference →
      Selects M (.union left right) reference
  | difference {left right reference} : Selects M left reference →
      Selects M (.difference left right) reference
  | symbol {name b value reference} : M.binding? name = some b → b.value = .selection value →
      Selects M value reference → Selects M (.symbol name) reference

/-- What a reference designates has been built: the remembered result of the construction that
it leads to, followed down its path, is the shape. -/
def Model.Built (M : Model) (s : BuildState) (reference : FeatureRef) (shape : BuildResult) :
    Prop :=
  ∃ root path result, M.target reference = .ok (root, path) ∧
    (s.feature root).progress = .built result ∧ result.descend root.label path = .ok shape

/-- What an argument is evaluated to. -/
inductive Argument.Evaluates (M : Model) (s : BuildState) : Argument → ResolvedArgument → Prop where
  | scalar (value : ScalarExpr) (x : Float) : Evaluates M s (.scalar value) (.scalar x)
  | vector (value : VectorExpr) (v : Vec3) : Evaluates M s (.vector value) (.vector v)
  | datum (value : DatumExpr) (d : Datum) : Evaluates M s (.datum value) (.datum d)
  | keyword (word : String) : Evaluates M s (.keyword word) (.keyword word)
  | feature {reference r} : M.target reference = .ok (r.root, r.path) →
      Evaluates M s (.feature reference) (.feature r)
  | selection {value reference t} : M.Selects value reference →
      M.Built s reference t.shape → Evaluates M s (.selection value) (.selection t)

/-- What the backend receives for an evaluated argument. -/
inductive ResolvedArgument.Delivers (s : BuildState) : ResolvedArgument → Input → Prop where
  | scalar (x : Float) : Delivers s (.scalar x) (.scalar x)
  | vector (v : Vec3) : Delivers s (.vector v) (.vector v)
  | datum (d : Datum) : Delivers s (.datum d) (.datum d)
  | keyword (word : String) : Delivers s (.keyword word) (.keyword word)
  | feature {r result shape} : (s.feature r.root).progress = .built result →
      result.descend r.root.label r.path = .ok shape → Delivers s (.feature r) (.shape shape)
  | selection (t : Selection) : Delivers s (.selection t) (.selection t)

namespace Evaluation

variable {ev : Evaluation} {fs : List Feature} {s : BuildState}

/-- The shape of a selection is that of the feature that its expression picks from. -/
def Picked (ev : Evaluation) (s : BuildState) (e : SelectionExpr) (t : Selection) : Prop :=
  ∃ reference, ev.model.Selects e reference ∧ ev.model.Built s reference t.shape

/-- What answers are given from what is remembered. -/
def picked (ev : Evaluation) (fs : List Feature) (s : BuildState) : (d : Demand) → d.Answer → Prop
  | .build f, r => (s.feature f).progress = .built r
  | .selection _ value, t => value.constructions ⊆ fs → Picked ev s value t
  | _, _ => True

theorem picked_stable (ev : Evaluation) (fs : List Feature) (s : BuildState)
    (L : Description → Prop) :
    Selection.Stable ev.model (picked ev fs s) L fs (Picked ev s) where
  query := fun reference r result _ _ _ _ hback _ hresult hshape =>
    ⟨reference, .query, r.root, r.path, result, hback.target, hresult, hshape⟩
  union := fun _ _ _ _ ⟨reference, hselects, hbuilt⟩ => ⟨reference, .union hselects, hbuilt⟩
  difference := fun _ _ _ _ ⟨reference, hselects, hbuilt⟩ =>
    ⟨reference, .difference hselects, hbuilt⟩
  symbol := fun _ _ _ _ _ hb hv hsub h => by
    obtain ⟨reference, hselects, hbuilt⟩ := h hsub
    exact ⟨reference, .symbol hb hv hselects, hbuilt⟩

theorem argument_evaluates (hfs : Closed ev.model fs) {L : Description → Prop}
    (user : Option String) (a : Argument) (ha : a.constructions ⊆ fs) :
    (ev.argument user a).Ensures (picked ev fs s) L (a.Evaluates ev.model s) := by
  unfold argument
  cases a with
  | scalar value => exact (Plan.Ensures.trivial _).bind fun x _ => .done (.scalar value x)
  | vector value => exact (Plan.Ensures.trivial _).bind fun v _ => .done (.vector value v)
  | datum value => exact (Plan.Ensures.trivial _).bind fun d _ => .done (.datum value d)
  | keyword word => exact .done (.keyword word)
  | feature value =>
    exact (resolve_ensures user value).bind fun r hr => .done (.feature hr.target)
  | selection value =>
    refine (selection_ensures hfs (picked_stable ev fs s L) user value ha).bind fun t ht => .done ?_
    obtain ⟨reference, hselects, hbuilt⟩ := ht
    exact .selection hselects hbuilt

/-- Arguments that are given from what is remembered are evaluated to what has been built. -/
theorem recalls_evaluates (hfs : Closed ev.model fs) {f : Feature} (hf : f ∈ fs)
    {args : List ResolvedArgument} (h : (ev.arguments f).Recalls ev s args) :
    List.Forall₂ (Argument.Evaluates ev.model s) f.arguments args := by
  have hlist : ∀ (user : Option String) (as : List Argument), Argument.constructionsIn as ⊆ fs →
      (ev.argumentList user as).Ensures (picked ev fs s) (· ∈ s.described)
        (List.Forall₂ (Argument.Evaluates ev.model s) as) := by
    intro user as has
    induction as with
    | nil => exact .done .nil
    | cons a rest ih =>
      obtain ⟨ha, hrest⟩ := List.append_subset.mp has
      exact (argument_evaluates hfs user a ha).bind fun x hx =>
        (ih hrest).bind fun xs hxs => .done (.cons hx hxs)
  refine h.ensures (hlist _ _ (hfs.arguments f hf)) (fun _ _ _ => True.intro) (fun _ _ h => h) ?_
  intro d x hv hx
  cases d with
  | hash f => exact hv.elim
  | build f => exact hv.elim
  | selection user value =>
    exact fun hsub => hx _ (selection_ensures hfs (picked_stable ev fs s _) user value hsub)
  | _ => exact True.intro

/-- Inputs that are given from what is remembered are those of the arguments, in order. -/
theorem recalls_delivers {user : Option String} {args : List ResolvedArgument} {ins : List Input}
    (h : (inputs user args).Recalls ev s ins) :
    List.Forall₂ (ResolvedArgument.Delivers s) args ins := by
  have hlist : ∀ args : List ResolvedArgument, (inputs user args).Ensures (remembered s)
      (· ∈ s.described) (List.Forall₂ (ResolvedArgument.Delivers s) args) := by
    intro args
    induction args with
    | nil => exact .done .nil
    | cons a rest ih =>
      have hfirst : (input user a).Ensures (remembered s) (· ∈ s.described)
          (ResolvedArgument.Delivers s a) := by
        cases a with
        | scalar x => exact .done (.scalar x)
        | vector v => exact .done (.vector v)
        | datum d => exact .done (.datum d)
        | keyword word => exact .done (.keyword word)
        | selection t => exact .done (.selection t)
        | feature r =>
          refine .demand fun result hresult => ?_
          refine (Plan.Ensures.ofExcept _).bind fun shape hshape => .done ?_
          exact .feature hresult hshape
      exact hfirst.bind fun x hx => ih.bind fun xs hxs => .done (.cons hx hxs)
  refine h.ensures (hlist args) (fun _ _ h => h) (fun _ _ h => h) ?_
  intro d x hv _
  cases d with
  | hash f => exact hv.elim
  | build f => exact hv.elim
  | _ => exact True.intro

end Evaluation

/-! ## Calls from what is remembered -/

namespace Evaluation

variable {ev : Evaluation} {fs : List Feature} {n : Nat} (hfs : Closed ev.model fs)
include hfs

theorem walks_recollects {user : Option String} {α : Type} {known : List StructuralHash}
    {items : List Item} {p : Plan α} (hp : p.Walks ev.model user known items)
    (hitems : ItemsWithin fs items) {s t : BuildState} {d : Demand}
    (hknown : ∀ g ∈ known, Description.Logged s.described g) (hs : ev.Recollects fs s)
    (hcall : p.Calls (ev.answer n) s d t) : ev.Recollects fs t := by
  induction hcall generalizing known items with
  | here => exact hs
  | @later d reported next s x s1 d' t hx _ ih =>
    cases hp with
    | @demand _ item items _ _ _ hm hnext =>
      have hd := hfs.makes (hitems item List.mem_cons_self) hm
      obtain ⟨hs1, hx1⟩ := ev.recollects_at hfs n d s hd hs
      have hadv := ev.answer_advances n d s
      rw [hx] at hs1 hx1 hadv
      refine ih (hnext x) (fun y hy => hitems y (List.mem_cons_of_mem _ hy)) ?_ hs1
      exact hs1.knows hd (hx1 x rfl) fun g hg => (hknown g hg).mono hadv.described.subset
  | identify _ ih =>
    cases hp with
    | identify hrefs hnext =>
      exact ih (hnext _) hitems (fun g hg => (hknown g hg).mono (List.subset_cons_self _ _))
        (hs.describe fun g hg => hknown g (hrefs hg))

/-- What is remembered suffices to evaluate again at every call as well. -/
theorem Makes.recollects {d d' : Demand} {s t : BuildState}
    (h : ev.Makes (ev.answer n) d s d' t) (hd : d.constructions ⊆ fs) (hs : ev.Recollects fs s) :
    ev.Recollects fs t := by
  cases h with
  | value hv hcall =>
    exact walks_recollects hfs (ev.value_walks hv) (d.items_within.mono hd) (by simp) hs hcall
  | @identity f _ _ _ _ _ hcall =>
    exact walks_recollects hfs (ev.arguments_walks [] f) (hfs.items (hd f.mem_constructions))
      (by simp) (hs.setHashing f true) hcall
  | @argument f _ _ _ hp _ hcall =>
    exact walks_recollects hfs (ev.arguments_walks [] f) (hfs.items (hd f.mem_constructions))
      (by simp) ((hs.setBuilding hp).setHashing f true) hcall
  | @input f _ x u _ _ hp hprints _ hcall =>
    have hf := hd f.mem_constructions
    have hu := hprints.recollects hfs (ev.recollects_at hfs n) hf (hs.setBuilding hp)
    obtain ⟨-, -, t0, hrun, -⟩ := hprints.of_ok
    exact walks_recollects hfs (inputs_walks ev (some f.label) x.2 [])
      (arguments_inputs_within hfs hf hrun) (by simp) (hu.missed ev.caching) hcall

/-- When the backend is about to be invoked for a construction, its identity is remembered and
is that of its arguments, which evaluate to what has been built, and so are the inputs. -/
theorem Readies.remembers {f : Feature} (hf : f ∈ fs) {s t : BuildState} {hash : StructuralHash}
    {args : List ResolvedArgument} {ins : List Input} (hs : ev.Recollects fs s)
    (h : ev.Readies (ev.answer n) f s hash args ins t) :
    (t.feature f).hash? = some hash ∧ hash = (Description.feature f.typeName args).hash ∧
      (ev.arguments f).Recalls ev t args ∧ (inputs (some f.label) args).Recalls ev t ins := by
  obtain ⟨u, hprints, -, hrun⟩ := h.steps
  have hn := ev.recollects_at hfs n
  obtain ⟨hu, hhash, hargs, -, heq⟩ := hprints.identifies hfs hn hf (hs.setBuilding h.unbuilt)
  obtain ⟨-, -, t0, harguments, -⟩ := hprints.of_ok
  have hadv := Plan.run_advances (ev.answer_advances n) (inputs (some f.label) args)
    (u.missed ev.caching)
  rw [hrun] at hadv
  have hlater := (BuildState.Advances.missed u ev.caching).trans hadv
  have hins := (run_recollects hfs hn (inputs_walks ev (some f.label) args [])
    (arguments_inputs_within hfs hf harguments) (by simp) (hu.missed ev.caching) hrun).2 ins rfl
  exact ⟨(hlater.feature f).hash? hhash, heq, hargs.mono hlater.remembers, hins⟩

end Evaluation

/-! ## What the backend is given -/

/-- The shape that an input brings, if it brings one. -/
def Input.shape? : Input → Option BuildResult
  | .shape result => some result
  | .selection value => some value.shape
  | _ => none

/-- A request for a construction fits what is remembered when it is made. Its hash is the
remembered identity, which is that of the evaluated arguments; the inputs are delivered for
them in order; and every shape among them was given for an earlier request, or is a sub-result
of such a result. -/
structure Delivery (ev : Evaluation) (f : Feature) (args : List ResolvedArgument)
    (s : BuildState) (request : BuildRequest) : Prop where
  own : request = Evaluation.request f request.hash request.inputs
  remembered : (s.feature f).hash? = some request.hash
  hashed : request.hash = (Description.feature f.typeName args).hash
  recalled : (ev.arguments f).Recalls ev s args
  evaluated : List.Forall₂ (Argument.Evaluates ev.model s) f.arguments args
  delivered : List.Forall₂ (ResolvedArgument.Delivers s) args request.inputs
  given : ∀ input ∈ request.inputs, ∀ shape, input.shape? = some shape →
    ∃ result owner path, ev.backend.Gave s.requests result ∧
      result.descend owner path = .ok shape

/-- A shape of an input is below a result that is remembered. -/
theorem delivered_shape {M : Model} {s : BuildState} {as : List Argument}
    {args : List ResolvedArgument} {ins : List Input}
    (hargs : List.Forall₂ (Argument.Evaluates M s) as args)
    (hins : List.Forall₂ (ResolvedArgument.Delivers s) args ins) {input : Input}
    (hinput : input ∈ ins) {shape : BuildResult} (hshape : input.shape? = some shape) :
    ∃ f result path, (s.feature f).progress = .built result ∧
      result.descend f.label path = .ok shape := by
  induction hins generalizing as with
  | nil => cases hinput
  | @cons x i _ _ hfirst _ ih =>
    cases hargs with
    | cons ha hrest =>
      rcases List.mem_cons.mp hinput with rfl | hinput
      · cases hfirst with
        | @feature r result _ hbuilt hdescend =>
          obtain rfl := Option.some.inj hshape
          exact ⟨r.root, result, r.path, hbuilt, hdescend⟩
        | selection t =>
          obtain rfl := Option.some.inj hshape
          cases ha with
          | selection _ hbuilt =>
            obtain ⟨root, path, result, -, hresult, hdescend⟩ := hbuilt
            exact ⟨root, result, path, hresult, hdescend⟩
        | _ => cases hshape
      · exact ih hrest hinput

namespace Workbench

variable {registries : Nat → Registry} {backend : Backend} {scope : CacheScope}
  {b b' : Workbench} {id : Nat} {q : Query} {f : Feature} {args : List ResolvedArgument}
  {request : BuildRequest} {t : BuildState}

/-- While a query is evaluated, the backend is invoked with a request for a construction whose
arguments have been evaluated to `args`; `t` is what is remembered at that moment. -/
inductive Invokes (b : Workbench) (id : Nat) (q : Query) (f : Feature)
    (args : List ResolvedArgument) (t : BuildState) : BuildRequest → Prop where
  | call {n s hash ins} : b.Calls id q ⟨n + 1, .build f, s⟩ →
      (b.shop.evaluation id).Readies ((b.shop.evaluation id).answer n) f s hash args ins t →
      Invokes b id q f args t (Evaluation.request f hash ins)

theorem Calls.recollects {registry : Registry} (h : b.Keeps registry id)
    (hq : q.constructions ⊆ b.constructions id) {c : Call} (hc : b.Calls id q c) :
    (b.shop.evaluation id).Recollects (b.constructions id) c.state := by
  have hfs : Closed (b.shop.evaluation id).model (b.constructions id) := h.closed
  induction hc with
  | ask hcall =>
    obtain ⟨user, hwalks⟩ := q.plan_walks (b.shop.evaluation id)
    exact Evaluation.walks_recollects hfs hwalks (items_within_ask hq (List.Subset.refl _))
      (by simp) (h.recollects _ hfs (List.Subset.refl _)) hcall
  | next hc hspawns ih =>
    have hwithin := hc.within h hq
    cases hspawns with
    | mk hmakes => exact hmakes.recollects hfs hwithin ih

theorem Invokes.delivery {registry : Registry} (h : b.Keeps registry id)
    (hgiven : (b.shop.state id).Given b.shop.backend) (hq : q.constructions ⊆ b.constructions id)
    (hinvokes : b.Invokes id q f args t request) :
    Delivery (b.shop.evaluation id) f args t request := by
  have hfs : Closed (b.shop.evaluation id).model (b.constructions id) := h.closed
  cases hinvokes with
  | @call n s hash ins hc hready =>
    have hf := hc.within h hq f.mem_constructions
    obtain ⟨hhash, heq, hargs, hins⟩ := hready.remembers hfs hf (hc.recollects h hq)
    have hevaluates := Evaluation.recalls_evaluates hfs hf hargs
    have hdelivers := Evaluation.recalls_delivers hins
    -- What the backend has given is remembered up to this moment.
    have hdeeds : (b.shop.evaluation id).Deeds (b.Calls id q) (b.shop.state id) t :=
      ((b.deeds_ask id q).2 _ hc).trans (hready.deeds (b.calls_complete id q) hc)
    have ht := Evaluation.Deeds.keeps hdeeds (fun _ _ => Evaluation.Deed.given) hgiven
    refine ⟨rfl, hhash, heq, hargs, hevaluates, hdelivers, fun input hinput shape hshape => ?_⟩
    obtain ⟨root, result, path, hbuilt, hdescend⟩ :=
      delivered_shape hevaluates hdelivers hinput hshape
    exact ⟨result, root.label, path, ht.results root result hbuilt, hdescend⟩

/-! ## The record of requests -/

/-- Every request since the query began was made in an invocation for its construction, when
exactly the requests before it had been made. -/
def Recorded (b : Workbench) (id : Nat) (q : Query) (s : BuildState) : Prop :=
  ∀ i origin request, b.shop.requests.length ≤ i → s.requests[i]? = some (origin, request) →
    ∃ f args t, b.Invokes id q f args t request ∧ f.origin = origin ∧
      t.requests = s.requests.take i

theorem deed_recorded {s s' : BuildState}
    (h : (b.shop.evaluation id).Deed (b.Calls id q) s s') (hs : b.Recorded id q s) :
    b.Recorded id q s' := by
  have hsame : s'.requests = s.requests → b.Recorded id q s' := by
    intro heq i origin request hi hget
    rw [heq] at hget ⊢
    exact hs i origin request hi hget
  cases h with
  | describe _ => exact hsame rfl
  | hashing _ _ => exact hsame rfl
  | identify _ _ _ => exact hsame rfl
  | missed _ => exact hsame (BuildState.requests_missed s _)
  | begin _ => exact hsame rfl
  | fail _ _ _ => exact hsame rfl
  | cached _ _ _ => exact hsame rfl
  | @invoke n f u hash args ins _ hc hready =>
    intro i origin request hi hget
    have hget : (s.requests ++ [(f.origin, Evaluation.request f hash ins)])[i]? =
        some (origin, request) := hget
    show ∃ f' args t, b.Invokes id q f' args t request ∧ f'.origin = origin ∧
      t.requests = (s.requests ++ [(f.origin, Evaluation.request f hash ins)]).take i
    rcases Nat.lt_or_ge i s.requests.length with hlt | hge
    · rw [List.getElem?_append_left hlt] at hget
      rw [List.take_append_of_le_length (Nat.le_of_lt hlt)]
      exact hs i origin request hi hget
    · rw [List.getElem?_append_right hge] at hget
      obtain ⟨hi, heq⟩ := List.getElem?_eq_some_iff.mp hget
      have hlast : i = s.requests.length := by
        rw [List.length_singleton] at hi
        omega
      subst hlast
      simp only [Nat.sub_self, List.getElem_cons_zero] at heq
      obtain ⟨rfl, rfl⟩ := Prod.mk.inj heq
      exact ⟨f, args, s, .call hc hready, rfl, List.take_left.symm⟩

/-- The requests of a query were made in its invocations. -/
theorem recorded_ask (b : Workbench) (id : Nat) (q : Query) :
    b.Recorded id q (b.outcome id q).2 := by
  refine (b.deeds_ask id q).1.keeps (fun _ _ => deed_recorded) fun i origin request hi hget => ?_
  have hlt := (List.getElem?_eq_some_iff.mp hget).1
  have hlength : (b.shop.state id).requests.length = b.shop.requests.length := List.length_map _
  omega

/-- A query adds requests of its session to the record, each from an invocation. -/
theorem recorded_requests {asked i : Nat} {origin : Origin}
    (hget : (b.ask asked q).2.shop.requests[i]? = some (id, origin, request)) :
    (i < b.shop.requests.length ∧ b.shop.requests[i]? = some (id, origin, request) ∧
      (b.ask asked q).2.shop.requests.take i = b.shop.requests.take i) ∨
    asked = id ∧ ∃ f args t, b.Invokes id q f args t request ∧ f.origin = origin ∧
      t.requests = ((b.ask asked q).2.shop.requests.take i).map (·.2) := by
  have hadvances := (b.outcome_advances asked q).requests
  obtain ⟨fresh, hfresh⟩ := hadvances
  have hrequests : (b.ask asked q).2.shop.requests =
      b.shop.requests ++ fresh.map fun p => (asked, p) := Workshop.requests_append hfresh.symm
  have hall : (b.ask asked q).2.shop.requests.map (·.2) = (b.outcome asked q).2.requests :=
    Workshop.requests_map_setState _ _ (b.outcome_advances asked q).requests
  rcases Nat.lt_or_ge i b.shop.requests.length with hlt | hge
  · rw [hrequests, List.getElem?_append_left hlt] at hget
    rw [hrequests, List.take_append_of_le_length (Nat.le_of_lt hlt)]
    exact .inl ⟨hlt, hget, rfl⟩
  · have hsession : asked = id := by
      rw [hrequests, List.getElem?_append_right hge, List.getElem?_map] at hget
      obtain ⟨p, -, heq⟩ := Option.map_eq_some_iff.mp hget
      exact (Prod.mk.inj heq).1
    subst hsession
    have houtcome : (b.outcome asked q).2.requests[i]? = some (origin, request) := by
      rw [← hall, List.getElem?_map, hget]
      rfl
    obtain ⟨f, args, t, hinvokes, horigin, htake⟩ :=
      b.recorded_ask asked q i origin request hge houtcome
    refine .inr ⟨rfl, f, args, t, hinvokes, horigin, ?_⟩
    rw [htake, ← hall, List.map_take]

/-! ## All sessions -/

/-- A query keeps what the backend gave to its session. -/
theorem given_ask (h : (b.shop.state id).Given b.shop.backend) :
    ((b.ask id q).2.shop.state id).Given (b.ask id q).2.shop.backend := by
  rw [state_ask, show (b.ask id q).2.shop.backend = b.shop.backend from
    Workshop.backend_setState _ _ _]
  exact (b.kept_ask (q := q) (fun _ _ => Evaluation.Deed.given) h).1

theorem Step.given (hstep : Step registries b b') (hb : b.Kept registries)
    (h : ∀ id, (b.shop.state id).Given b.shop.backend) (id : Nat) :
    (b'.shop.state id).Given b'.shop.backend := by
  rcases hstep.views hb id with ⟨q, -, rfl⟩ | hstands
  · exact given_ask (h id)
  refine ⟨fun f r hr => ?_, fun hash r hr => ?_⟩
  · rw [hstands.feature] at hr
    rw [hstands.backend]
    exact ((h id).results f r hr).mono hstands.requests
  · rcases hstands.cache with heq | heq | ⟨asked, q, -, -, rfl, heq⟩
    · rw [heq] at hr
      rw [hstands.backend]
      exact ((h id).entries hash r hr).mono hstands.requests
    · rw [heq] at hr
      cases hr
    · -- The other session has the same requests on record.
      rw [heq] at hr
      exact (given_ask (h asked)).entries hash r hr

/-- The backend stays the same. -/
theorem Reachable.keeps_backend (h : Reachable registries backend scope b) :
    b.shop.backend = backend := by
  induction h with
  | refl => rfl
  | tail hreachable hstep ih =>
    rcases hstep.views (Reachable.kept hreachable) 0 with ⟨q, -, rfl⟩ | hstands
    · exact (Workshop.backend_setState _ _ _).trans ih
    · exact hstands.backend.trans ih

/-- Every result in every session and every cache was given by the backend. -/
theorem Reachable.given (h : Reachable registries backend scope b) (id : Nat) :
    (b.shop.state id).Given b.shop.backend := by
  induction h generalizing id with
  | refl =>
    refine ⟨fun f r hr => ?_, fun hash r hr => ?_⟩
    · cases hr
    have hcache : ((create (registries 0) backend scope).shop.state id).cache = .empty :=
      Workshop.cacheOf_create _ _ _ id
    rw [hcache] at hr
    cases hr
  | tail hreachable hstep ih => exact hstep.given (Reachable.kept hreachable) ih id

/-- Every request on record was made in an invocation, when exactly the requests before it had
been made. -/
theorem Reachable.recorded (h : Reachable registries backend scope b) {i : Nat} {origin : Origin}
    (hget : b.shop.requests[i]? = some (id, origin, request)) :
    ∃ b₀ q f args t, Reachable registries backend scope b₀ ∧
      q.constructions ⊆ b₀.constructions id ∧
      ReflTransGen (Step registries) (b₀.ask id q).2 b ∧ b₀.Invokes id q f args t request ∧
      f.origin = origin ∧ t.requests = (b.shop.requests.take i).map (·.2) := by
  induction h with
  | refl => cases hget
  | @tail b b' hreachable hstep ih =>
    -- What was on record before is so still, after the same requests.
    have hbefore : b.shop.requests[i]? = some (id, origin, request) →
        b'.shop.requests.take i = b.shop.requests.take i → ∃ b₀ q f args t,
          Reachable registries backend scope b₀ ∧ q.constructions ⊆ b₀.constructions id ∧
          ReflTransGen (Step registries) (b₀.ask id q).2 b' ∧ b₀.Invokes id q f args t request ∧
          f.origin = origin ∧ t.requests = (b'.shop.requests.take i).map (·.2) := by
      intro hget htake
      obtain ⟨b₀, q, f, args, t, hb, hq, hrun, hinvokes, horigin, hrequests⟩ := ih hget
      refine ⟨b₀, q, f, args, t, hb, hq, hrun.tail hstep, hinvokes, horigin, ?_⟩
      rw [htake]
      exact hrequests
    have hkept := Reachable.kept hreachable
    cases hstep with
    | clear asked =>
      have hrequests : (b.clear asked).shop.requests = b.shop.requests :=
        (b.shop.setup_setCache asked .empty).2.2.1
      exact hbefore (hrequests ▸ hget) (by rw [hrequests])
    | works hworks =>
      obtain ⟨-, ⟨-, hrequests, -⟩ | ⟨asked, q, hq, rfl⟩⟩ := hworks.cases hkept.sessions
      · exact hbefore (hrequests ▸ hget) (by rw [hrequests])
      · rcases recorded_requests hget with ⟨-, hget, htake⟩ | ⟨rfl, f, args, t, hinvokes, heq⟩
        · exact hbefore hget htake
        · exact ⟨b, q, f, args, t, hreachable, hq, .refl, hinvokes, heq⟩

/-! ## Finished, matching inputs -/

/-- In every run of any number of sessions, whenever the backend is invoked, the request fits
what is remembered at that moment; and every request on record was made in such an invocation,
when exactly the requests before it had been made. -/
theorem inputs_delivered (hb : Reachable registries backend scope b) :
    (∀ id q f args t request, q.constructions ⊆ b.constructions id →
      b.Invokes id q f args t request →
      Delivery (b.shop.evaluation id) f args t request) ∧
    ∀ i id origin request, b.shop.requests[i]? = some (id, origin, request) →
      ∃ b₀ q f args t, Reachable registries backend scope b₀ ∧
        ReflTransGen (Step registries) (b₀.ask id q).2 b ∧
        b₀.Invokes id q f args t request ∧ f.origin = origin ∧
        t.requests = (b.shop.requests.take i).map (·.2) ∧
        Delivery (b₀.shop.evaluation id) f args t request := by
  refine ⟨fun id q f args t request hq hinvokes => ?_, fun i id origin request hget => ?_⟩
  · exact hinvokes.delivery (hb.kept.sessions id) (hb.given id) hq
  · obtain ⟨b₀, q, f, args, t, hb₀, hq, hrun, hinvokes, horigin, htake⟩ := hb.recorded hget
    exact ⟨b₀, q, f, args, t, hb₀, hrun, hinvokes, horigin, htake,
      hinvokes.delivery (hb₀.kept.sessions id) (hb₀.given id) hq⟩

/-- A sphere and a compound of it have been built. -/
def groupedBuilt : Workbench := (grouped.ask 0 (.named (.build "c"))).2

/-- The requests on record, by session and label, and which of their inputs bring shapes. -/
def shapes (b : Workbench) : List (Nat × String × List Bool) :=
  b.shop.requests.map fun (id, _, request) =>
    (id, request.label, request.inputs.map (·.shape?.isSome))

set_option maxRecDepth 100000 in
theorem inputs_delivered_grouped :
    groupedBuilt.shapes = [(0, "s", [false, false]), (0, "c", [true])] ∧
    ∃ origin request, groupedBuilt.shop.requests[1]? = some (0, origin, request) ∧
      ∀ input ∈ request.inputs, ∀ shape, input.shape? = some shape → ∃ result owner path,
        (Symbolic.backend []).Gave ((groupedBuilt.shop.requests.take 1).map (·.2)) result ∧
        result.descend owner path = .ok shape := by
  have hreachable : Reachable (fun _ => Catalog.registry) (Symbolic.backend []) .session
      groupedBuilt :=
    (ReflTransGen.single (.works (.load 0 _))).tail (.works (.ask (List.nil_subset _)))
  have hshapes : groupedBuilt.shapes = [(0, "s", [false, false]), (0, "c", [true])] := by
    decide +kernel
  have hlast : groupedBuilt.shapes[1]? = some (0, "c", [true]) := by
    rw [hshapes]
    rfl
  rw [shapes, List.getElem?_map] at hlast
  obtain ⟨⟨id, origin, request⟩, hget, heq⟩ := Option.map_eq_some_iff.mp hlast
  obtain ⟨rfl, -⟩ := Prod.mk.inj heq
  obtain ⟨b₀, q, f, args, t, hb₀, -, -, -, htake, hdelivery⟩ :=
    (inputs_delivered hreachable).2 1 0 origin request hget
  refine ⟨hshapes, origin, request, hget, fun input hinput shape hshape => ?_⟩
  have hgiven := hdelivery.given input hinput shape hshape
  have hbackend : (b₀.shop.evaluation 0).backend = Symbolic.backend [] := hb₀.keeps_backend
  rw [htake, hbackend] at hgiven
  exact hgiven

end Workbench

end PartScript
