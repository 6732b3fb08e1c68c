/-
  Reading a construction back. A backend that records its inputs stores each of them under the
  name of its argument, so a number, a vector or a feature that was given to a construction can
  be asked of it by that name, as long as no other argument is stored under the same one.
-/
import PartScript.Proofs.Counts
import PartScript.Proofs.Omissions
import PartScript.Proofs.Sources

namespace PartScript

/-! ## Names of arguments -/

namespace Signature

variable {signature : Signature} {param : Param} {i j count : Nat}

/-- No two of the first arguments have one name. -/
def Distinguishes (signature : Signature) (count : Nat) : Prop :=
  ∀ i j, i < count → j < count → signature.argumentName i = signature.argumentName j → i = j

/-- No parameter is named like one of the first arguments of the variadic parameter, which are
numbered. -/
def NumbersApart (signature : Signature) (count : Nat) : Prop :=
  ∀ last, signature.getLast? = some last → last.isVariadic = true →
    ∀ param ∈ signature.dropLast, ∀ k, signature.length - 1 + k < count →
      param.name ≠ last.name ++ toString k

theorem argumentName_declared (hparam : signature[i]? = some param)
    (hvariadic : param.isVariadic = false) : signature.argumentName i = param.name := by
  simp [argumentName, hparam, hvariadic]

theorem argumentName_numbered (hlast : signature.getLast? = some param)
    (hvariadic : param.isVariadic = true) (hi : signature.length - 1 ≤ i) :
    signature.argumentName i = param.name ++ toString (i - (signature.length - 1)) := by
  have hat : signature[i]? = none ∨ signature[i]? = some param := by
    rw [List.getLast?_eq_getElem?] at hlast
    rcases Nat.lt_or_ge i signature.length with hlt | hge
    · right
      rwa [show i = signature.length - 1 by omega]
    · exact .inl (List.getElem?_eq_none hge)
  rcases hat with hat | hat <;> simp [argumentName, hat, hlast, hvariadic]

/-- A parameter before the variadic one, or the variadic one itself. -/
theorem Trailing.position (h : signature.Trailing) (hparam : signature.paramAt? i = some param) :
    (signature[i]? = some param ∧ param.isVariadic = false) ∨
      signature.getLast? = some param ∧ param.isVariadic = true ∧ signature.length - 1 ≤ i := by
  cases hi : signature[i]? with
  | none =>
    rw [paramAt?, hi, Option.none_or, Option.filter_eq_some_iff] at hparam
    have hlen := List.getElem?_eq_none_iff.mp hi
    exact .inr ⟨hparam.1, hparam.2, by omega⟩
  | some p =>
    rw [paramAt?, hi, Option.some_or] at hparam
    cases hparam
    cases hvariadic : param.isVariadic with
    | false => exact .inl ⟨rfl, rfl⟩
    | true =>
      have hlast : signature.length - 1 ≤ i := by
        by_contra hbefore
        rw [h param (mem_dropLast hi (by omega))] at hvariadic
        cases hvariadic
      have hlt := (List.getElem?_eq_some_iff.mp hi).1
      refine .inr ⟨?_, rfl, hlast⟩
      rwa [List.getLast?_eq_getElem?, show signature.length - 1 = i by omega]

/-- What is bound has a parameter at every position. -/
theorem Trailing.paramAt?_of_bind (h : signature.Trailing) {as out : List Argument}
    (hout : signature.bind as = .ok out) (hi : i < out.length) :
    ∃ param, signature.paramAt? i = some param := by
  have hout := bind_eq_ok_iff.mp hout
  induction signature, h, as using Trailing.induction generalizing out i with
  | nil _ as =>
    cases hout
    cases hi
  | taken _ hparam ih =>
    obtain ⟨-, bound, hbound, rfl⟩ := (bindFrom_cons_ok_iff hparam).mp hout
    cases i with
    | zero => exact ⟨_, paramAt?_zero⟩
    | succ i =>
      rw [paramAt?_succ hparam]
      exact ih (bind_eq_ok_iff.mpr hbound) (Nat.lt_of_succ_lt_succ hi) hbound
  | missing _ hparam =>
    rw [bindFrom_missing hparam] at hout
    cases hout
  | omitted _ hparam ih =>
    obtain ⟨bound, hbound, rfl⟩ := (bindFrom_omitted_ok_iff hparam).mp hout
    cases i with
    | zero => exact ⟨_, paramAt?_zero⟩
    | succ i =>
      rw [paramAt?_succ (by rw [Param.isVariadic, hparam])]
      exact ih (bind_eq_ok_iff.mpr hbound) (Nat.lt_of_succ_lt_succ hi) hbound
  | variadic _ as hparam => exact ⟨_, paramAt?_variadic hparam i⟩

theorem repr_injective {k l : Nat} (h : k.repr = l.repr) : k = l := by
  have hdigits := congrArg String.toList h
  rw [Nat.toList_repr, Nat.toList_repr] at hdigits
  rw [← @Nat.ofDigitChars_ten_toDigits k, hdigits, Nat.ofDigitChars_ten_toDigits]

section Names

variable (htrailing : signature.Trailing) {p q : Param}
include htrailing

omit htrailing in
theorem declared_injective (hdistinct : (signature.map Param.name).Nodup)
    (hp : signature[i]? = some p) (hq : signature[j]? = some q) (heq : p.name = q.name) : i = j := by
  have hlt : i < (signature.map Param.name).length := by
    rw [List.length_map]
    exact (List.getElem?_eq_some_iff.mp hp).1
  refine (List.getElem?_inj hlt hdistinct).mp ?_
  rw [List.getElem?_map, List.getElem?_map, hp, hq]
  exact congrArg some heq

omit htrailing in
/-- A declared name is not that of a numbered argument. -/
theorem NumbersApart.declared_ne (h : signature.NumbersApart count)
    (hp : signature[i]? = some p) (hvariadic : p.isVariadic = false)
    (hlast : signature.getLast? = some q) (hvariadic' : q.isVariadic = true)
    (hj : signature.length - 1 ≤ j) (hcount : j < count) :
    signature.argumentName i ≠ signature.argumentName j := by
  intro heq
  rw [argumentName_declared hp hvariadic, argumentName_numbered hlast hvariadic' hj] at heq
  have hbefore : i < signature.length - 1 := by
    have hlt := (List.getElem?_eq_some_iff.mp hp).1
    have hne : i ≠ signature.length - 1 := by
      rintro rfl
      rw [← List.getLast?_eq_getElem?, hlast] at hp
      cases hp
      cases hvariadic.symm.trans hvariadic'
    omega
  exact h q hlast hvariadic' p (mem_dropLast hp hbefore) _ (by omega) heq

/-- Names are distinct exactly where no declared name is that of a numbered argument. -/
theorem distinguishes_iff (hdistinct : (signature.map Param.name).Nodup)
    (hparams : ∀ i < count, ∃ param, signature.paramAt? i = some param) :
    signature.Distinguishes count ↔ signature.NumbersApart count := by
  constructor
  · intro h last hlast hvariadic p hp k hk heq
    have hdeclared := htrailing p hp
    rw [List.dropLast_eq_take] at hp
    obtain ⟨j, hj⟩ := List.getElem?_of_mem hp
    have hbefore := (List.getElem?_eq_some_iff.mp hj).1
    rw [List.length_take] at hbefore
    rw [List.getElem?_take_of_lt (by omega)] at hj
    have hsame : signature.argumentName j = signature.argumentName (signature.length - 1 + k) := by
      rw [argumentName_declared hj hdeclared,
        argumentName_numbered hlast hvariadic (Nat.le_add_right _ _), Nat.add_sub_cancel_left]
      exact heq
    have := h j _ (by omega) hk hsame
    omega
  · intro h i j hi hj heq
    obtain ⟨p, hp⟩ := hparams i hi
    obtain ⟨q, hq⟩ := hparams j hj
    rcases htrailing.position hp with ⟨hpi, hpv⟩ | ⟨hpl, hpv, hpi⟩ <;>
      rcases htrailing.position hq with ⟨hqj, hqv⟩ | ⟨hql, hqv, hqj⟩
    · rw [argumentName_declared hpi hpv, argumentName_declared hqj hqv] at heq
      exact declared_injective hdistinct hpi hqj heq
    · exact absurd heq (h.declared_ne hpi hpv hql hqv hqj hj)
    · exact absurd heq.symm (h.declared_ne hqj hqv hpl hpv hpi hi)
    · obtain rfl := Option.some.inj (hpl.symm.trans hql)
      rw [argumentName_numbered hpl hpv hpi, argumentName_numbered hpl hpv hqj] at heq
      have := repr_injective ((String.append_right_inj _).mp heq)
      omega

end Names

end Signature

/-! ## Recorded inputs -/

namespace Symbolic

variable {failing : List String} {request : BuildRequest} {result : BuildResult} {name : String}
  {input : Input}

/-- What a result records of an input under a name. -/
def Records (result : BuildResult) (name : String) : Input → Prop
  | .scalar value => result.value? name = some value
  | .vector value => result.point? name = some value
  | .datum value => result.point? name = some value.origin
  | .shape sub => result.sub? name = some sub
  | .keyword _ => True
  | .selection _ => True

theorem records_addInput (result : BuildResult) (name : String) (input : Input) :
    Records (addInput result (name, input)) name input := by
  cases input with
  | keyword word => exact True.intro
  | selection value => exact True.intro
  | _ =>
    refine (Table.get?_insert _ _ _ _).trans ?_
    rw [if_pos rfl]

/-- An input under another name changes nothing. -/
theorem Records.addInput (h : Records result name input) {p : String × Input} (hp : p.1 ≠ name) :
    Records (addInput result p) name input := by
  have hother : ∀ {α : Type} (t : List (String × α)) (y : α),
      (Table.insert t p.1 y).get? name = Table.get? t name := fun t y => by
    rw [Table.get?_insert, if_neg hp]
  obtain ⟨name', other⟩ := p
  cases input with
  | keyword word => exact True.intro
  | selection value => exact True.intro
  | _ =>
    cases other with
    | keyword word => exact h
    | selection value => exact h
    | _ => first | exact h | exact (hother _ _).trans h

theorem Records.foldl (h : Records result name input) {inputs : List (String × Input)}
    (hnames : name ∉ inputs.map Prod.fst) :
    Records (inputs.foldl Symbolic.addInput result) name input := by
  induction inputs generalizing result with
  | nil => exact h
  | cons p inputs ih =>
    rw [List.map_cons, List.mem_cons, not_or] at hnames
    exact ih (h.addInput (Ne.symm hnames.1)) hnames.2

/-- Inputs under distinct names are all recorded. -/
theorem records_foldl {inputs : List (String × Input)} (hnames : (inputs.map Prod.fst).Nodup)
    (hmem : (name, input) ∈ inputs) : Records (inputs.foldl addInput result) name input := by
  induction inputs generalizing result with
  | nil => cases hmem
  | cons p inputs ih =>
    rw [List.map_cons, List.nodup_cons] at hnames
    rcases List.mem_cons.mp hmem with rfl | hmem
    · exact (records_addInput result name input).foldl hnames.1
    · exact ih hnames.2 hmem

theorem records_serial {serial : Nat} (h : Records result name input) :
    Records { result with serial := serial } name input := by
  cases input <;> exact h

/-- The inputs of a construction are recorded under the names of its arguments. -/
theorem build_records (hbuild : build failing request = .ok result)
    (hnames : request.signature.Distinguishes request.inputs.length) {i : Nat}
    (hinput : request.inputs[i]? = some input) :
    Records result (request.signature.argumentName i) input := by
  unfold build at hbuild
  split at hbuild
  · cases hbuild
  obtain ⟨_, -, hbuild⟩ := ok_of_bind hbuild
  cases hbuild
  refine records_foldl ?_ (List.mem_of_getElem? (i := i) ?_)
  · rw [List.nodup_iff_getElem?_ne_getElem?]
    intro j k hjk hk heq
    rw [List.length_map, BuildRequest.namedInputs, List.length_mapIdx] at hk
    rw [BuildRequest.namedInputs, List.getElem?_map, List.getElem?_map, List.getElem?_mapIdx,
      List.getElem?_mapIdx, List.getElem?_eq_getElem (Nat.lt_trans hjk hk),
      List.getElem?_eq_getElem hk] at heq
    exact absurd (hnames j k (Nat.lt_trans hjk hk) hk (Option.some.inj heq)) (Nat.ne_of_lt hjk)
  · rw [BuildRequest.namedInputs, List.getElem?_mapIdx, hinput]
    rfl

end Symbolic

/-! ## Reading -/

theorem Plan.Recalls.of_pure {ev : Evaluation} {s : BuildState} {α : Type} {a b : α}
    (h : (pure a : Plan α).Recalls ev s b) : b = a := by
  cases (show (Plan.done a).Recalls ev s b from h)
  rfl

namespace Evaluation

variable {ev : Evaluation} {s : BuildState} {f : Feature} {answer : BuildAnswer}

/-- Arguments are evaluated one by one. -/
theorem argumentList_recalls {user : Option String} {as : List Argument}
    {args : List ResolvedArgument} (h : (ev.argumentList user as).Recalls ev s args) :
    List.Forall₂ (fun a x => (ev.argument user a).Recalls ev s x) as args := by
  induction as generalizing args with
  | nil =>
    cases h.of_pure
    exact .nil
  | cons a as ih =>
    obtain ⟨x, hx, h⟩ := h.of_bind
    obtain ⟨xs, hxs, h⟩ := h.of_bind
    cases h.of_pure
    exact .cons hx (ih hxs)

/-- Without a cache every answer was given to the construction's own request. -/
theorem Source.invocation {owned : Feature → Prop} (h : ev.Source owned s f answer)
    (hcaching : ev.caching = false) :
    ∃ i request, ev.Owns s f request ∧ answer = ev.backend.answerTo i request := by
  cases h with
  | @answered hash i g args ins _ hanswered hown =>
    rcases hown with hc | ⟨rfl, howns⟩
    · cases hc.symm.trans hcaching
    · exact ⟨i, _, howns, hanswered.answer_eq⟩

section References

variable {reference : FeatureRef} {root : Feature} {path : List String} {result : BuildResult}
  {name : String} (user : Option String) (hbuilt : (s.feature root).progress = .built result)
include hbuilt

theorem buildReference_recalls {shape : BuildResult}
    (htarget : ev.model.target reference = .ok (root, path))
    (hdescend : result.descend root.label path = .ok shape) :
    (ev.buildReference user reference).Recalls ev s shape := by
  unfold buildReference
  rw [htarget]
  refine .build hbuilt ?_
  show (Plan.ofExcept (result.descend root.label path)).Recalls ev s shape
  rw [hdescend]
  exact .done

theorem value_recalls {x : Float} (htarget : ev.model.target reference = .ok (root, []))
    (hvalue : result.value? name = some x) :
    (ev.scalar user (.value reference name)).Recalls ev s x := by
  rw [Evaluation.scalar]
  refine (buildReference_recalls user hbuilt htarget rfl).bind ?_
  rw [hvalue]
  exact .done

theorem point_recalls {v : Vec3} (htarget : ev.model.target reference = .ok (root, []))
    (hpoint : result.point? name = some v) :
    (ev.vector user (.point reference name)).Recalls ev s v := by
  rw [Evaluation.vector]
  refine (buildReference_recalls user hbuilt htarget rfl).bind ?_
  rw [hpoint]
  exact .done

theorem sub_recalls {shape : BuildResult} (htarget : ev.model.target reference = .ok (root, []))
    (hsub : result.sub? name = some shape) :
    (ev.buildReference user (.sub reference name)).Recalls ev s shape := by
  have hbelow : ev.model.target (.sub reference name) = .ok (root, [name]) := by
    unfold Model.target at htarget ⊢
    rw [FeatureRef.targetOver, htarget]
    rfl
  refine buildReference_recalls user hbuilt hbelow ?_
  simp [BuildResult.descend, hsub]

end References

end Evaluation

/-- A call binds its arguments to the signature of the construction. -/
theorem FeatureType.Gives.bind_signature {type : FeatureType} {as : List Argument} {f : Feature}
    (h : type.Gives as f) : f.signature.bind as = .ok f.arguments := by
  have hbind : ∀ {signature : Signature}, (do
      let bound ← signature.bind as
      return Feature.construct type.name signature bound f.origin none) = .ok f.unnamed →
        f.signature.bind as = .ok f.arguments := by
    intro signature h
    obtain ⟨out, hout, h⟩ := ok_of_bind h
    cases f
    cases Except.ok.inj h
    exact hout
  unfold Gives construct at h
  cases hchecked : type.checked with
  | declared =>
    rw [hchecked] at h
    exact hbind h
  | placement =>
    rw [hchecked] at h
    obtain ⟨signature, -, h⟩ := ok_of_bind h
    exact hbind h

namespace Workbench

variable {registries : Nat → Registry} {failing : List String} {b : Workbench} {id : Nat}
  {f : Feature} {reference : FeatureRef} {result : BuildResult}

/-- An argument is read back by a name: what it is evaluated to is what is found of the
construction under the name. -/
def ReadsBack (b : Workbench) (id : Nat) (reference : FeatureRef) (name : String) :
    Argument → Prop
  | .scalar value => ∃ x, (b.ask id (.value (.scalar none value) True.intro)).1 = .ok x ∧
      (b.ask id (.value (.scalar none (.value reference name)) True.intro)).1 = .ok x
  | .vector value => ∃ v, (b.ask id (.value (.vector none value) True.intro)).1 = .ok v ∧
      (b.ask id (.value (.vector none (.point reference name)) True.intro)).1 = .ok v
  | .datum value => ∃ d, (b.ask id (.value (.datum none value) True.intro)).1 = .ok d ∧
      (b.ask id (.value (.vector none (.point reference name)) True.intro)).1 = .ok d.origin
  | .feature value => ∃ shape, (b.ask id (.shape value)).1 = .ok shape ∧
      (b.ask id (.shape (.sub reference name))).1 = .ok shape
  | .keyword _ => True
  | .selection _ => True

/-- What is recorded of an evaluated argument is found again. -/
theorem Keeps.readsBack {registry : Registry} (h : b.Keeps registry id)
    (hreference : reference.constructions ⊆ b.constructions id)
    (htarget : (b.shop.session id).model.target reference = .ok (f, []))
    (hbuilt : ((b.shop.state id).feature f).progress = .built result) {a : Argument}
    (ha : a.constructions ⊆ b.constructions id) {user : Option String} {x : ResolvedArgument}
    (hx : ((b.shop.evaluation id).argument user a).Recalls (b.shop.evaluation id)
      (b.shop.state id) x)
    (heval : a.Evaluates (b.shop.session id).model (b.shop.state id) x) {input : Input}
    (hinput : x.Delivers (b.shop.state id) input) {name : String}
    (hrecords : Symbolic.Records result name input) : b.ReadsBack id reference name a := by
  have htells : ∀ {q : Query} {answer : q.Answer}, q.Lasting →
      q.constructions ⊆ b.constructions id →
      (q.plan (b.shop.evaluation id)).Recalls (b.shop.evaluation id) (b.shop.state id) answer →
      (b.ask id q).1 = .ok answer := fun hlasting hq hrecalls =>
    h.answer (.refl b id) hlasting hq hrecalls
  cases a with
  | keyword word => exact True.intro
  | selection value => exact True.intro
  | scalar value =>
    obtain ⟨v, hv, hdone⟩ := hx.of_bind
    cases hdone.of_pure
    cases hinput
    have hv := hv.relabel none
    rw [Evaluation.scalar_relabel] at hv
    exact ⟨v, htells True.intro ha hv, htells True.intro hreference
      (Evaluation.value_recalls none hbuilt htarget hrecords)⟩
  | vector value =>
    obtain ⟨v, hv, hdone⟩ := hx.of_bind
    cases hdone.of_pure
    cases hinput
    have hv := hv.relabel none
    rw [Evaluation.vector_relabel] at hv
    exact ⟨v, htells True.intro ha hv, htells True.intro hreference
      (Evaluation.point_recalls none hbuilt htarget hrecords)⟩
  | datum value =>
    obtain ⟨d, hd, hdone⟩ := hx.of_bind
    cases hdone.of_pure
    cases hinput
    have hd := hd.relabel none
    rw [Evaluation.datum_relabel] at hd
    exact ⟨d, htells True.intro ha hd, htells True.intro hreference
      (Evaluation.point_recalls none hbuilt htarget hrecords)⟩
  | feature value =>
    cases heval with
    | feature hvalue =>
      cases hinput with
      | @feature _ inner shape hinner hdescend =>
        exact ⟨shape, htells True.intro ha
          (Evaluation.buildReference_recalls none hinner hvalue hdescend),
          htells True.intro hreference (Evaluation.sub_recalls none hbuilt htarget hrecords)⟩

/-- In every run without a cache, the names of the arguments of a construction that was built are
distinct exactly where no parameter is named like a numbered argument; and then every argument is
read back under its name: a number as a value, a vector or the origin of a datum as a point, and
a feature as the very result that was built for it. -/
theorem reads_back {type : FeatureType} {given : List Argument}
    (hb : Reachable registries (Symbolic.backend failing) .disabled b)
    (hf : f ∈ b.constructions id) (hgives : type.Gives given f)
    (hdistinct : (f.signature.map Param.name).Nodup) (htrailing : f.signature.Trailing)
    (hbuilt : ((b.shop.state id).feature f).progress = .built result) :
    (f.signature.Distinguishes f.arguments.length ↔
      f.signature.NumbersApart f.arguments.length) ∧
    (f.signature.NumbersApart f.arguments.length →
      ∀ i a, f.arguments[i]? = some a → ∀ reference : FeatureRef,
        reference.constructions ⊆ b.constructions id →
        (b.shop.session id).model.target reference = .ok (f, []) →
        b.ReadsBack id reference (f.signature.argumentName i) a) := by
  have hiff : f.signature.Distinguishes f.arguments.length ↔
      f.signature.NumbersApart f.arguments.length :=
    Signature.distinguishes_iff htrailing hdistinct fun i hi =>
      htrailing.paramAt?_of_bind hgives.bind_signature hi
  refine ⟨hiff, fun hapart i a ha reference hreference htarget => ?_⟩
  have hkeeps := hb.kept.sessions id
  have hfs : Closed (b.shop.session id).model (b.constructions id) := hkeeps.closed
  -- The backend was invoked for the construction with the inputs of its own arguments.
  obtain ⟨number, _, @⟨hash, args, ins, -, hargs, hins⟩, hanswer⟩ :=
    ((hb.sourced id _ hfs (List.Subset.refl _)).results f hf result hbuilt).invocation
      hb.not_caching
  have hbackend : (b.shop.evaluation id).backend = Symbolic.backend failing := hb.keeps_backend
  rw [hbackend] at hanswer
  obtain ⟨r, hr, rfl⟩ := Backend.built_of_answerTo hanswer
  have hlist := Evaluation.argumentList_recalls hargs
  have hevaluates := Evaluation.recalls_evaluates hfs hf hargs
  have hdelivers := Evaluation.recalls_delivers hins
  have hlength : ins.length = f.arguments.length :=
    hdelivers.length_eq.symm.trans hlist.length_eq.symm
  obtain ⟨hi, rfl⟩ := List.getElem?_eq_some_iff.mp ha
  have hia : i < args.length := hlist.length_eq ▸ hi
  have hii : i < ins.length := hlength ▸ hi
  have hnames : (Evaluation.request f hash ins).signature.Distinguishes
      (Evaluation.request f hash ins).inputs.length := hlength.symm ▸ hiff.mpr hapart
  have hrecords : Symbolic.Records r (f.signature.argumentName i) ins[i] :=
    Symbolic.build_records hr hnames (List.getElem?_eq_getElem hii)
  have hall := hfs.arguments f hf
  refine hkeeps.readsBack hreference htarget hbuilt ?_ (hlist.get hi hia) (hevaluates.get hi hia)
    (hdelivers.get hia hii) (Symbolic.records_serial hrecords)
  rw [Argument.constructionsIn_eq] at hall
  exact fun g hg => hall (List.mem_flatMap.mpr ⟨_, List.getElem_mem hi, hg⟩)

/-- A result that has been asked for is remembered. -/
theorem Keeps.built_ask {registry : Registry} (h : b.Keeps registry id)
    (hf : f ∈ b.constructions id) (hresult : (b.ask id (.result f)).1 = .ok result) :
    (((b.ask id (.result f)).2.shop.state id).feature f).progress = .built result := by
  have hfsub : (Query.result f).constructions ⊆ b.constructions id := h.closed.constructions hf
  have hrecalls := (h.recollects_ask hfsub h.closed (List.Subset.refl _)).2 result hresult
  obtain ⟨r, hr, hdone⟩ := hrecalls.of_demand
  cases hdone
  rw [state_ask]
  exact hr

/-! ### A compound -/

/-- A sphere. -/
def ball : Feature :=
  .construct "Sphere" Catalog.sphere.signature
    [.vector (.literal (.literal 0) (.literal 0) (.literal 0)), .scalar (.literal 1)] (.made 0) none

/-- A compound that holds the sphere twice. -/
def twice : Feature :=
  .construct "Compound" Catalog.compound.signature [.feature (.inline ball), .feature (.inline ball)]
    (.made 1) none

/-- The sphere and the compound, in a session without a cache. -/
def twiceMade : Workbench :=
  ((create Catalog.registry (Symbolic.backend []) .disabled).make 0 [ball]).make 0 [twice]

theorem twiceMade_reachable :
    Reachable (fun _ => Catalog.registry) (Symbolic.backend []) .disabled twiceMade :=
  .tail (.single (.works (.make_one rfl (List.nil_subset _))))
    (.works (.make_one rfl (List.cons_subset.mpr ⟨List.mem_cons_self,
      List.cons_subset.mpr ⟨List.mem_cons_self, List.nil_subset _⟩⟩)))

set_option maxRecDepth 100000 in
/-- The second part of the compound is the sphere that was built for it. -/
theorem reads_back_twice :
    (twiceMade.ask 0 (.result twice)).2.ReadsBack 0 (.inline twice) "parts1"
      (.feature (.inline ball)) := by
  have hok : (twiceMade.ask 0 (.result twice)).1.isOk = true := by decide +kernel
  obtain ⟨result, hresult⟩ := exists_ok hok
  have hmem : twice ∈ twiceMade.constructions 0 := List.mem_cons_of_mem _ List.mem_cons_self
  have hkeeps := twiceMade_reachable.kept.sessions 0
  have hsub : twice.constructions ⊆ twiceMade.constructions 0 := hkeeps.closed.constructions hmem
  have hreachable : Reachable (fun _ => Catalog.registry) (Symbolic.backend []) .disabled
      (twiceMade.ask 0 (.result twice)).2 :=
    twiceMade_reachable.tail (.works (.ask hsub))
  have hlater := (twiceMade.later_ask 0 (.result twice)).constructions
  have hgives : Catalog.compound.Gives twice.arguments twice := rfl
  obtain ⟨-, hreads⟩ := reads_back hreachable (hlater hmem) hgives (by decide) (by decide)
    (hkeeps.built_ask hmem hresult)
  have hapart : twice.signature.NumbersApart twice.arguments.length :=
    fun _ _ _ _ hparam => nomatch hparam
  exact hreads hapart 1 _ rfl (.inline twice) (List.Subset.trans hsub hlater) rfl

/-! ### A name that is written twice -/

/-- A type with a parameter that is named like the first argument of its variadic parameter. -/
def clashing : FeatureType :=
  .ofSignature "Clashing" [⟨"x0", .scalar, .required⟩, ⟨"x", .scalar, .variadic 0⟩] ""

/-- A construction with a number for either. -/
def clash : Feature :=
  .construct "Clashing" clashing.signature [.scalar (.literal 1), .scalar (.literal 2)] (.made 0)
    none

/-- The number that an expression is evaluated to. -/
def number? (b : Workbench) (id : Nat) (value : ScalarExpr) : Option Float :=
  (b.ask id (.value (.scalar none value) True.intro)).1.toOption

/-- The construction in a session without a cache. -/
def clashMade : Workbench :=
  (create ⟨[clashing]⟩ (Symbolic.backend []) .disabled).make 0 [clash]

set_option maxRecDepth 100000 in
/-- Both arguments have one name, and once the construction has been built, the first of them is
not read back under it. -/
theorem overwritten_clash :
    (clash.signature.map Param.name).Nodup ∧ clash.signature.Trailing ∧
    clashing.Gives clash.arguments clash ∧ clash ∈ clashMade.constructions 0 ∧
    Reachable (fun _ => ⟨[clashing]⟩) (Symbolic.backend []) .disabled
      (clashMade.ask 0 (.result clash)).2 ∧
    (∃ result, (((clashMade.ask 0 (.result clash)).2.shop.state 0).feature clash).progress =
      .built result) ∧
    clash.signature.argumentName 0 = clash.signature.argumentName 1 ∧
    ¬ (clashMade.ask 0 (.result clash)).2.ReadsBack 0 (.inline clash)
      (clash.signature.argumentName 0) (.scalar (.literal 1)) := by
  have hmade : Reachable (fun _ => ⟨[clashing]⟩) (Symbolic.backend []) .disabled clashMade :=
    .single (.works (.make_one rfl (List.nil_subset _)))
  have hmem : clash ∈ clashMade.constructions 0 := List.mem_cons_self
  have hkeeps := hmade.kept.sessions 0
  have hok : (clashMade.ask 0 (.result clash)).1.isOk = true := by decide +kernel
  obtain ⟨result, hresult⟩ := exists_ok hok
  refine ⟨by decide, by decide, rfl, hmem, ?_, ⟨result, hkeeps.built_ask hmem hresult⟩,
    by decide, ?_⟩
  · exact hmade.tail (.works (.ask (hkeeps.closed.constructions hmem)))
  · rintro ⟨x, hgiven, hread⟩
    have hdiffer : (clashMade.ask 0 (.result clash)).2.number? 0 (.literal 1) ≠
        (clashMade.ask 0 (.result clash)).2.number? 0
          (.value (.inline clash) (clash.signature.argumentName 0)) := by
      decide +kernel
    rw [number?, number?, hgiven, hread] at hdiffer
    exact hdiffer rfl

end Workbench

end PartScript
