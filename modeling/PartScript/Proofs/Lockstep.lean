/-
  Every evaluation keeps step with itself: one lemma for each form of expression, and from
  these one for the arguments of a construction.
-/
import PartScript.Proofs.Scope

namespace PartScript

namespace Pairing

variable {c : Pairing}

/-- A name is bound alike on both sides, or only on the second where that is allowed. -/
theorem Sound.binding? (hc : c.Sound) (name : String) :
    c.ev'.model.binding? name = c.ev.model.binding? name ∨
      c.lax ∧ c.ev.model.binding? name = none := by
  rcases hc.names with heq | ⟨hlax, hext⟩
  · exact .inl (by rw [heq])
  · cases hb : c.ev.model.binding? name with
    | none => exact .inr ⟨hlax, rfl⟩
    | some b => exact .inl (hext.binding? hb)

/-- A reference leads to the same place on both sides, or on the first to a name that is not
bound yet. -/
theorem Sound.target (hc : c.Sound) (r : FeatureRef) :
    c.ev'.model.target r = c.ev.model.target r ∨
      ∃ e, c.lax ∧ c.ev.model.target r = .error e ∧ e.isDeferred = true := by
  rcases hc.names with heq | ⟨hlax, hext⟩
  · exact .inl (by rw [heq])
  · rcases Model.target_extends hext r with heq | ⟨e, he, hd⟩
    · exact .inl heq
    · exact .inr ⟨e, hlax, he, hd⟩

end Pairing

namespace Evaluation

open Plan (Matches)

variable {c : Pairing} (hc : c.Sound) (user : Option String)
include hc

/-! ## References -/

theorem resolve_matches (r : FeatureRef) (known : List StructuralHash) :
    Matches c user
      (fun x x' => x = x' ∧ c.ev.model.target r = .ok (x.root, x.path) ∧
        c.ev'.model.target r = .ok (x.root, x.path))
      known [.identity r] (c.ev.resolve user r) (c.ev'.resolve user r) := by
  unfold Evaluation.resolve
  rcases hc.target r with heq | ⟨e, hlax, he, hd⟩
  · rw [heq]
    cases ht : c.ev.model.target r with
    | error e => exact .stop rfl (.target ht (.inl List.mem_cons_self))
    | ok t =>
      obtain ⟨root, path⟩ := t
      have ht' : c.ev'.model.target r = .ok (root, path) := heq.trans ht
      refine .demand (.identity ht) (.identity ht') fun h h' hh => ?_
      obtain rfl : h = h' := hh
      by_cases hp : path.isEmpty = true
      · simp only [hp]
        exact .done ⟨rfl, rfl, rfl⟩
      · simp only [hp]
        refine .identify ?_ fun g => .done ⟨rfl, rfl, rfl⟩
        intro x hx
        exact List.mem_append_left _ hx
  · rw [he]
    exact .unbound hlax hd

/-- Where a reference leads is built, and any sub-result of it may be looked up. -/
theorem buildBelow_matches {r : FeatureRef} {root : Feature} {below : List String}
    (ht : c.ev.model.target r = .ok (root, below))
    (ht' : c.ev'.model.target r = .ok (root, below)) (path : List String)
    (known : List StructuralHash) :
    Matches c user c.B known [.result r] (buildBelow user root path)
      (buildBelow user root path) := by
  refine .demand (.result ht) (.result ht') fun x x' hx => ?_
  have hsub := hc.congruence.descend hx root.label root.label path
  show Matches c user c.B _ [] (Plan.ofExcept (BuildResult.descend root.label x path))
    (Plan.ofExcept (BuildResult.descend root.label x' path))
  cases hd : BuildResult.descend root.label x path <;>
    cases hd' : BuildResult.descend root.label x' path <;> rw [hd, hd'] at hsub
  · have hcause := BuildResult.descend_cause hd
    refine .stop hsub ⟨?_, ?_⟩
    · rw [hcause]
      nofun
    · rw [BuildError.blamed?_eq_none (by rw [hcause]; nofun) (by rw [hcause]; nofun)]
      nofun
  · exact hsub.elim
  · exact hsub.elim
  · exact .done hsub

theorem buildReference_matches (r : FeatureRef) (known : List StructuralHash) :
    Matches c user c.B known [.result r] (c.ev.buildReference user r)
      (c.ev'.buildReference user r) := by
  unfold Evaluation.buildReference
  rcases hc.target r with heq | ⟨e, hlax, he, hd⟩
  · rw [heq]
    cases ht : c.ev.model.target r with
    | error e => exact .stop rfl (.target ht (.inr List.mem_cons_self))
    | ok t => exact buildBelow_matches hc user ht (heq.trans ht) t.2 known
  · rw [he]
    exact .unbound hlax hd

/-! ## Values -/

/-- Following a name of a kind: both sides go on with the bound value, or stop. -/
theorem bound_matches {α : Type} {R : α → α → Prop} (name : String) (kind : SymbolKind)
    (known : List StructuralHash) {items : List Item} (hname : Item.symbol kind name ∈ items)
    {f f' : BoundValue → Plan α}
    (hf : ∀ b, c.ev.model.binding? name = some b → c.ev'.model.binding? name = some b →
      Matches c user R known items (f b.value) (f' b.value)) :
    Matches c user R known items (c.ev.bound name kind >>= f) (c.ev'.bound name kind >>= f') := by
  unfold Evaluation.bound
  rcases hc.binding? name with heq | ⟨hlax, hb⟩
  · rw [heq]
    cases hb : c.ev.model.binding? name with
    | none => exact .stop rfl (.unbound hb hname)
    | some b => exact hf b hb (heq.trans hb)
  · rw [hb]
    exact .unbound hlax rfl

omit hc in
theorem direction_matches (what : String) (v : Vec3) (known : List StructuralHash) :
    Matches c user Eq known [] (direction what v) (direction what v) := by
  unfold direction
  cases v.unit? with
  | none => exact .stop rfl ⟨nofun, nofun⟩
  | some unit => exact .done rfl

mutual

theorem scalar_matches (known : List StructuralHash) : (e : ScalarExpr) →
    Matches c user Eq known e.items (c.ev.scalar user e) (c.ev'.scalar user e)
  | .literal value => by
    rw [Evaluation.scalar, Evaluation.scalar]
    exact .done rfl
  | .symbol name => by
    rw [Evaluation.scalar, Evaluation.scalar]
    refine bound_matches hc user name .scalar known List.mem_cons_self fun b hb hb' => ?_
    cases hv : b.value with
    | scalar value => exact .demand (.scalar hb hv) (.scalar hb' hv) fun a a' ha => .done ha
    | _ => exact .stop rfl (.mismatch hb hv nofun List.mem_cons_self)
  | .neg operand => by
    rw [Evaluation.scalar, Evaluation.scalar]
    exact (scalar_matches known operand).lift _
  | .binary op left right => by
    rw [Evaluation.scalar, Evaluation.scalar]
    exact (scalar_matches known left).lift₂ (scalar_matches [] right) _
  | .call fn operand => by
    rw [Evaluation.scalar, Evaluation.scalar]
    exact (scalar_matches known operand).lift _
  | .dot left right => by
    rw [Evaluation.scalar, Evaluation.scalar]
    exact (vector_matches known left).lift₂ (vector_matches [] right) _
  | .magnitude operand => by
    rw [Evaluation.scalar, Evaluation.scalar]
    exact (vector_matches known operand).lift _
  | .component operand which => by
    rw [Evaluation.scalar, Evaluation.scalar]
    exact (vector_matches known operand).lift _
  | .value feature name => by
    rw [Evaluation.scalar, Evaluation.scalar]
    refine (buildReference_matches hc user feature known).map ?_
    intro x x' hx
    rw [hc.congruence.value? hx name]
    cases x'.value? name with
    | none => exact .stop rfl ⟨nofun, nofun⟩
    | some value => exact .done rfl

theorem vector_matches (known : List StructuralHash) : (e : VectorExpr) →
    Matches c user Eq known e.items (c.ev.vector user e) (c.ev'.vector user e)
  | .literal x y z => by
    rw [Evaluation.vector, Evaluation.vector]
    refine (scalar_matches known x).bind ?_
    rintro a _ rfl
    exact (scalar_matches [] y).lift₂ (scalar_matches [] z) _
  | .symbol name => by
    rw [Evaluation.vector, Evaluation.vector]
    refine bound_matches hc user name .vector known List.mem_cons_self fun b hb hb' => ?_
    cases hv : b.value with
    | vector value => exact .demand (.vector hb hv) (.vector hb' hv) fun a a' ha => .done ha
    | _ => exact .stop rfl (.mismatch hb hv nofun List.mem_cons_self)
  | .neg operand => by
    rw [Evaluation.vector, Evaluation.vector]
    exact (vector_matches known operand).lift _
  | .add left right => by
    rw [Evaluation.vector, Evaluation.vector]
    exact (vector_matches known left).lift₂ (vector_matches [] right) _
  | .sub left right => by
    rw [Evaluation.vector, Evaluation.vector]
    exact (vector_matches known left).lift₂ (vector_matches [] right) _
  | .scale operand factor => by
    rw [Evaluation.vector, Evaluation.vector]
    exact (vector_matches known operand).lift₂ (scalar_matches [] factor) _
  | .divide operand divisor => by
    rw [Evaluation.vector, Evaluation.vector]
    exact (vector_matches known operand).lift₂ (scalar_matches [] divisor) _
  | .cross left right => by
    rw [Evaluation.vector, Evaluation.vector]
    exact (vector_matches known left).lift₂ (vector_matches [] right) _
  | .normalize operand => by
    rw [Evaluation.vector, Evaluation.vector]
    refine (vector_matches known operand).map ?_
    rintro v _ rfl
    exact direction_matches user _ v []
  | .point feature name => by
    rw [Evaluation.vector, Evaluation.vector]
    refine (buildReference_matches hc user feature known).map ?_
    intro x x' hx
    rw [hc.congruence.point? hx name]
    cases x'.point? name with
    | none => exact .stop rfl ⟨nofun, nofun⟩
    | some point => exact .done rfl
  | .part datum part => by
    rw [Evaluation.vector, Evaluation.vector]
    refine (datum_matches known datum).map ?_
    rintro value _ rfl
    cases value.part? part with
    | none => exact .stop rfl ⟨nofun, nofun⟩
    | some v => exact .done rfl

theorem datum_matches (known : List StructuralHash) : (e : DatumExpr) →
    Matches c user Eq known e.items (c.ev.datum user e) (c.ev'.datum user e)
  | .point location => by
    rw [Evaluation.datum, Evaluation.datum]
    exact (vector_matches known location).lift _
  | .axis origin along => by
    rw [Evaluation.datum, Evaluation.datum]
    refine (vector_matches known origin).bind ?_
    rintro o _ rfl
    refine (vector_matches [] along).map ?_
    rintro d _ rfl
    exact (direction_matches user _ d []).lift _
  | .plane origin normal => by
    rw [Evaluation.datum, Evaluation.datum]
    refine (vector_matches known origin).bind ?_
    rintro o _ rfl
    refine (vector_matches [] normal).map ?_
    rintro n _ rfl
    exact (direction_matches user _ n []).lift _
  | .symbol name => by
    rw [Evaluation.datum, Evaluation.datum]
    refine bound_matches hc user name .datum known List.mem_cons_self fun b hb hb' => ?_
    cases hv : b.value with
    | datum value => exact .demand (.datum hb hv) (.datum hb' hv) fun a a' ha => .done ha
    | _ => exact .stop rfl (.mismatch hb hv nofun List.mem_cons_self)

end

/-! ## Selections -/

omit hc in
theorem combine_matches (op : IdSet → IdSet → IdSet) {s s' t t' : Selection}
    (hs : s.Related c.B s') (ht : t.Related c.B t') (known : List StructuralHash) :
    Matches c user (Selection.Related c.B) known [] (combine op s t) (combine op s' t') := by
  have hcond : (s.source = t.source ∧ s.kind = t.kind) ↔
      (s'.source = t'.source ∧ s'.kind = t'.kind) := by
    rw [hs.source, hs.kind, ht.source, ht.kind]
  unfold combine
  by_cases h : s.source = t.source ∧ s.kind = t.kind
  · rw [if_pos h, if_pos (hcond.mp h)]
    refine .done ⟨hs.source, hs.sourceLabel, hs.kind, ?_, hs.shape⟩
    show op s.ids t.ids = op s'.ids t'.ids
    rw [hs.ids, ht.ids]
  · rw [if_neg h, if_neg (mt hcond.mpr h)]
    exact .stop rfl ⟨nofun, nofun⟩

theorem query_matches (kind : EntityKind) (feature : FeatureRef) (filter : String)
    (known : List StructuralHash) :
    Matches c user (Selection.Related c.B) known [.identity feature, .result feature]
      (c.ev.query user kind feature filter) (c.ev'.query user kind feature filter) := by
  unfold query
  refine Matches.bind (resolve_matches hc user feature known) ?_
  rintro x _ ⟨rfl, ht, ht'⟩
  refine (buildBelow_matches hc user ht ht' x.path []).map ?_
  intro shape shape' hshape
  rw [hc.select hshape kind filter]
  cases c.ev'.backend.select shape' kind filter with
  | error source => exact .stop rfl ⟨nofun, nofun⟩
  | ok ids => exact .done ⟨rfl, rfl, rfl, rfl, hshape⟩

theorem selection_matches (known : List StructuralHash) : (e : SelectionExpr) →
    Matches c user (Selection.Related c.B) known e.items (c.ev.selection user e)
      (c.ev'.selection user e)
  | .query kind feature filter => query_matches hc user kind feature filter known
  | .union left right => by
    refine (selection_matches known left).bind fun s s' hs => ?_
    refine (selection_matches [] right).map fun t t' ht => ?_
    exact combine_matches user _ hs ht []
  | .difference left right => by
    refine (selection_matches known left).bind fun s s' hs => ?_
    refine (selection_matches [] right).map fun t t' ht => ?_
    exact combine_matches user _ hs ht []
  | .symbol name => by
    refine bound_matches hc user name .selection known List.mem_cons_self fun b hb hb' => ?_
    cases hv : b.value with
    | selection value =>
      exact .demand (.selection hb hv) (.selection hb' hv) fun a a' ha => .done ha
    | _ => exact .stop rfl (.mismatch hb hv nofun List.mem_cons_self)

/-! ## Arguments -/

theorem argument_matches (known : List StructuralHash) (a : Argument) :
    Matches c user (ResolvedArgument.Related c.B) known a.items (c.ev.argument user a)
      (c.ev'.argument user a) := by
  unfold argument
  cases a with
  | scalar value =>
    refine (scalar_matches hc user known value).map ?_
    rintro x _ rfl
    exact .done (.scalar x)
  | vector value =>
    refine (vector_matches hc user known value).map ?_
    rintro v _ rfl
    exact .done (.vector v)
  | datum value =>
    refine (datum_matches hc user known value).map ?_
    rintro d _ rfl
    exact .done (.datum d)
  | feature value =>
    refine (resolve_matches hc user value known).map ?_
    rintro r _ ⟨rfl, -, -⟩
    exact .done (.feature r)
  | selection value =>
    refine (selection_matches hc user known value).map fun t t' ht => ?_
    exact .done (.selection ht)
  | keyword word => exact .done (.keyword word)

theorem argumentList_matches (known : List StructuralHash) (as : List Argument) :
    Matches c user (List.Forall₂ (ResolvedArgument.Related c.B)) known (Argument.itemsIn as)
      (c.ev.argumentList user as) (c.ev'.argumentList user as) := by
  induction as generalizing known with
  | nil => exact .done .nil
  | cons a rest ih =>
    refine (argument_matches hc user known a).bind fun x x' hx => ?_
    refine (ih []).map fun xs xs' hxs => ?_
    exact .done (.cons hx hxs)

omit user in
/-- The arguments of a construction keep step. -/
theorem arguments_matches (f : Feature) (known : List StructuralHash) :
    Matches c (some f.label) (List.Forall₂ (ResolvedArgument.Related c.B)) known f.items
      (c.ev.arguments f) (c.ev'.arguments f) :=
  argumentList_matches hc (some f.label) known f.arguments

/-! ## Inputs -/

omit hc in
/-- The items of the inputs of a build: the features among the evaluated arguments. -/
def inputItems : List ResolvedArgument → List Item
  | [] => []
  | .feature value :: rest => .result (.inline value.root) :: inputItems rest
  | _ :: rest => inputItems rest

theorem input_matches {a a' : ResolvedArgument} (h : a.Related c.B a')
    (known : List StructuralHash) :
    Matches c user (Input.Related c.B) known (inputItems [a]) (input user a) (input user a') := by
  cases h with
  | scalar value => exact .done (.scalar value)
  | vector value => exact .done (.vector value)
  | datum value => exact .done (.datum value)
  | keyword word => exact .done (.keyword word)
  | selection ht => exact .done (.selection ht)
  | feature value =>
    have hroot : ∀ M : Model, M.target (.inline value.root) = .ok (value.root, []) := fun _ => rfl
    exact (buildBelow_matches hc user (hroot _) (hroot _) value.path known).map
      fun x x' hx => .done (.shape hx)

theorem inputs_matches {args args' : List ResolvedArgument}
    (h : List.Forall₂ (ResolvedArgument.Related c.B) args args') (known : List StructuralHash) :
    Matches c user (List.Forall₂ (Input.Related c.B)) known (inputItems args)
      (inputs user args) (inputs user args') := by
  induction h generalizing known with
  | nil => exact .done .nil
  | @cons a a' rest rest' ha _ ih =>
    have hitems : inputItems (a :: rest) = inputItems [a] ++ inputItems rest := by
      cases a <;> rfl
    rw [hitems]
    refine (input_matches hc user ha known).bind fun x x' hx => ?_
    exact (ih []).map fun others others' hothers => .done (.cons hx hothers)

end Evaluation

end PartScript
