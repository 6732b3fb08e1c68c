/-
  What an identity needs to be built. A construction is identified with the constructions that it
  takes as arguments, and those with theirs; of these none is built for it. But an argument that reads
  a value or a point of a construction, or picks from one, needs the result of that one, and a result
  needs all that the construction depends on. Every demand that is made on the way is for one of
  these, and so is every construction that is built.
-/
import PartScript.Proofs.Calls

namespace PartScript

open Relation

namespace Model

/-! ## Arguments and readings -/

/-- A construction takes another one as an argument, by itself or as a sub-result of it. -/
def Takes (M : Model) (f g : Feature) : Prop :=
  ∃ r path, Argument.feature r ∈ f.arguments ∧ M.target r = .ok (g, path)

/-- The result of a reference is among the items, or among those of a name that they follow. -/
inductive Inspects (M : Model) : List Item → FeatureRef → Prop where
  | result {items r} : Item.result r ∈ items → Inspects M items r
  | symbol {items kind name b r} : Item.symbol kind name ∈ items → M.binding? name = some b →
      b.value.kind = kind → Inspects M b.value.items r → Inspects M items r

/-- The items read a construction: a value of it, a point of it or what is picked from it. -/
def Reads (M : Model) (items : List Item) (g : Feature) : Prop :=
  ∃ r path, M.Inspects items r ∧ M.target r = .ok (g, path)

/-- A construction is what the reference designates, or is taken as an argument by one that is
identified with it. -/
def IdentifiedWith (M : Model) (r : FeatureRef) (f : Feature) : Prop :=
  ∃ root path, M.target r = .ok (root, path) ∧ ReflTransGen M.Takes root f

/-- The identity of what the reference designates needs the result of a construction: one that is
identified with it reads it, or reads another that depends on it. -/
def Needs (M : Model) (r : FeatureRef) (h : Feature) : Prop :=
  ∃ f g, M.IdentifiedWith r f ∧ M.Reads f.items g ∧ ReflTransGen M.DependsOn g h

variable {M : Model} {r : FeatureRef} {f g h : Feature} {items more : List Item}

theorem Inspects.mono (hr : M.Inspects items r) (hsub : items ⊆ more) : M.Inspects more r := by
  cases hr with
  | result hr => exact .result (hsub hr)
  | symbol hname hb hkind hr => exact .symbol (hsub hname) hb hkind hr

theorem Reads.mono (hg : M.Reads items g) (hsub : items ⊆ more) : M.Reads more g := by
  obtain ⟨r, path, hr, ht⟩ := hg
  exact ⟨r, path, hr.mono hsub, ht⟩

theorem Reaches.mono (hg : M.Reaches items g) (hsub : items ⊆ more) : M.Reaches more g := by
  obtain ⟨r, path, hr, ht⟩ := hg
  exact ⟨r, path, hr.mono hsub, ht⟩

theorem Reaches.of_item {item : Item} (hg : M.Reaches [item] g) (hitem : item ∈ items) :
    M.Reaches items g :=
  hg.mono (List.cons_subset.mpr ⟨hitem, List.nil_subset _⟩)

theorem IdentifiedWith.takes (hf : M.IdentifiedWith r f) (hg : M.Takes f g) : M.IdentifiedWith r g := by
  obtain ⟨root, path, ht, hroot⟩ := hf
  exact ⟨root, path, ht, hroot.tail hg⟩

theorem Needs.depends (hg : M.Needs r g) (hh : M.DependsOn g h) : M.Needs r h := by
  obtain ⟨f, k, hf, hk, hdepends⟩ := hg
  exact ⟨f, k, hf, hk, hdepends.tail hh⟩

/-! ## Readings in expressions -/

/-- Nothing is identified but what is built as well. -/
def Paired (items : List Item) : Prop := ∀ r, Item.identity r ∈ items → Item.result r ∈ items

namespace Paired

variable {items items' : List Item}

theorem nil : Paired [] := nofun

theorem symbol (kind : SymbolKind) (name : String) : Paired [.symbol kind name] := by simp [Paired]

theorem result (r : FeatureRef) : Paired [.result r] := by simp [Paired]

theorem append (h : Paired items) (h' : Paired items') : Paired (items ++ items') := by
  intro r hr
  rcases List.mem_append.mp hr with hr | hr
  · exact List.mem_append_left _ (h r hr)
  · exact List.mem_append_right _ (h' r hr)

end Paired

end Model

open Model (Paired)

mutual

theorem ScalarExpr.items_paired : (e : ScalarExpr) → Paired e.items
  | .literal _ => .nil
  | .symbol _ => .symbol _ _
  | .neg operand => operand.items_paired
  | .binary _ left right => left.items_paired.append right.items_paired
  | .call _ operand => operand.items_paired
  | .dot left right => left.items_paired.append right.items_paired
  | .magnitude operand => operand.items_paired
  | .component operand _ => operand.items_paired
  | .value _ _ => .result _

theorem VectorExpr.items_paired : (e : VectorExpr) → Paired e.items
  | .literal x y z => x.items_paired.append (y.items_paired.append z.items_paired)
  | .symbol _ => .symbol _ _
  | .neg operand => operand.items_paired
  | .add left right => left.items_paired.append right.items_paired
  | .sub left right => left.items_paired.append right.items_paired
  | .scale operand factor => operand.items_paired.append factor.items_paired
  | .divide operand divisor => operand.items_paired.append divisor.items_paired
  | .cross left right => left.items_paired.append right.items_paired
  | .normalize operand => operand.items_paired
  | .point _ _ => .result _
  | .part datum _ => datum.items_paired

theorem DatumExpr.items_paired : (e : DatumExpr) → Paired e.items
  | .point location => location.items_paired
  | .axis origin along => origin.items_paired.append along.items_paired
  | .plane origin normal => origin.items_paired.append normal.items_paired
  | .symbol _ => .symbol _ _

end

theorem SelectionExpr.items_paired (e : SelectionExpr) : Paired e.items := by
  cases e with
  | query kind feature filter => simp [Paired, items]
  | union left right => exact left.items_paired.append right.items_paired
  | difference left right => exact left.items_paired.append right.items_paired
  | symbol name => exact .symbol _ _

theorem BoundValue.items_paired (v : BoundValue) : Paired v.items := by
  cases v with
  | scalar value => exact value.items_paired
  | vector value => exact value.items_paired
  | datum value => exact value.items_paired
  | feature value => exact .nil
  | selection value => exact value.items_paired

theorem Argument.items_subset {a : Argument} {as : List Argument} (h : a ∈ as) :
    a.items ⊆ Argument.itemsIn as := by
  induction as with
  | nil => cases h
  | cons first rest ih =>
    rcases List.mem_cons.mp h with rfl | h
    · exact List.subset_append_left _ _
    · exact List.Subset.trans (ih h) (List.subset_append_right _ _)

/-- All items of arguments but those for the features among them are readings. -/
theorem Argument.itemsIn_identity {as : List Argument} {r : FeatureRef}
    (h : Item.identity r ∈ Argument.itemsIn as) :
    Argument.feature r ∈ as ∨ Item.result r ∈ Argument.itemsIn as := by
  have hone : ∀ a : Argument, Item.identity r ∈ a.items → a = .feature r ∨ Item.result r ∈ a.items := by
    intro a ha
    cases a with
    | feature value => exact .inl (by rw [Item.identity.inj (List.mem_singleton.mp ha)])
    | scalar value => exact .inr (value.items_paired r ha)
    | vector value => exact .inr (value.items_paired r ha)
    | datum value => exact .inr (value.items_paired r ha)
    | selection value => exact .inr (value.items_paired r ha)
    | keyword word => cases ha
  induction as with
  | nil => cases h
  | cons a rest ih =>
    rcases List.mem_append.mp h with ha | hrest
    · refine (hone a ha).imp (fun heq => ?_) fun hr => List.mem_append_left _ hr
      exact heq ▸ List.mem_cons_self
    · exact (ih hrest).imp (fun hr => List.mem_cons_of_mem _ hr) fun hr => List.mem_append_right _ hr

namespace Model

variable {M : Model} {r : FeatureRef} {f g : Feature} {items : List Item}

/-- What expressions mention they read. -/
theorem Mentions.inspects (h : M.Mentions items r) (hitems : Paired items) : M.Inspects items r := by
  induction h with
  | identity hr => exact .result (hitems _ hr)
  | result hr => exact .result hr
  | symbol hname hb hkind _ ih => exact .symbol hname hb hkind (ih (BoundValue.items_paired _))

/-- What a construction depends on it takes as an argument, or its arguments read it. -/
theorem DependsOn.cases (h : M.DependsOn f g) : M.Takes f g ∨ M.Reads f.items g := by
  obtain ⟨r, path, hr, ht⟩ := h
  cases hr with
  | identity hr =>
    exact (Argument.itemsIn_identity hr).imp (fun ha => ⟨r, path, ha, ht⟩)
      fun hr => ⟨r, path, .result hr, ht⟩
  | result hr => exact .inr ⟨r, path, .result hr, ht⟩
  | symbol hname hb hkind hr =>
    exact .inr ⟨r, path, .symbol hname hb hkind (hr.inspects (BoundValue.items_paired _)), ht⟩

theorem Takes.depends (h : M.Takes f g) : M.DependsOn f g := by
  obtain ⟨r, path, ha, ht⟩ := h
  exact ⟨r, path, .identity (Argument.items_subset ha List.mem_cons_self), ht⟩

theorem Inspects.mentions (h : M.Inspects items r) : M.Mentions items r := by
  induction h with
  | result hr => exact .result hr
  | symbol hname hb hkind _ ih => exact .symbol hname hb hkind ih

theorem Reads.reaches (h : M.Reads items g) : M.Reaches items g := by
  obtain ⟨r, path, hr, ht⟩ := h
  exact ⟨r, path, hr.mentions, ht⟩

theorem depends_within {fs : List Feature} (hfs : Closed M fs) (hf : f ∈ fs)
    (h : ReflTransGen M.DependsOn f g) : g ∈ fs := by
  induction h with
  | refl => exact hf
  | tail _ hdepends ih => exact hdepends.within hfs (hfs.items ih)

/-- What is needed for what a name designates belongs to every closed collection. -/
theorem Needs.within {fs : List Feature} {name : String} (hfs : Closed M fs)
    (h : M.Needs (.named name) g) : g ∈ fs := by
  obtain ⟨f, k, ⟨root, path, ht, htakes⟩, hreads, hdepends⟩ := h
  have hroot : root ∈ fs := hfs.target (r := .named name) (List.nil_subset fs) ht
  have hf := depends_within hfs hroot (ReflTransGen.mono (fun _ _ => Takes.depends) _ _ htakes)
  exact depends_within hfs (hreads.reaches.within hfs (hfs.items hf)) hdepends

/-! ## Demands on the way -/

/-- The demands that are made for the identity of what the reference designates: to identify a
construction with it, and for all that this needs. -/
def Allows (M : Model) (r : FeatureRef) : Demand → Prop
  | .hash f => M.IdentifiedWith r f ∨ M.Needs r f
  | .build f => M.Needs r f
  | d => ∀ g, M.Reaches d.items g → M.Needs r g

/-- Items that lead to what is needed alone. -/
theorem allows_of_reaches {user : Option String} {d : Demand} {item : Item}
    (hm : item.Makes M user d) (hitem : ∀ g, M.Reaches [item] g → M.Needs r g) : M.Allows r d := by
  have hleads : ∀ g, d.Leads M g → M.Needs r g := fun g hg => hitem g (hm.leads hg)
  cases d with
  | hash f => exact .inr (hleads f rfl)
  | build f => exact hleads f rfl
  | _ => exact hleads

/-- What a value asks for it mentions. -/
theorem Allows.item {d d' : Demand} (hd : M.Allows r d) (hv : d.IsValue) {user : Option String}
    {item : Item} (hitem : item ∈ d.items) (hm : item.Makes M user d') : M.Allows r d' := by
  refine allows_of_reaches hm fun g hg => ?_
  have hreaches := hg.of_item hitem
  cases d with
  | hash f => exact hv.elim
  | build f => exact hv.elim
  | _ => exact hd g hreaches

/-- The arguments of a construction that is needed need what it depends on. -/
theorem Needs.allows (hf : M.Needs r f) {user : Option String} {item : Item} {d : Demand}
    (hitem : item ∈ f.items) (hm : item.Makes M user d) : M.Allows r d :=
  allows_of_reaches hm fun _ hg => hf.depends (hg.of_item hitem)

/-- The arguments of a construction that is identified need what they read. -/
theorem IdentifiedWith.allows (hf : M.IdentifiedWith r f) {user : Option String} {item : Item}
    {d : Demand} (hitem : item ∈ f.items) (hm : item.Makes M user d) : M.Allows r d := by
  have hreads : ∀ {g}, M.Reads f.items g → M.Needs r g := fun hg => ⟨f, _, hf, hg, .refl⟩
  cases hm with
  | @identity reference root path ht =>
    rcases Argument.itemsIn_identity hitem with ha | hr
    · exact .inl (hf.takes ⟨reference, path, ha, ht⟩)
    · exact .inr (hreads ⟨reference, path, .result hr, ht⟩)
  | result ht => exact hreads ⟨_, _, .result hitem, ht⟩
  | scalar hb hv | vector hb hv | datum hb hv | selection hb hv =>
    intro g ⟨reference, path, hr, ht⟩
    refine hreads ⟨reference, path, .symbol hitem hb (congrArg BoundValue.kind hv) ?_, ht⟩
    refine Mentions.inspects ?_ (BoundValue.items_paired _)
    rw [hv]
    exact hr

end Model

/-! ## Identifying what a name designates -/

/-- The first demands are allowed. -/
theorem Evaluation.hashNamed_calls {ev : Evaluation} {name : String} {ask : Answers}
    {s t : BuildState} {d : Demand} (h : (ev.hashNamed name).Calls ask s d t) :
    ev.model.Allows (.named name) d := by
  obtain ⟨item, hitem, hm⟩ := ((Question.hash name).plan_walks ev).call h
  obtain rfl := List.mem_singleton.mp hitem
  cases hm with
  | identity ht => exact .inl ⟨_, _, ht, .refl⟩

/-- The demands on the way make no other demands. -/
theorem Evaluation.Makes.allows {ev : Evaluation} {ask : Answers} {r : FeatureRef} {d d' : Demand}
    {s t : BuildState} (h : ev.Makes ask d s d' t) (hd : ev.model.Allows r d) :
    ev.model.Allows r d' := by
  cases h with
  | value hv hcall =>
    obtain ⟨item, hitem, hm⟩ := (ev.value_walks hv).call hcall
    exact hd.item hv hitem hm
  | @identity f _ _ _ _ _ hcall =>
    obtain ⟨item, hitem, hm⟩ := (ev.arguments_walks [] f).call hcall
    exact hd.elim (fun hf => hf.allows hitem hm) fun hf => hf.allows hitem hm
  | @argument f _ _ _ _ _ hcall =>
    obtain ⟨item, hitem, hm⟩ := (ev.arguments_walks [] f).call hcall
    exact Model.Needs.allows hd hitem hm
  | @input f _ x u _ _ _ hprints _ hcall =>
    obtain ⟨-, -, t0, hrun, -⟩ := hprints.of_ok
    obtain ⟨item, hitem, hm⟩ := (inputs_walks ev (some f.label) x.2 []).call hcall
    exact Model.allows_of_reaches hm fun g hg =>
      Model.Needs.depends hd (inputItems_depend hrun (hg.of_item hitem))

end PartScript
