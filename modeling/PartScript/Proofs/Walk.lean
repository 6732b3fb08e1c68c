/-
  Walks: a plan asks for items in order. Every demand that it makes is made for one of them,
  and a plan that is carried out to its end has made a demand for each. The constructions
  that any evaluation meets belong to a closed collection.
-/
import PartScript.Proofs.Lockstep

namespace PartScript

/-! ## One plan by itself -/

/-- A plan that asks for items in order while the arguments of `user` are evaluated. What is
described on the way refers to identities that are `known`, and the items explain why it
stops. -/
inductive Plan.Walks (M : Model) (user : Option String) {α : Type} :
    List StructuralHash → List Item → Plan α → Prop where
  | done {known a} : Walks M user known [] (.done a)
  | stop {known items e} : M.Explains items e → Walks M user known items (.stop e)
  | demand {known item items} {d : Demand} {reported : Option String} {next} :
      item.Makes M user d → (∀ a, Walks M user (d.learn a ++ known) items (next a)) →
      Walks M user known (item :: items) (.demand d reported next)
  | identify {known items} {d : Description} {next} : d.refs ⊆ known →
      (∀ h, Walks M user known items (next h)) → Walks M user known items (.identify d next)

/-- An evaluation beside itself. -/
def Pairing.same (ev : Evaluation) : Pairing := ⟨ev, ev, False, Eq⟩

theorem Pairing.same_sound (ev : Evaluation) : (Pairing.same ev).Sound where
  congruence := .eq
  select := by
    rintro r _ rfl kind filter
    rfl
  names := .inl rfl

theorem Plan.Matches.walks {ev : Evaluation} {user : Option String} {α : Type}
    {R : α → α → Prop} {known : List StructuralHash} {items : List Item} {p p' : Plan α}
    (h : Matches (.same ev) user R known items p p') : p.Walks ev.model user known items := by
  induction h with
  | done h => exact .done
  | stop _ hexplained => exact .stop hexplained
  | unbound hl h => exact hl.elim
  | demand hm _ _ ih => exact .demand hm fun a => ih a a (.refl (fun _ => rfl) _ a)
  | identify hr _ ih => exact .identify hr ih

namespace Evaluation

variable (ev : Evaluation) (user : Option String) (known : List StructuralHash)

theorem scalar_walks (e : ScalarExpr) : (ev.scalar user e).Walks ev.model user known e.items :=
  (scalar_matches (Pairing.same_sound ev) user known e).walks

theorem vector_walks (e : VectorExpr) : (ev.vector user e).Walks ev.model user known e.items :=
  (vector_matches (Pairing.same_sound ev) user known e).walks

theorem datum_walks (e : DatumExpr) : (ev.datum user e).Walks ev.model user known e.items :=
  (datum_matches (Pairing.same_sound ev) user known e).walks

theorem selection_walks (e : SelectionExpr) :
    (ev.selection user e).Walks ev.model user known e.items :=
  (selection_matches (Pairing.same_sound ev) user known e).walks

theorem resolve_walks (r : FeatureRef) :
    (ev.resolve user r).Walks ev.model user known [.identity r] :=
  (resolve_matches (Pairing.same_sound ev) user r known).walks

theorem buildReference_walks (r : FeatureRef) :
    (ev.buildReference user r).Walks ev.model user known [.result r] :=
  (buildReference_matches (Pairing.same_sound ev) user r known).walks

theorem arguments_walks (f : Feature) :
    (ev.arguments f).Walks ev.model (some f.label) known f.items :=
  (arguments_matches (Pairing.same_sound ev) f known).walks

end Evaluation

namespace Evaluation

theorem inputs_walks (ev : Evaluation) (user : Option String) (args : List ResolvedArgument)
    (known : List StructuralHash) :
    (inputs user args).Walks ev.model user known (inputItems args) := by
  have hself : List.Forall₂ (ResolvedArgument.Related Eq) args args :=
    List.forall₂_same.mpr fun a _ => .refl (fun _ => rfl) a
  exact (inputs_matches (Pairing.same_sound ev) user hself known).walks

/-- The inputs of a build ask for the results of the features among the evaluated
arguments. -/
theorem mem_inputItems {args : List ResolvedArgument} {item : Item} (h : item ∈ inputItems args) :
    ∃ value, ResolvedArgument.feature value ∈ args ∧ item = .result (.inline value.root) := by
  induction args with
  | nil => cases h
  | cons a rest ih =>
    have hrest : item ∈ inputItems rest → ∃ value,
        ResolvedArgument.feature value ∈ a :: rest ∧ item = .result (.inline value.root) := by
      intro h
      obtain ⟨value, hmem, heq⟩ := ih h
      exact ⟨value, List.mem_cons_of_mem a hmem, heq⟩
    cases a with
    | feature value =>
      rcases List.mem_cons.mp h with heq | h
      · exact ⟨value, List.mem_cons_self, heq⟩
      · exact hrest h
    | _ => exact hrest h

end Evaluation

/-! ## The constructions that are met -/

/-- The constructions written in what an item asks for. -/
def Item.constructions : Item → List Feature
  | symbol _ _ => []
  | identity r => r.constructions
  | result r => r.constructions

/-- The constructions written in what is demanded. -/
def Demand.constructions : Demand → List Feature
  | scalar _ value => value.constructions
  | vector _ value => value.constructions
  | datum _ value => value.constructions
  | selection _ value => value.constructions
  | hash f => f.constructions
  | build f => f.constructions

/-- What the items ask for is written with certain constructions only. -/
def ItemsWithin (fs : List Feature) (items : List Item) : Prop :=
  ∀ item ∈ items, item.constructions ⊆ fs

namespace ItemsWithin

variable {fs gs : List Feature} {items items' : List Item}

theorem nil (fs : List Feature) : ItemsWithin fs [] := by simp [ItemsWithin]

theorem append (h : ItemsWithin fs items) (h' : ItemsWithin gs items') :
    ItemsWithin (fs ++ gs) (items ++ items') := by
  intro item hitem
  rcases List.mem_append.mp hitem with hitem | hitem
  · exact List.Subset.trans (h item hitem) (List.subset_append_left fs gs)
  · exact List.Subset.trans (h' item hitem) (List.subset_append_right fs gs)

theorem mono (h : ItemsWithin fs items) (hsub : fs ⊆ gs) : ItemsWithin gs items :=
  fun item hitem => List.Subset.trans (h item hitem) hsub

theorem single {item : Item} (h : item.constructions ⊆ fs) : ItemsWithin fs [item] := by
  simpa [ItemsWithin] using h

end ItemsWithin

mutual

theorem ScalarExpr.items_within : (e : ScalarExpr) → ItemsWithin e.constructions e.items
  | .literal _ => .nil _
  | .symbol _ => .single (List.Subset.refl _)
  | .neg operand => operand.items_within
  | .binary _ left right => left.items_within.append right.items_within
  | .call _ operand => operand.items_within
  | .dot left right => left.items_within.append right.items_within
  | .magnitude operand => operand.items_within
  | .component operand _ => operand.items_within
  | .value _ _ => .single (List.Subset.refl _)

theorem VectorExpr.items_within : (e : VectorExpr) → ItemsWithin e.constructions e.items
  | .literal x y z => x.items_within.append (y.items_within.append z.items_within)
  | .symbol _ => .single (List.Subset.refl _)
  | .neg operand => operand.items_within
  | .add left right => left.items_within.append right.items_within
  | .sub left right => left.items_within.append right.items_within
  | .scale operand factor => operand.items_within.append factor.items_within
  | .divide operand divisor => operand.items_within.append divisor.items_within
  | .cross left right => left.items_within.append right.items_within
  | .normalize operand => operand.items_within
  | .point _ _ => .single (List.Subset.refl _)
  | .part datum _ => datum.items_within

theorem DatumExpr.items_within : (e : DatumExpr) → ItemsWithin e.constructions e.items
  | .point location => location.items_within
  | .axis origin direction => origin.items_within.append direction.items_within
  | .plane origin normal => origin.items_within.append normal.items_within
  | .symbol _ => .single (List.Subset.refl _)

end

theorem SelectionExpr.items_within : (e : SelectionExpr) → ItemsWithin e.constructions e.items
  | .query _ feature _ => by
    intro item hitem
    rcases List.mem_cons.mp hitem with rfl | hitem
    · exact List.Subset.refl _
    · obtain rfl := List.mem_singleton.mp hitem
      exact List.Subset.refl _
  | .union left right => left.items_within.append right.items_within
  | .difference left right => left.items_within.append right.items_within
  | .symbol _ => .single (List.Subset.refl _)

theorem Argument.items_within (a : Argument) : ItemsWithin a.constructions a.items := by
  cases a with
  | scalar value => exact value.items_within
  | vector value => exact value.items_within
  | datum value => exact value.items_within
  | feature value => exact .single (List.Subset.refl _)
  | selection value => exact value.items_within
  | keyword word => exact .nil _

theorem Argument.itemsIn_within (as : List Argument) :
    ItemsWithin (Argument.constructionsIn as) (Argument.itemsIn as) := by
  induction as with
  | nil => exact .nil _
  | cons a rest ih => exact a.items_within.append ih

theorem BoundValue.items_within (v : BoundValue) : ItemsWithin v.constructions v.items := by
  cases v with
  | scalar value => exact value.items_within
  | vector value => exact value.items_within
  | datum value => exact value.items_within
  | feature value => exact .nil _
  | selection value => exact value.items_within

/-- A construction, and those in its arguments. -/
theorem Feature.constructions_eq (f : Feature) :
    f.constructions = f :: Argument.constructionsIn f.arguments := by
  cases f
  rfl

theorem Feature.mem_constructions (f : Feature) : f ∈ f.constructions := by
  rw [f.constructions_eq]
  exact List.mem_cons_self

/-- A collection of constructions with all that is written in their arguments and in the
model, in which origins tell constructions apart. -/
structure Closed (M : Model) (fs : List Feature) : Prop where
  bindings : ∀ b ∈ M.bindings, b.value.constructions ⊆ fs
  arguments : ∀ f ∈ fs, Argument.constructionsIn f.arguments ⊆ fs
  unique : ∀ f ∈ fs, ∀ g ∈ fs, f.origin = g.origin → f = g

namespace Closed

variable {M : Model} {fs : List Feature}

theorem constructions (h : Closed M fs) {f : Feature} (hf : f ∈ fs) : f.constructions ⊆ fs := by
  rw [f.constructions_eq]
  exact List.cons_subset.mpr ⟨hf, h.arguments f hf⟩

theorem items (h : Closed M fs) {f : Feature} (hf : f ∈ fs) : ItemsWithin fs f.items :=
  (Argument.itemsIn_within f.arguments).mono (h.arguments f hf)

theorem target (h : Closed M fs) {r : FeatureRef} (hr : r.constructions ⊆ fs) {root : Feature}
    {path : List String} (ht : M.target r = .ok (root, path)) : root ∈ fs := by
  rcases Model.target_root ht with hroot | ⟨b, hb, hroot⟩
  · exact hr hroot
  · exact h.bindings b hb hroot

/-- What an item within a closed collection demands is within it. -/
theorem makes (h : Closed M fs) {user : Option String} {item : Item} {d : Demand}
    (hitem : item.constructions ⊆ fs) (hm : item.Makes M user d) : d.constructions ⊆ fs := by
  cases hm with
  | identity ht => exact h.constructions (h.target hitem ht)
  | result ht => exact h.constructions (h.target hitem ht)
  | scalar hb hv | vector hb hv | datum hb hv | selection hb hv =>
    have hsub := h.bindings _ (Model.mem_of_binding? hb).1
    rw [hv] at hsub
    exact hsub

end Closed

end PartScript
