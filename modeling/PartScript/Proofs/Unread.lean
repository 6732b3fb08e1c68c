/-
  Identities that read nothing, with any backend. An evaluation turns to its backend only to build a
  construction or to pick from one. Where nothing is read it does neither, so that two evaluations
  over one model do the same.
-/
import PartScript.Proofs.Frames
import PartScript.Proofs.Termination

namespace PartScript

open Relation

namespace Evaluation

/-! ## Evaluations over one model -/

section Congruence

variable {ev ev' : Evaluation} (hM : ev'.model = ev.model) (user : Option String)
include hM

theorem resolve_congr (r : FeatureRef) : ev'.resolve user r = ev.resolve user r := by
  rw [resolve, resolve, hM]

theorem buildReference_congr (r : FeatureRef) :
    ev'.buildReference user r = ev.buildReference user r := by
  rw [buildReference, buildReference, hM]

theorem bound_congr (name : String) (kind : SymbolKind) : ev'.bound name kind = ev.bound name kind := by
  rw [bound, bound, hM]

mutual

theorem scalar_congr : (e : ScalarExpr) → ev'.scalar user e = ev.scalar user e
  | .literal value => by rw [scalar, scalar]
  | .symbol name => by rw [scalar, scalar, bound_congr hM]
  | .neg operand => by rw [scalar, scalar, scalar_congr operand]
  | .binary op left right => by rw [scalar, scalar, scalar_congr left, scalar_congr right]
  | .call fn operand => by rw [scalar, scalar, scalar_congr operand]
  | .dot left right => by rw [scalar, scalar, vector_congr left, vector_congr right]
  | .magnitude operand => by rw [scalar, scalar, vector_congr operand]
  | .component operand which => by rw [scalar, scalar, vector_congr operand]
  | .value feature name => by rw [scalar, scalar, buildReference_congr hM]

theorem vector_congr : (e : VectorExpr) → ev'.vector user e = ev.vector user e
  | .literal x y z => by rw [vector, vector, scalar_congr x, scalar_congr y, scalar_congr z]
  | .symbol name => by rw [vector, vector, bound_congr hM]
  | .neg operand => by rw [vector, vector, vector_congr operand]
  | .add left right => by rw [vector, vector, vector_congr left, vector_congr right]
  | .sub left right => by rw [vector, vector, vector_congr left, vector_congr right]
  | .scale operand factor => by rw [vector, vector, vector_congr operand, scalar_congr factor]
  | .divide operand divisor => by rw [vector, vector, vector_congr operand, scalar_congr divisor]
  | .cross left right => by rw [vector, vector, vector_congr left, vector_congr right]
  | .normalize operand => by rw [vector, vector, vector_congr operand]
  | .point feature name => by rw [vector, vector, buildReference_congr hM]
  | .part datum _ => by rw [vector, vector, datum_congr datum]

theorem datum_congr : (e : DatumExpr) → ev'.datum user e = ev.datum user e
  | .point location => by rw [datum, datum, vector_congr location]
  | .axis origin along => by rw [datum, datum, vector_congr origin, vector_congr along]
  | .plane origin normal => by rw [datum, datum, vector_congr origin, vector_congr normal]
  | .symbol name => by rw [datum, datum, bound_congr hM]

end

/-- Where no query leads to a construction, the backend picks nothing. -/
theorem selection_congr : (e : SelectionExpr) → (∀ g, ¬ ev.model.Reaches e.items g) →
    ev'.selection user e = ev.selection user e
  | .query kind feature filter, h => by
    have ht : ∀ root path, ev.model.target feature ≠ .ok (root, path) := fun root path ht =>
      h root ⟨feature, path, .identity List.mem_cons_self, ht⟩
    rw [selection, selection, query, query, resolve_congr hM, resolve]
    cases hfeature : ev.model.target feature with
    | error e => rfl
    | ok t => exact absurd hfeature (ht t.1 t.2)
  | .union left right, h => by
    rw [selection, selection,
      selection_congr left fun g hg => h g (hg.mono (List.subset_append_left _ _)),
      selection_congr right fun g hg => h g (hg.mono (List.subset_append_right _ _))]
  | .difference left right, h => by
    rw [selection, selection,
      selection_congr left fun g hg => h g (hg.mono (List.subset_append_left _ _)),
      selection_congr right fun g hg => h g (hg.mono (List.subset_append_right _ _))]
  | .symbol name, _ => by rw [selection, selection, bound_congr hM]

theorem argumentList_congr (as : List Argument)
    (h : ∀ g, ¬ ev.model.Reads (Argument.itemsIn as) g) :
    ev'.argumentList user as = ev.argumentList user as := by
  induction as with
  | nil => rfl
  | cons a rest ih =>
    have hrest := ih fun g hg => h g (hg.mono (List.subset_append_right _ _))
    have ha : ev'.argument user a = ev.argument user a := by
      cases a with
      | scalar value => rw [argument, argument, scalar_congr hM]
      | vector value => rw [argument, argument, vector_congr hM]
      | datum value => rw [argument, argument, datum_congr hM]
      | feature value => rw [argument, argument, resolve_congr hM]
      | keyword word => rfl
      | selection value =>
        rw [argument, argument, selection_congr hM user value fun g ⟨r, path, hr, ht⟩ => ?_]
        refine h g ⟨r, path, Model.Inspects.mono ?_ (List.subset_append_left _ _), ht⟩
        exact hr.inspects value.items_paired
    rw [argumentList, argumentList, ha, hrest]

/-- Where nothing is read, answers depend neither on the backend nor on whether its answers are
cached. -/
theorem answer_congr {r : FeatureRef} (hunread : ∀ g, ¬ ev.model.Needs r g) (n : Nat) (d : Demand)
    (s : BuildState) (hd : ev.model.Allows r d) : ev'.answer n d s = ev.answer n d s := by
  induction n generalizing d s with
  | zero => rfl
  | succ n ih =>
    have hover : ∀ ask : Answers, ev'.answerOver ask d = ev.answerOver ask d := by
      intro ask
      cases d with
      | scalar user value => exact congrArg (Plan.run ask) (scalar_congr hM user value)
      | vector user value => exact congrArg (Plan.run ask) (vector_congr hM user value)
      | datum user value => exact congrArg (Plan.run ask) (datum_congr hM user value)
      | selection user value =>
        exact congrArg (Plan.run ask) (selection_congr hM user value fun g hg => hunread g (hd g hg))
      | build f => exact absurd hd (hunread f)
      | hash f =>
        have hf := hd.resolve_right (hunread f)
        have harguments : ev'.arguments f = ev.arguments f :=
          argumentList_congr hM _ _ fun g hg => hunread g ⟨f, g, hf, hg, .refl⟩
        show ev'.hashOver ask f = ev.hashOver ask f
        unfold hashOver fingerprint
        rw [harguments]
    show ev'.answerOver (ev'.answer n) d s = ev.answerOver (ev.answer n) d s
    rw [hover]
    exact answerOver_congr d fun d' t hmakes => ih d' t (hmakes.allows hd)

theorem hashNamed_congr {name : String} (hunread : ∀ g, ¬ ev.model.Needs (.named name) g) (n : Nat)
    (s : BuildState) :
    (ev'.hashNamed name).run (ev'.answer n) s = (ev.hashNamed name).run (ev.answer n) s := by
  rw [show ev'.hashNamed name = ev.hashNamed name by rw [hashNamed, hashNamed, resolve_congr hM]]
  exact Plan.run_congr fun d t hcall => answer_congr hM hunread n d t (hashNamed_calls hcall)

end Congruence

end Evaluation

end PartScript
