/-
  Places leave no trace in answers. What is the same but for its places says the same, so two models
  that are the same but for their places give the same answers to every question about a name: what
  matters of a text is what it says, and not where it says so.
-/
import PartScript.Proofs.Moved
import PartScript.Proofs.Naming

namespace PartScript

/-! ## Trees that are the same but for their places -/

/-- Two models in which every name stands for the same. -/
def Rewording.same (M M' : Model) : Rewording := ⟨M, M', Eq⟩

section Moved

variable {f : Origin → Origin} {M M' : Model}

mutual

theorem ScalarExpr.reworded_of_moved : (e e' : ScalarExpr) → e.moved f = e'.moved f → e.Reworded (.same M M') e'
  | .literal value, e', h => by
    cases e' <;> simp only [ScalarExpr.moved, reduceCtorEq, ScalarExpr.literal.injEq] at h
    exact h ▸ .literal value
  | .symbol name, e', h => by
    cases e' <;> simp only [ScalarExpr.moved, reduceCtorEq, ScalarExpr.symbol.injEq] at h
    exact h ▸ .renamed rfl
  | .neg operand, e', h => by
    cases e' <;> simp only [ScalarExpr.moved, reduceCtorEq, ScalarExpr.neg.injEq] at h
    exact .neg (operand.reworded_of_moved _ h)
  | .binary op left right, e', h => by
    cases e' <;> simp only [ScalarExpr.moved, reduceCtorEq, ScalarExpr.binary.injEq] at h
    obtain ⟨rfl, hl, hr⟩ := h
    exact .binary op (left.reworded_of_moved _ hl) (right.reworded_of_moved _ hr)
  | .call fn operand, e', h => by
    cases e' <;> simp only [ScalarExpr.moved, reduceCtorEq, ScalarExpr.call.injEq] at h
    obtain ⟨rfl, h⟩ := h
    exact .call fn (operand.reworded_of_moved _ h)
  | .dot left right, e', h => by
    cases e' <;> simp only [ScalarExpr.moved, reduceCtorEq, ScalarExpr.dot.injEq] at h
    exact .dot (left.reworded_of_moved _ h.1) (right.reworded_of_moved _ h.2)
  | .magnitude operand, e', h => by
    cases e' <;> simp only [ScalarExpr.moved, reduceCtorEq, ScalarExpr.magnitude.injEq] at h
    exact .magnitude (operand.reworded_of_moved _ h)
  | .component operand which, e', h => by
    cases e' <;> simp only [ScalarExpr.moved, reduceCtorEq, ScalarExpr.component.injEq] at h
    obtain ⟨h, rfl⟩ := h
    exact .component which (operand.reworded_of_moved _ h)
  | .value feature name, e', h => by
    cases e' <;> simp only [ScalarExpr.moved, reduceCtorEq, ScalarExpr.value.injEq] at h
    obtain ⟨h, rfl⟩ := h
    exact .value name (feature.reworded_of_moved _ h)

theorem VectorExpr.reworded_of_moved : (e e' : VectorExpr) → e.moved f = e'.moved f → e.Reworded (.same M M') e'
  | .literal x y z, e', h => by
    cases e' <;> simp only [VectorExpr.moved, reduceCtorEq, VectorExpr.literal.injEq] at h
    exact .literal (x.reworded_of_moved _ h.1) (y.reworded_of_moved _ h.2.1)
      (z.reworded_of_moved _ h.2.2)
  | .symbol name, e', h => by
    cases e' <;> simp only [VectorExpr.moved, reduceCtorEq, VectorExpr.symbol.injEq] at h
    exact h ▸ .renamed rfl
  | .neg operand, e', h => by
    cases e' <;> simp only [VectorExpr.moved, reduceCtorEq, VectorExpr.neg.injEq] at h
    exact .neg (operand.reworded_of_moved _ h)
  | .add left right, e', h => by
    cases e' <;> simp only [VectorExpr.moved, reduceCtorEq, VectorExpr.add.injEq] at h
    exact .add (left.reworded_of_moved _ h.1) (right.reworded_of_moved _ h.2)
  | .sub left right, e', h => by
    cases e' <;> simp only [VectorExpr.moved, reduceCtorEq, VectorExpr.sub.injEq] at h
    exact .sub (left.reworded_of_moved _ h.1) (right.reworded_of_moved _ h.2)
  | .scale operand factor, e', h => by
    cases e' <;> simp only [VectorExpr.moved, reduceCtorEq, VectorExpr.scale.injEq] at h
    exact .scale (operand.reworded_of_moved _ h.1) (factor.reworded_of_moved _ h.2)
  | .divide operand divisor, e', h => by
    cases e' <;> simp only [VectorExpr.moved, reduceCtorEq, VectorExpr.divide.injEq] at h
    exact .divide (operand.reworded_of_moved _ h.1) (divisor.reworded_of_moved _ h.2)
  | .cross left right, e', h => by
    cases e' <;> simp only [VectorExpr.moved, reduceCtorEq, VectorExpr.cross.injEq] at h
    exact .cross (left.reworded_of_moved _ h.1) (right.reworded_of_moved _ h.2)
  | .normalize operand, e', h => by
    cases e' <;> simp only [VectorExpr.moved, reduceCtorEq, VectorExpr.normalize.injEq] at h
    exact .normalize (operand.reworded_of_moved _ h)
  | .point feature name, e', h => by
    cases e' <;> simp only [VectorExpr.moved, reduceCtorEq, VectorExpr.point.injEq] at h
    obtain ⟨h, rfl⟩ := h
    exact .point name (feature.reworded_of_moved _ h)
  | .part datum part, e', h => by
    cases e' <;> simp only [VectorExpr.moved, reduceCtorEq, VectorExpr.part.injEq] at h
    obtain ⟨h, rfl⟩ := h
    exact .part part (datum.reworded_of_moved _ h)

theorem DatumExpr.reworded_of_moved : (e e' : DatumExpr) → e.moved f = e'.moved f → e.Reworded (.same M M') e'
  | .point location, e', h => by
    cases e' <;> simp only [DatumExpr.moved, reduceCtorEq, DatumExpr.point.injEq] at h
    exact .point (location.reworded_of_moved _ h)
  | .axis origin direction, e', h => by
    cases e' <;> simp only [DatumExpr.moved, reduceCtorEq, DatumExpr.axis.injEq] at h
    exact .axis (origin.reworded_of_moved _ h.1) (direction.reworded_of_moved _ h.2)
  | .plane origin normal, e', h => by
    cases e' <;> simp only [DatumExpr.moved, reduceCtorEq, DatumExpr.plane.injEq] at h
    exact .plane (origin.reworded_of_moved _ h.1) (normal.reworded_of_moved _ h.2)
  | .symbol name, e', h => by
    cases e' <;> simp only [DatumExpr.moved, reduceCtorEq, DatumExpr.symbol.injEq] at h
    exact h ▸ .renamed rfl

theorem SelectionExpr.reworded_of_moved :
    (e e' : SelectionExpr) → e.moved f = e'.moved f → e.Reworded (.same M M') e'
  | .query kind feature filter, e', h => by
    cases e' <;> simp only [SelectionExpr.moved, reduceCtorEq, SelectionExpr.query.injEq] at h
    obtain ⟨rfl, h, rfl⟩ := h
    exact .query kind filter (feature.reworded_of_moved _ h)
  | .union left right, e', h => by
    cases e' <;> simp only [SelectionExpr.moved, reduceCtorEq, SelectionExpr.union.injEq] at h
    exact .union (left.reworded_of_moved _ h.1) (right.reworded_of_moved _ h.2)
  | .difference left right, e', h => by
    cases e' <;> simp only [SelectionExpr.moved, reduceCtorEq, SelectionExpr.difference.injEq] at h
    exact .difference (left.reworded_of_moved _ h.1) (right.reworded_of_moved _ h.2)
  | .symbol name, e', h => by
    cases e' <;> simp only [SelectionExpr.moved, reduceCtorEq, SelectionExpr.symbol.injEq] at h
    exact h ▸ .renamed rfl

theorem FeatureRef.reworded_of_moved : (r r' : FeatureRef) → r.moved f = r'.moved f → r.Reworded (.same M M') r'
  | .named name, r', h => by
    cases r' <;> simp only [FeatureRef.moved, reduceCtorEq, FeatureRef.named.injEq] at h
    exact h ▸ .renamed rfl
  | .inline feature, r', h => by
    cases r' <;> simp only [FeatureRef.moved, reduceCtorEq, FeatureRef.inline.injEq] at h
    exact .inline (feature.reworded_of_moved _ h)
  | .sub base name, r', h => by
    cases r' <;> simp only [FeatureRef.moved, reduceCtorEq, FeatureRef.sub.injEq] at h
    obtain ⟨h, rfl⟩ := h
    exact .sub name (base.reworded_of_moved _ h)

theorem Feature.reworded_of_moved : (x x' : Feature) → x.moved f = x'.moved f → x.Reworded (.same M M') x'
  | .construct typeName signature arguments _ _, .construct _ _ arguments' _ _, h => by
    simp only [Feature.moved, Feature.construct.injEq] at h
    obtain ⟨rfl, rfl, h, -, -⟩ := h
    exact .construct _ _ _ _ _ _ (Argument.rewordedAll_of_moved arguments arguments' h)

theorem Argument.rewordedAll_of_moved : (as as' : List Argument) →
    Argument.movedAll f as = Argument.movedAll f as' → Argument.RewordedAll (.same M M') as as'
  | [], as', h => by
    cases as' <;> simp only [Argument.movedAll, reduceCtorEq] at h
    exact .nil
  | a :: as, as', h => by
    cases as' <;> simp only [Argument.movedAll, reduceCtorEq, List.cons.injEq] at h
    exact .cons (a.reworded_of_moved _ h.1) (Argument.rewordedAll_of_moved as _ h.2)

theorem Argument.reworded_of_moved : (a a' : Argument) → a.moved f = a'.moved f → a.Reworded (.same M M') a'
  | .scalar value, a', h => by
    cases a' <;> simp only [Argument.moved, reduceCtorEq, Argument.scalar.injEq] at h
    exact .scalar (value.reworded_of_moved _ h)
  | .vector value, a', h => by
    cases a' <;> simp only [Argument.moved, reduceCtorEq, Argument.vector.injEq] at h
    exact .vector (value.reworded_of_moved _ h)
  | .datum value, a', h => by
    cases a' <;> simp only [Argument.moved, reduceCtorEq, Argument.datum.injEq] at h
    exact .datum (value.reworded_of_moved _ h)
  | .feature value, a', h => by
    cases a' <;> simp only [Argument.moved, reduceCtorEq, Argument.feature.injEq] at h
    exact .feature (value.reworded_of_moved _ h)
  | .selection value, a', h => by
    cases a' <;> simp only [Argument.moved, reduceCtorEq, Argument.selection.injEq] at h
    exact .selection (value.reworded_of_moved _ h)
  | .keyword word, a', h => by
    cases a' <;> simp only [Argument.moved, reduceCtorEq, Argument.keyword.injEq] at h
    exact h ▸ .keyword word

end

/-- Two models that are the same but for their places say the same. -/
theorem Model.Alike.holds (h : M.Alike f M') : (Rewording.same M M').Holds := by
  rintro name _ b rfl hb
  have hname := h.binding? name
  change M.binding? name = some b at hb
  rw [hb] at hname
  obtain ⟨b', hb', hvalue⟩ := Option.map_eq_some_iff.mp hname.symm
  refine ⟨b', hb', ?_⟩
  cases hv : b.value <;> cases hv' : b'.value <;>
    simp only [hv, hv', BoundValue.moved, reduceCtorEq, BoundValue.scalar.injEq,
      BoundValue.vector.injEq, BoundValue.datum.injEq, BoundValue.feature.injEq,
      BoundValue.selection.injEq] at hvalue
  · exact .scalar (ScalarExpr.reworded_of_moved _ _ hvalue.symm)
  · exact .vector (VectorExpr.reworded_of_moved _ _ hvalue.symm)
  · exact .datum (DatumExpr.reworded_of_moved _ _ hvalue.symm)
  · exact .feature (FeatureRef.reworded_of_moved _ _ hvalue.symm)
  · exact .selection (SelectionExpr.reworded_of_moved _ _ hvalue.symm)

/-- A question about a name says the same in both. -/
theorem Query.reworded_same {question : Question} (h : (Query.named question).Lasting) :
    (Query.named question).Reworded (.same M M') (.named question) := by
  cases question with
  | scalar name => exact .scalar (.renamed rfl)
  | vector name => exact .vector (.renamed rfl)
  | datum name => exact .datum (.renamed rfl)
  | selection name => exact .selection (.renamed rfl)
  | hash name => exact .hash (.renamed rfl)
  | build name => exact .build (.renamed rfl)
  | outputs => exact h.elim

end Moved

/-! ## The same answers -/

/-- Without a cache, two sessions whose models are the same but for their places give the same
answers to questions about names. -/
theorem Workshop.Sound.answers_alike {shop shop' : Workshop} {id id' : Nat} {f : Origin → Origin}
    (h : shop.Sound id) (h' : shop'.Sound id')
    (halike : (shop.session id).model.Alike f (shop'.session id').model)
    (hbackend : shop'.backend = shop.backend) (hblind : shop.backend.Blind)
    (hnever : shop.scope = .disabled) (hnever' : shop'.scope = .disabled) {question : Question}
    (hlasting : (Query.named question).Lasting) {a : question.Answer}
    (ha : (shop.ask id 0 question.plan).1 = .ok a) :
    ∃ a', (shop'.ask id' 0 question.plan).1 = .ok a' ∧
      (Query.named question).SameAnswer (.named question) a a' :=
  h.reworded h' halike.holds rfl rfl hbackend hblind hnever hnever' (Query.reworded_same hlasting)
    (List.nil_subset _) (List.nil_subset _) ha

end PartScript
