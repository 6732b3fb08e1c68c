/-
  Which byte streams are equal. The streams of two features are equal exactly if their types
  are one and their arguments agree one by one, and those of two sub-results exactly if their
  roots and paths are equal. Lists may have any length: a stream ends where its last element
  does, so the count before the elements is not even needed to tell two of them apart.
-/
import Mathlib
import PartScript.Proofs.Encoding
import PartScript.Proofs.Engine

namespace PartScript

namespace Encoding

/-! ## Numbers that agree -/

theorem eq_zero_iff {x : Float} : (x == 0.0) = true ↔ x = 0 ∨ x = -0 := by
  have hzero : (0.0 : Float) = 0 := by decide
  rw [hzero]
  constructor
  · intro h
    obtain ⟨-, -, rfl | ⟨rfl, -⟩ | ⟨rfl, -⟩⟩ := Float.beq_iff_ne_nan_and_eq.mp h
    · exact .inl rfl
    · exact .inl rfl
    · exact .inr rfl
  · rintro (rfl | rfl) <;> decide

/-- Numbers have equal encodings exactly if they are equal as numbers, where zeros of both
signs are, or if neither is one. -/
theorem sameNumber_iff {x y : Float} :
    SameNumber x y ↔ (x == y) = true ∨ (x.isNaN = true ∧ y.isNaN = true) := by
  have hnan : ∀ z : Float, z.isNaN = true ↔ z = Float.nan := fun z => by
    rw [Float.isNaN_eq_decide_eq_nan, decide_eq_true_iff]
  constructor
  · rintro (rfl | ⟨hx, hy⟩)
    · by_cases hx : x = Float.nan
      · exact .inr ⟨(hnan x).mpr hx, (hnan x).mpr hx⟩
      · exact .inl (Float.beq_iff_ne_nan_and_eq.mpr ⟨hx, hx, .inl rfl⟩)
    · left
      rcases eq_zero_iff.mp hx with rfl | rfl <;> rcases eq_zero_iff.mp hy with rfl | rfl <;> decide
  · rintro (h | ⟨hx, hy⟩)
    · obtain ⟨-, -, rfl | ⟨rfl, rfl⟩ | ⟨rfl, rfl⟩⟩ := Float.beq_iff_ne_nan_and_eq.mp h
      · exact .inl rfl
      · exact .inr ⟨by decide, by decide⟩
      · exact .inr ⟨by decide, by decide⟩
    · exact .inl (nan_unique hx hy)

/-! ## What agrees has equal bytes -/

theorem SameNumber.float_eq {x y : Float} (h : SameNumber x y) : float x = float y := by
  rcases h with rfl | ⟨hx, hy⟩
  · rfl
  · unfold float canonicalBits
    rw [if_pos hx, if_pos hy]

theorem SameVector.vector_eq {v w : Vec3} (h : SameVector v w) : vector v = vector w := by
  unfold vector
  rw [h.x.float_eq, h.y.float_eq, h.z.float_eq]

theorem SameDatum.datum_eq {a b : Datum} (h : SameDatum a b) : datum a = datum b := by
  cases h with
  | point hv => rw [datum, datum, hv.vector_eq]
  | axis ho hv => rw [datum, datum, ho.vector_eq, hv.vector_eq]
  | plane ho hv => rw [datum, datum, ho.vector_eq, hv.vector_eq]

theorem SameSelection.selection_eq {t t' : Selection} (h : SameSelection t t') :
    selection t = selection t' := by
  unfold selection
  rw [h.source, h.kind, h.ids]

theorem argument_eq {a b : ResolvedArgument} (h : a.Same b) : argument a = argument b := by
  cases h with
  | scalar hx => rw [argument, argument, hx.float_eq]
  | vector hv => rw [argument, argument, hv.vector_eq]
  | datum hd => rw [argument, argument, hd.datum_eq]
  | keyword word => rfl
  | feature hr => rw [argument, argument, hr]
  | selection ht => rw [argument, argument, ht.selection_eq]

/-! ## Streams -/

theorem feature_stream_eq_iff {typeName typeName' : String} {args args' : List ResolvedArgument}
    (hfits : (Description.feature typeName args).TextsFit)
    (hfits' : (Description.feature typeName' args').TextsFit) :
    (Description.feature typeName args).stream = (Description.feature typeName' args').stream ↔
      typeName = typeName' ∧ List.Forall₂ ResolvedArgument.Same args args' := by
  refine ⟨feature_stream_inj hfits hfits', ?_⟩
  rintro ⟨rfl, hargs⟩
  have hbytes : args.flatMap argument = args'.flatMap argument := by
    clear hfits hfits'
    induction hargs with
    | nil => rfl
    | cons ha _ ih => rw [List.flatMap_cons, List.flatMap_cons, argument_eq ha, ih]
  simp only [Description.stream, feature, hargs.length_eq, hbytes]

/-- What identifies a feature is the digest of the stream of its type and its evaluated
arguments. -/
theorem fingerprint_stream {ev : Evaluation} {ask : Answers} {f : Feature} {s : BuildState}
    {x : StructuralHash × List ResolvedArgument} (h : (ev.fingerprint ask f s).1 = .ok x) :
    x.1 = .ofBytes (Description.feature f.typeName x.2).stream := by
  have hcases := ev.fingerprint_cases ask f s
  rw [h] at hcases
  exact hcases.of_ok.2.1

/-- The encoding of identities is injective. A feature is identified by the digest of a stream.
The streams of two features are equal exactly if the types are one and the arguments, as many
of one as of the other, agree one by one: numbers wherever they stand are equal as numbers or
none is one, datums have one kind, words are one text, features have one identity, and
selections one source, one kind and the same ids. The streams of two sub-results are equal
exactly if the root and the path are. No stream is that of both. -/
theorem stream_injective :
    (∀ ev ask f s x, (Evaluation.fingerprint ev ask f s).1 = .ok x →
      x.1 = .ofBytes (Description.feature f.typeName x.2).stream) ∧
    (∀ x y, SameNumber x y ↔ (x == y) = true ∨ (x.isNaN = true ∧ y.isNaN = true)) ∧
    (∀ typeName typeName' args args',
      (Description.feature typeName args).TextsFit →
      (Description.feature typeName' args').TextsFit →
      ((Description.feature typeName args).stream =
          (Description.feature typeName' args').stream ↔
        typeName = typeName' ∧ List.Forall₂ ResolvedArgument.Same args args')) ∧
    (∀ root root' path path',
      (Description.subResult root path).TextsFit →
      (Description.subResult root' path').TextsFit →
      ((Description.subResult root path).stream = (Description.subResult root' path').stream ↔
        root = root' ∧ path = path')) ∧
    ∀ typeName args root path,
      (Description.feature typeName args).stream ≠ (Description.subResult root path).stream :=
  ⟨fun _ _ _ _ _ => fingerprint_stream, fun _ _ => sameNumber_iff,
    fun _ _ _ _ => feature_stream_eq_iff,
    fun _ _ _ _ hfits hfits' => ⟨subResult_stream_inj hfits hfits', by rintro ⟨rfl, rfl⟩; rfl⟩,
    feature_stream_ne_subResult⟩

/-- The sign of a zero does not tell two spheres apart, and their diameter does. -/
theorem stream_injective_spheres :
    (Description.feature "Sphere" [.vector ⟨0, 0, 0⟩, .scalar 1]).stream =
        (Description.feature "Sphere" [.vector ⟨-0, 0, 0⟩, .scalar 1]).stream ∧
      (Description.feature "Sphere" [.vector ⟨0, 0, 0⟩, .scalar 1]).stream ≠
        (Description.feature "Sphere" [.vector ⟨0, 0, 0⟩, .scalar 2]).stream := by
  have hfits : ∀ v x, (Description.feature "Sphere" [.vector v, .scalar x]).TextsFit := fun v x =>
    ⟨by decide, by simp [ArgumentFits]⟩
  obtain ⟨-, hnumber, hfeature, -⟩ := stream_injective
  have hone : ∀ x : Float, (x == x) = true → SameNumber x x := fun x hx =>
    (hnumber x x).mpr (.inl hx)
  constructor
  · refine (hfeature _ _ _ _ (hfits _ _) (hfits _ _)).mpr ⟨rfl, .cons (.vector ⟨?_, ?_, ?_⟩)
      (.cons (.scalar ?_) .nil)⟩
    · exact (hnumber 0 (-0)).mpr (.inl (by decide))
    · exact hone 0 (by decide)
    · exact hone 0 (by decide)
    · exact hone 1 (by decide)
  · intro h
    obtain ⟨-, hargs⟩ := (hfeature _ _ _ _ (hfits _ _) (hfits _ _)).mp h
    cases (List.forall₂_cons.mp (List.forall₂_cons.mp hargs).2).1 with
    | scalar hx =>
      rcases (hnumber 1 2).mp hx with heq | ⟨hnan, -⟩
      · exact absurd heq (by decide)
      · exact absurd hnan (by decide)

end Encoding

end PartScript
