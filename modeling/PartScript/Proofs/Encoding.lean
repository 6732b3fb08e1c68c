/-
  The byte streams of identities can be read back. Every part of a stream either has a fixed
  length or begins with its length, so a stream determines the type and the arguments of a
  feature, or the root and the path of a sub-result: floats up to the sign of zero, features
  and selections up to their identities. Lengths are written as words of 64 bits, and every
  text and list in memory is shorter than that.
-/
import Mathlib.Algebra.Group.Nat.Defs
import Mathlib.Data.List.Forall2
import Mathlib.Data.List.Perm.Subperm
import PartScript.Proofs.Scope

namespace PartScript

namespace Encoding

/-! ## Reading back -/

/-- What follows the bytes of a value that satisfies `P` can be told from them, and the value
itself up to `R`. -/
def Decodes {α : Type} (f : α → List UInt8) (P : α → Prop) (R : α → α → Prop) : Prop :=
  ∀ ⦃a b : α⦄ ⦃u v : List UInt8⦄, P a → P b → f a ++ u = f b ++ v → R a b ∧ u = v

theorem decodes_of_length {α : Type} {f : α → List UInt8} {P : α → Prop} {R : α → α → Prop}
    {n : Nat} (hlen : ∀ a, (f a).length = n) (hinj : ∀ a b, P a → P b → f a = f b → R a b) :
    Decodes f P R := by
  intro a b u v ha hb h
  obtain ⟨hab, huv⟩ := List.append_inj h (by rw [hlen, hlen])
  exact ⟨hinj a b ha hb hab, huv⟩

/-- Lists of one length, element by element. -/
theorem decodes_flatMap {α : Type} {f : α → List UInt8} {P : α → Prop} {R : α → α → Prop}
    (hf : Decodes f P R) {as bs : List α} {u v : List UInt8} (hlen : as.length = bs.length)
    (has : ∀ a ∈ as, P a) (hbs : ∀ b ∈ bs, P b) (h : as.flatMap f ++ u = bs.flatMap f ++ v) :
    List.Forall₂ R as bs ∧ u = v := by
  induction as generalizing bs with
  | nil =>
    obtain rfl := List.eq_nil_of_length_eq_zero hlen.symm
    exact ⟨.nil, h⟩
  | cons a as ih =>
    cases bs with
    | nil => cases hlen
    | cons b bs =>
      rw [List.flatMap_cons, List.flatMap_cons, List.append_assoc, List.append_assoc] at h
      obtain ⟨hab, h⟩ := hf (has a List.mem_cons_self) (hbs b List.mem_cons_self) h
      obtain ⟨hrest, huv⟩ := ih (Nat.succ.inj hlen)
        (fun x hx => has x (List.mem_cons_of_mem _ hx))
        (fun x hx => hbs x (List.mem_cons_of_mem _ hx)) h
      exact ⟨.cons hab hrest, huv⟩

/-- Lists that nothing follows are told apart without their lengths. -/
theorem flatMap_end {α : Type} {f : α → List UInt8} {P : α → Prop} {R : α → α → Prop}
    (hf : Decodes f P R) (hne : ∀ a, f a ≠ []) {as bs : List α} (has : ∀ a ∈ as, P a)
    (hbs : ∀ b ∈ bs, P b) (h : as.flatMap f = bs.flatMap f) : List.Forall₂ R as bs := by
  induction as generalizing bs with
  | nil =>
    cases bs with
    | nil => exact .nil
    | cons b bs =>
      rw [List.flatMap_nil, List.flatMap_cons] at h
      exact absurd (List.append_eq_nil_iff.mp h.symm).1 (hne b)
  | cons a as ih =>
    cases bs with
    | nil =>
      rw [List.flatMap_nil, List.flatMap_cons] at h
      exact absurd (List.append_eq_nil_iff.mp h).1 (hne a)
    | cons b bs =>
      rw [List.flatMap_cons, List.flatMap_cons] at h
      obtain ⟨hab, h⟩ := hf (has a List.mem_cons_self) (hbs b List.mem_cons_self) h
      exact .cons hab (ih (fun x hx => has x (List.mem_cons_of_mem _ hx))
        (fun x hx => hbs x (List.mem_cons_of_mem _ hx)) h)

/-! ## Words and texts -/

theorem littleEndian_length (n x : Nat) : (littleEndian n x).length = n := by
  induction n generalizing x with
  | zero => rfl
  | succ n ih => rw [littleEndian, List.length_cons, ih]

theorem littleEndian_inj {n x y : Nat} (hx : x < 256 ^ n) (hy : y < 256 ^ n)
    (h : littleEndian n x = littleEndian n y) : x = y := by
  induction n generalizing x y with
  | zero =>
    rw [Nat.pow_zero] at hx hy
    omega
  | succ n ih =>
    rw [littleEndian, littleEndian] at h
    obtain ⟨hbyte, hrest⟩ := List.cons.inj h
    rw [Nat.pow_succ] at hx hy
    have hdiv := ih (by omega) (by omega) hrest
    have hmod := congrArg UInt8.toNat hbyte
    rw [UInt8.toNat_ofNat', UInt8.toNat_ofNat'] at hmod
    omega

theorem word_decodes : Decodes word (· < 2 ^ 64) Eq :=
  decodes_of_length (littleEndian_length 8) fun _ _ hx hy h => littleEndian_inj hx hy h

theorem word_ne_nil (n : Nat) : word n ≠ [] := List.cons_ne_nil _ _

/-- What follows a count can be told from it, whatever was counted. -/
theorem word_skip {m n : Nat} {u v : List UInt8} (h : word m ++ u = word n ++ v) : u = v :=
  (List.append_inj h ((littleEndian_length 8 m).trans (littleEndian_length 8 n).symm)).2

/-- A text whose length in bytes is a word, as that of every text in memory is. -/
def TextFits (s : String) : Prop := s.utf8ByteSize < 2 ^ 64

theorem text_decodes : Decodes text TextFits Eq := by
  intro s t u v hs ht h
  unfold text at h
  rw [List.append_assoc, List.append_assoc] at h
  obtain ⟨hsize, h⟩ := word_decodes hs ht h
  have hlen : ∀ r : String, r.toByteArray.data.toList.length = r.utf8ByteSize := fun _ => rfl
  obtain ⟨hbytes, huv⟩ := List.append_inj h (by rw [hlen, hlen, hsize])
  refine ⟨?_, huv⟩
  apply String.toByteArray_inj.mp
  apply ByteArray.ext
  apply Array.ext'
  exact hbytes

theorem text_ne_nil (s : String) : text s ≠ [] :=
  List.append_ne_nil_of_left_ne_nil (word_ne_nil _) _

/-! ## Floats -/

theorem float_eq_of_toBits {x y : Float} (h : x.toBits = y.toBits) : x = y := by
  obtain ⟨⟨b, hb⟩⟩ := x
  obtain ⟨⟨c, hc⟩⟩ := y
  obtain rfl : b = c := h
  rfl

/-- There is one NaN. -/
theorem nan_unique {x y : Float} (hx : x.isNaN = true) (hy : y.isNaN = true) : x = y := by
  have hbits : ∀ z : Float, z.isNaN = true →
      z.toBits.toBitVec = Float.Model.UnpackedFloat.packedNaN .binary64 := by
    intro z hz
    have hz : (Float.Model.UnpackedFloat.unpack .binary64 z.toBits.toBitVec).isNaN = true := hz
    unfold Float.Model.UnpackedFloat.unpack at hz
    dsimp only at hz
    by_cases hexp : @Float.Model.UnpackedFloat.unpackExponent .binary64 z.toBits.toBitVec = -1#_
    · by_cases hman : @Float.Model.UnpackedFloat.unpackMantissa .binary64 z.toBits.toBitVec = 0#_
      · rw [if_pos hexp, if_pos hman] at hz
        cases hz
      · exact z.toModel.valid.eq_packedNaN hexp hman
    · -- What is neither infinite nor a NaN is a zero, or finite.
      rw [if_neg hexp] at hz
      by_cases hsub : @Float.Model.UnpackedFloat.unpackExponent .binary64 z.toBits.toBitVec = 0#_
      · rw [if_pos hsub] at hz
        by_cases hman : @Float.Model.UnpackedFloat.unpackMantissa .binary64 z.toBits.toBitVec = 0#_
        · rw [dif_pos hman] at hz
          cases hz
        · rw [dif_neg hman] at hz
          cases hz
      · rw [if_neg hsub] at hz
        cases hz
  apply float_eq_of_toBits
  apply UInt64.toBitVec_inj.mp
  rw [hbits x hx, hbits y hy]

/-- Floats with equal encodings: one float, or two zeros. -/
def SameNumber (x y : Float) : Prop := x = y ∨ ((x == 0.0) = true ∧ (y == 0.0) = true)

theorem eq_zero_of_toBits {x : Float} (h : x.toBits.toNat = 0) : (x == 0.0) = true := by
  have hzero : (0.0 : Float).toBits = 0 := by decide
  have hx : x = 0.0 := by
    apply float_eq_of_toBits
    rw [hzero]
    exact UInt64.toNat_inj.mp h
  rw [hx]
  decide

theorem isNaN_of_toBits {x : Float} (h : x.toBits.toNat = 0x7FF8000000000000) :
    x.isNaN = true := by
  have hnan : (Float.ofBits 0x7FF8000000000000).toBits = 0x7FF8000000000000 := by decide +kernel
  have hx : x = Float.ofBits 0x7FF8000000000000 := by
    apply float_eq_of_toBits
    rw [hnan]
    exact UInt64.toNat_inj.mp h
  rw [hx]
  decide +kernel

theorem canonicalBits_inj {x y : Float} (h : canonicalBits x = canonicalBits y) :
    SameNumber x y := by
  unfold canonicalBits at h
  by_cases hx : (x == 0.0) = true <;> by_cases hy : (y == 0.0) = true
  · exact .inr ⟨hx, hy⟩
  · rw [if_pos hx, if_neg hy] at h
    split at h
    · cases h
    · exact absurd (eq_zero_of_toBits h.symm) hy
  · rw [if_neg hx, if_pos hy] at h
    split at h
    · cases h
    · exact absurd (eq_zero_of_toBits h) hx
  · rw [if_neg hx, if_neg hy] at h
    left
    by_cases hnx : x.isNaN = true <;> by_cases hny : y.isNaN = true
    · exact nan_unique hnx hny
    · rw [if_pos hnx, if_neg hny] at h
      exact absurd (isNaN_of_toBits h.symm) hny
    · rw [if_neg hnx, if_pos hny] at h
      exact absurd (isNaN_of_toBits h) hnx
    · rw [if_neg hnx, if_neg hny] at h
      exact float_eq_of_toBits (UInt64.toNat_inj.mp h)

theorem canonicalBits_lt (x : Float) : canonicalBits x < 2 ^ 64 := by
  unfold canonicalBits
  split
  · omega
  · split
    · omega
    · exact x.toBits.toNat_lt

theorem float_decodes : Decodes float (fun _ => True) SameNumber := by
  intro x y u v _ _ h
  obtain ⟨hbits, huv⟩ := word_decodes (canonicalBits_lt x) (canonicalBits_lt y) h
  exact ⟨canonicalBits_inj hbits, huv⟩

/-- Vectors with equal encodings. -/
structure SameVector (v w : Vec3) : Prop where
  x : SameNumber v.x w.x
  y : SameNumber v.y w.y
  z : SameNumber v.z w.z

theorem vector_decodes : Decodes vector (fun _ => True) SameVector := by
  intro a b u v _ _ h
  unfold vector at h
  simp only [List.append_assoc] at h
  obtain ⟨hx, h⟩ := float_decodes True.intro True.intro h
  obtain ⟨hy, h⟩ := float_decodes True.intro True.intro h
  obtain ⟨hz, h⟩ := float_decodes True.intro True.intro h
  exact ⟨⟨hx, hy, hz⟩, h⟩

/-- Datums with equal encodings. -/
inductive SameDatum : Datum → Datum → Prop where
  | point {v w} : SameVector v w → SameDatum (.point v) (.point w)
  | axis {o p v w} : SameVector o p → SameVector v w → SameDatum (.axis o v) (.axis p w)
  | plane {o p v w} : SameVector o p → SameVector v w → SameDatum (.plane o v) (.plane p w)

theorem datum_decodes : Decodes datum (fun _ => True) SameDatum := by
  intro a b u v _ _ h
  cases a <;> cases b <;> simp only [datum, List.cons_append, List.append_assoc] at h <;>
    obtain ⟨htag, h⟩ := List.cons.inj h
  case point.point =>
    obtain ⟨hv, h⟩ := vector_decodes True.intro True.intro h
    exact ⟨.point hv, h⟩
  case axis.axis =>
    obtain ⟨ho, h⟩ := vector_decodes True.intro True.intro h
    obtain ⟨hv, h⟩ := vector_decodes True.intro True.intro h
    exact ⟨.axis ho hv, h⟩
  case plane.plane =>
    obtain ⟨ho, h⟩ := vector_decodes True.intro True.intro h
    obtain ⟨hv, h⟩ := vector_decodes True.intro True.intro h
    exact ⟨.plane ho hv, h⟩
  all_goals exact absurd htag (by decide)

/-! ## Identities and selections -/

theorem hash_decodes : Decodes hash (fun _ => True) Eq := by
  refine decodes_of_length (n := 32) (fun h => ?_) fun h k _ _ heq => ?_
  · exact h.bytes.length_toList
  · cases h
    cases k
    congr 1
    exact Vector.toList_inj.mp heq

theorem kind_fits (kind : EntityKind) : TextFits kind.name := by
  cases kind <;> (unfold TextFits; decide)

theorem kind_inj {k k' : EntityKind} (h : k.name = k'.name) : k = k' := by
  cases k <;> cases k' <;> first | rfl | exact absurd h (by decide)

/-- There are no more ids than words. -/
theorem ids_fit (ids : IdSet) : ids.toList.length < 2 ^ 64 := by
  have hnodup : (ids.toList.map UInt32.toNat).Nodup := by
    rw [List.Nodup, List.pairwise_map]
    refine ids.ascending.imp fun hlt heq => ?_
    have := UInt32.lt_iff_toNat_lt.mp hlt
    omega
  have hsub : ids.toList.map UInt32.toNat ⊆ List.range (2 ^ 32) := by
    intro x hx
    obtain ⟨id, -, rfl⟩ := List.mem_map.mp hx
    exact List.mem_range.mpr id.toNat_lt
  have hle := (hnodup.subperm hsub).length_le
  rw [List.length_map, List.length_range] at hle
  omega

/-- Selections with equal encodings. -/
structure SameSelection (t t' : Selection) : Prop where
  source : t.source = t'.source
  kind : t.kind = t'.kind
  ids : t.ids = t'.ids

theorem id_decodes : Decodes (fun id : UInt32 => word id.toNat) (fun _ => True) Eq := by
  intro a b u v _ _ h
  have hlt : ∀ id : UInt32, id.toNat < 2 ^ 64 := fun id => by
    have := id.toNat_lt
    omega
  obtain ⟨heq, huv⟩ := word_decodes (hlt a) (hlt b) h
  exact ⟨UInt32.toNat_inj.mp heq, huv⟩

theorem selection_decodes : Decodes selection (fun _ => True) SameSelection := by
  intro t t' u v _ _ h
  unfold selection at h
  simp only [List.append_assoc] at h
  obtain ⟨hsource, h⟩ := hash_decodes True.intro True.intro h
  obtain ⟨hkind, h⟩ := text_decodes (kind_fits _) (kind_fits _) h
  obtain ⟨hlen, h⟩ := word_decodes (ids_fit _) (ids_fit _) h
  obtain ⟨hids, h⟩ := decodes_flatMap id_decodes hlen (fun _ _ => True.intro)
    (fun _ _ => True.intro) h
  refine ⟨⟨hsource, kind_inj hkind, ?_⟩, h⟩
  have heq := List.forall₂_eq_eq_eq ▸ hids
  cases hi : t.ids
  cases hi' : t'.ids
  rw [hi, hi'] at heq
  congr

end Encoding

/-! ## Arguments and descriptions -/

/-- Evaluated arguments with equal encodings. -/
inductive ResolvedArgument.Same : ResolvedArgument → ResolvedArgument → Prop where
  | scalar {x y} : Encoding.SameNumber x y → Same (.scalar x) (.scalar y)
  | vector {v w} : Encoding.SameVector v w → Same (.vector v) (.vector w)
  | datum {a b} : Encoding.SameDatum a b → Same (.datum a) (.datum b)
  | keyword (word : String) : Same (.keyword word) (.keyword word)
  | feature {r r' : ResolvedFeature} : r.hash = r'.hash → Same (.feature r) (.feature r')
  | selection {t t'} : Encoding.SameSelection t t' → Same (.selection t) (.selection t')

namespace Encoding

/-- A keyword that fits. -/
def ArgumentFits : ResolvedArgument → Prop
  | .keyword word => TextFits word
  | _ => True

instance : DecidablePred TextFits := fun _ => inferInstanceAs (Decidable (_ < _))

instance : DecidablePred ArgumentFits
  | .keyword word => inferInstanceAs (Decidable (TextFits word))
  | .scalar _ => isTrue True.intro
  | .vector _ => isTrue True.intro
  | .datum _ => isTrue True.intro
  | .feature _ => isTrue True.intro
  | .selection _ => isTrue True.intro

end Encoding

/-- Every text and list in a description is shorter than a word can tell, as everything in
memory is. -/
def Description.Fits : Description → Prop
  | feature typeName args =>
    Encoding.TextFits typeName ∧ args.length < 2 ^ 64 ∧ ∀ a ∈ args, Encoding.ArgumentFits a
  | subResult _ path => path.length < 2 ^ 64 ∧ ∀ name ∈ path, Encoding.TextFits name

/-- Every text in a description is one that memory can hold: the number of its bytes is a word
of 64 bits. -/
def Description.TextsFit : Description → Prop
  | feature typeName args => Encoding.TextFits typeName ∧ ∀ a ∈ args, Encoding.ArgumentFits a
  | subResult _ path => ∀ name ∈ path, Encoding.TextFits name

theorem Description.Fits.texts {d : Description} (h : d.Fits) : d.TextsFit := by
  cases d with
  | feature typeName args => exact ⟨h.1, h.2.2⟩
  | subResult root path => exact h.2

instance : DecidablePred Description.Fits
  | .feature _ _ => inferInstanceAs (Decidable (_ ∧ _))
  | .subResult _ _ => inferInstanceAs (Decidable (_ ∧ _))

namespace Encoding

theorem argument_decodes : Decodes argument ArgumentFits ResolvedArgument.Same := by
  intro a b u v ha hb h
  cases a <;> cases b <;> simp only [argument, List.cons_append] at h <;>
    obtain ⟨htag, h⟩ := List.cons.inj h
  case scalar.scalar =>
    obtain ⟨hx, h⟩ := float_decodes True.intro True.intro h
    exact ⟨.scalar hx, h⟩
  case vector.vector =>
    obtain ⟨hv, h⟩ := vector_decodes True.intro True.intro h
    exact ⟨.vector hv, h⟩
  case datum.datum =>
    obtain ⟨hd, h⟩ := datum_decodes True.intro True.intro h
    exact ⟨.datum hd, h⟩
  case keyword.keyword =>
    obtain ⟨heq, h⟩ := text_decodes ha hb h
    rw [heq]
    exact ⟨.keyword _, h⟩
  case feature.feature =>
    obtain ⟨hr, h⟩ := hash_decodes True.intro True.intro h
    exact ⟨.feature hr, h⟩
  case selection.selection =>
    obtain ⟨ht, h⟩ := selection_decodes True.intro True.intro h
    exact ⟨.selection ht, h⟩
  all_goals exact absurd htag (by decide)

theorem argument_ne_nil (a : ResolvedArgument) : argument a ≠ [] := by
  cases a <;> exact List.cons_ne_nil _ _

theorem domain_fits : TextFits "feature" ∧ TextFits "sub-result" := by
  unfold TextFits
  decide

/-- The stream of a feature determines its type and its arguments. -/
theorem feature_stream_inj {typeName typeName' : String} {args args' : List ResolvedArgument}
    (hfits : (Description.feature typeName args).TextsFit)
    (hfits' : (Description.feature typeName' args').TextsFit)
    (h : (Description.feature typeName args).stream =
      (Description.feature typeName' args').stream) :
    typeName = typeName' ∧ List.Forall₂ ResolvedArgument.Same args args' := by
  simp only [Description.stream, feature, List.append_assoc] at h
  obtain ⟨-, h⟩ := text_decodes domain_fits.1 domain_fits.1 h
  obtain ⟨hname, h⟩ := text_decodes hfits.1 hfits'.1 h
  exact ⟨hname, flatMap_end argument_decodes argument_ne_nil hfits.2 hfits'.2 (word_skip h)⟩

/-- The stream of a sub-result determines its root and its path. -/
theorem subResult_stream_inj {root root' : StructuralHash} {path path' : List String}
    (hfits : (Description.subResult root path).TextsFit)
    (hfits' : (Description.subResult root' path').TextsFit)
    (h : (Description.subResult root path).stream = (Description.subResult root' path').stream) :
    root = root' ∧ path = path' := by
  simp only [Description.stream, subResult, List.append_assoc] at h
  obtain ⟨-, h⟩ := text_decodes domain_fits.2 domain_fits.2 h
  obtain ⟨hroot, h⟩ := hash_decodes True.intro True.intro h
  have hpath := flatMap_end text_decodes text_ne_nil hfits hfits' (word_skip h)
  exact ⟨hroot, List.forall₂_eq_eq_eq ▸ hpath⟩

/-- No stream is that of a feature and of a sub-result. -/
theorem feature_stream_ne_subResult (typeName : String) (args : List ResolvedArgument)
    (root : StructuralHash) (path : List String) :
    (Description.feature typeName args).stream ≠ (Description.subResult root path).stream := by
  intro h
  simp only [Description.stream, feature, subResult, List.append_assoc] at h
  obtain ⟨hdomain, -⟩ := text_decodes domain_fits.1 domain_fits.2 h
  exact absurd hdomain (by decide)

end Encoding

/-- Arguments with equal encodings refer to the same identities. -/
theorem Description.refs_congr {args args' : List ResolvedArgument}
    (h : List.Forall₂ ResolvedArgument.Same args args') (typeName typeName' : String) :
    (Description.feature typeName args).refs = (Description.feature typeName' args').refs := by
  simp only [refs]
  induction h with
  | nil => rfl
  | cons ha _ ih =>
    rw [List.filterMap_cons, List.filterMap_cons, ih]
    cases ha with
    | feature hr => simp only [ResolvedArgument.ref?, hr]
    | selection ht => simp only [ResolvedArgument.ref?, ht.source]
    | _ => rfl

/-- Descriptions with equal streams refer to the same identities. -/
theorem Description.refs_eq_of_stream {d d' : Description} (hfits : d.Fits) (hfits' : d'.Fits)
    (h : d.stream = d'.stream) : d.refs = d'.refs := by
  cases d with
  | feature typeName args =>
    cases d' with
    | feature typeName' args' =>
      exact refs_congr (Encoding.feature_stream_inj hfits.texts hfits'.texts h).2 _ _
    | subResult root path =>
      exact absurd h (Encoding.feature_stream_ne_subResult typeName args root path)
  | subResult root path =>
    cases d' with
    | feature typeName args =>
      exact absurd h.symm (Encoding.feature_stream_ne_subResult typeName args root path)
    | subResult root' path' =>
      rw [refs, refs, (Encoding.subResult_stream_inj hfits.texts hfits'.texts h).1]

end PartScript
