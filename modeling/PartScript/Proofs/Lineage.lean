/-
  Identities by what they are made of. Where no two streams have one digest, an identity
  determines the identities that it refers to, and these were computed before it; so no
  identity is made of itself.
-/
import PartScript.Proofs.Encoding
import PartScript.Proofs.Recall

namespace PartScript

namespace Description

/-- A log that can be read back from its identities: everything in it fits its encoding, and
no two streams in it have one digest. -/
structure Legible (log : List Description) : Prop where
  fits : ∀ d ∈ log, d.Fits
  distinct : ∀ d ∈ log, ∀ d' ∈ log, d.hash = d'.hash → d.stream = d'.stream

instance (log : List Description) : Decidable (Legible log) :=
  decidable_of_iff ((∀ d ∈ log, d.Fits) ∧ ∀ d ∈ log, ∀ d' ∈ log, d.hash = d'.hash →
    d.stream = d'.stream) ⟨fun h => ⟨h.1, h.2⟩, fun h => ⟨h.fits, h.distinct⟩⟩

/-- What has identity `h` refers to `g`. -/
def Uses (log : List Description) (g h : StructuralHash) : Prop :=
  ∃ d ∈ log, d.hash = h ∧ g ∈ d.refs

variable {log log' : List Description}

theorem Legible.mono (h : Legible log) (hsub : log' ⊆ log) : Legible log' :=
  ⟨fun d hd => h.fits d (hsub hd), fun d hd d' hd' => h.distinct d (hsub hd) d' (hsub hd')⟩

theorem Legible.refs_eq (h : Legible log) {d d' : Description} (hd : d ∈ log) (hd' : d' ∈ log)
    (heq : d.hash = d'.hash) : d.refs = d'.refs :=
  refs_eq_of_stream (h.fits d hd) (h.fits d' hd') (h.distinct d hd d' hd' heq)

/-- No identity is made of itself: what it refers to was described before it was described
for the first time. -/
theorem uses_wellFounded (h : Legible log) (horder : InOrder log) : WellFounded (Uses log) := by
  -- The induction is on the log, from the earliest description on.
  have hlogged : ∀ earlier, earlier <:+ log → ∀ g, Logged earlier g → Acc (Uses log) g := by
    intro earlier
    induction earlier with
    | nil =>
      rintro - g ⟨d, hd, -⟩
      cases hd
    | cons d earlier ih =>
      intro hsuffix g hg
      have hearlier : earlier <:+ log := (List.suffix_cons d earlier).trans hsuffix
      have hd : d ∈ log := hsuffix.subset List.mem_cons_self
      have hrefs : ∀ k ∈ d.refs, Logged earlier k := by
        obtain ⟨later, rfl⟩ := hsuffix
        clear ih hearlier hd h hg
        induction later with
        | nil => exact horder.1
        | cons _ later ih => exact ih horder.2
      obtain ⟨d', hd', rfl⟩ := hg
      rcases List.mem_cons.mp hd' with rfl | hd'
      · refine Acc.intro _ fun k hk => ?_
        obtain ⟨e, he, heq, hke⟩ := hk
        rw [h.refs_eq he hd heq] at hke
        exact ih hearlier k (hrefs k hke)
      · exact ih hearlier _ ⟨d', hd', rfl⟩
  refine ⟨fun g => Acc.intro g fun k hk => ?_⟩
  have hlog : Logged log g := by
    obtain ⟨d, hd, heq, -⟩ := hk
    exact ⟨d, hd, heq⟩
  exact (hlogged log (List.suffix_refl log) g hlog).inv hk

theorem not_uses_self (h : Legible log) (horder : InOrder log) (g : StructuralHash) :
    ¬ Relation.TransGen (Uses log) g g := by
  induction g using (uses_wellFounded h horder).transGen.induction with
  | _ g ih => exact fun hg => ih g hg hg

end Description

end PartScript
