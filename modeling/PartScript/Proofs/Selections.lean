/-
  Evaluated selections. A selection picks sub-shapes that its shape has: the ids of the second
  operand of a combination are ids of a shape for the same identity, which has as many sub-shapes
  as that of the first. The source is the identity of every reference that is queried on the way,
  and a combination has a value exactly if its operands have, for one source and one kind.
-/
import PartScript.Proofs.Counts
import PartScript.Proofs.Outlines
import PartScript.Proofs.Stability

namespace PartScript

open Relation

/-! ## Ids -/

theorem IdSet.lt_of_mem_below {count x : UInt32} (h : x ∈ IdSet.below count) : x < count := by
  obtain ⟨n, hn, rfl⟩ := List.mem_map.mp (IdSet.mem_ofList.mp h)
  have hlt := List.mem_range.mp hn
  rw [UInt32.lt_iff_toNat_lt, UInt32.toNat_ofNat_of_lt' (Nat.lt_trans hlt count.toNat_lt)]
  exact hlt

namespace Filter

theorem readPiece_lt {count id : UInt32} {piece : List Char}
    (h : readPiece count piece = .ok id) : id < count := by
  unfold readPiece at h
  dsimp only at h
  split at h
  · cases h
  · split at h
    · next hlt =>
      cases h
      exact hlt
    · cases h

theorem readPieces_lt {count : UInt32} {pieces : List (List Char)} {ids : List UInt32}
    (h : pieces.mapM (readPiece count) = .ok ids) : ∀ x ∈ ids, x < count := by
  induction pieces generalizing ids with
  | nil =>
    cases h
    exact fun _ hx => by cases hx
  | cons piece pieces ih =>
    rw [List.mapM_cons] at h
    obtain ⟨id, hid, h⟩ := ok_of_bind h
    obtain ⟨rest, hrest, h⟩ := ok_of_bind h
    cases h
    exact List.forall_mem_cons.mpr ⟨readPiece_lt hid, ih hrest⟩

/-- A filter selects ids below the count. -/
theorem select_lt {filter : String} {count : UInt32} {ids : IdSet}
    (h : select filter count = .ok ids) : ∀ x ∈ ids, x < count := by
  unfold select at h
  dsimp only at h
  split at h
  · cases h
    exact fun _ => IdSet.lt_of_mem_below
  · split at h
    · cases h
      exact fun _ hx => by cases hx
    · obtain ⟨xs, hxs, h⟩ := ok_of_bind h
      cases h
      exact fun x hx => readPieces_lt hxs x (IdSet.mem_ofList.mp hx)

end Filter

/-- A selection picks sub-shapes that its shape has. -/
def Selection.Valid (t : Selection) : Prop :=
  ∃ shape, t.shape.shape = .symbolic shape ∧ ∀ x ∈ t.ids, x < shape.counts.count t.kind

/-- The references that a selection expression queries. -/
inductive Model.Queries (M : Model) : SelectionExpr → FeatureRef → Prop where
  | query {kind reference filter} : Queries M (.query kind reference filter) reference
  | unionLeft {left right reference} : Queries M left reference →
      Queries M (.union left right) reference
  | unionRight {left right reference} : Queries M right reference →
      Queries M (.union left right) reference
  | differenceLeft {left right reference} : Queries M left reference →
      Queries M (.difference left right) reference
  | differenceRight {left right reference} : Queries M right reference →
      Queries M (.difference left right) reference
  | symbol {name b value reference} : M.binding? name = some b → b.value = .selection value →
      Queries M value reference → Queries M (.symbol name) reference

theorem Model.Queries.within {M : Model} {fs : List Feature} {e : SelectionExpr}
    {reference : FeatureRef} (h : M.Queries e reference) (hfs : Closed M fs)
    (he : e.constructions ⊆ fs) : reference.constructions ⊆ fs := by
  induction h with
  | query => exact he
  | unionLeft _ ih => exact ih (List.append_subset.mp he).1
  | unionRight _ ih => exact ih (List.append_subset.mp he).2
  | differenceLeft _ ih => exact ih (List.append_subset.mp he).1
  | differenceRight _ ih => exact ih (List.append_subset.mp he).2
  | @symbol _ b _ _ hb hv _ ih =>
    have hsub := hfs.bindings b (Model.mem_of_binding? hb).1
    rw [hv] at hsub
    exact ih hsub

namespace Evaluation

variable {ev : Evaluation} {fs : List Feature} {s : BuildState}

/-- What a selection expression yields from what is remembered. -/
inductive Yields (ev : Evaluation) (s : BuildState) : SelectionExpr → Selection → Prop where
  | query {kind reference filter r result shape ids} :
      ResolvedFeature.Backed ev.model (remembered s) (· ∈ s.described) reference r →
      (s.feature r.root).progress = .built result →
      result.descend r.root.label r.path = .ok shape →
      ev.backend.select shape kind filter = .ok ids →
      Yields ev s (.query kind reference filter) ⟨r.hash, r.label, kind, ids, shape⟩
  | union {left right t u} : Yields ev s left t → Yields ev s right u → t.source = u.source →
      t.kind = u.kind → Yields ev s (.union left right) { t with ids := t.ids.union u.ids }
  | difference {left right t u} : Yields ev s left t → Yields ev s right u →
      t.source = u.source → t.kind = u.kind →
      Yields ev s (.difference left right) { t with ids := t.ids.difference u.ids }
  | symbol {name b value t} : ev.model.binding? name = some b → b.value = .selection value →
      Yields ev s value t → Yields ev s (.symbol name) t

/-- Every reference that is queried has the source of the selection as its identity. -/
theorem Yields.identified {e : SelectionExpr} {t : Selection} (h : ev.Yields s e t)
    {reference : FeatureRef} (hq : ev.model.Queries e reference) :
    ∃ r, ResolvedFeature.Backed ev.model (remembered s) (· ∈ s.described) reference r ∧
      r.hash = t.source := by
  induction h with
  | query hback _ _ _ =>
    cases hq
    exact ⟨_, hback, rfl⟩
  | union _ _ hsource _ iht ihu =>
    cases hq with
    | unionLeft hq => exact iht hq
    | unionRight hq => exact hsource ▸ ihu hq
  | difference _ _ hsource _ iht ihu =>
    cases hq with
    | differenceLeft hq => exact iht hq
    | differenceRight hq => exact hsource ▸ ihu hq
  | symbol hb hv _ ih =>
    cases hq with
    | symbol hb' hv' hq =>
      obtain rfl := Option.some.inj (hb.symm.trans hb')
      obtain rfl := BoundValue.selection.inj (hv.symm.trans hv')
      exact ih hq

/-! ## The ids -/

section Valid

variable {failing : List String} {owned : Feature → Prop} (hfs : Closed ev.model fs)
  (hbackend : ev.backend = Symbolic.backend failing) (hs : ev.Sourced owned fs s)
  (hlegible : Description.Legible s.described)
  (hsignature : ∀ f g, owned f → owned g → f.typeName = g.typeName →
    f.arguments.length = g.arguments.length → f.signature = g.signature)
include hfs hbackend hs hlegible hsignature

/-- Whatever is yielded picks sub-shapes that its shape has, and the shape is one for its
source. -/
theorem Yields.valid {e : SelectionExpr} {t : Selection} (h : ev.Yields s e t)
    (he : e.constructions ⊆ fs) :
    t.Valid ∧ (Symbolic.backend failing).Shows owned s t.source t.shape := by
  induction h with
  | @query kind reference filter r result shape ids hback hbuilt hdescend hids =>
    have hshows := hs.shows hback (hfs.target he hback.target) hbuilt hdescend
    rw [hbackend] at hids hshows
    refine ⟨?_, hshows⟩
    cases hshape : shape.shape with
    | symbolic term =>
      have hselect : Filter.select filter (term.counts.count kind) = .ok ids := by
        rw [← hids]
        show _ = Symbolic.select shape kind filter
        rw [Symbolic.select, hshape]
      exact ⟨term, hshape, Filter.select_lt hselect⟩
    | foreign =>
      have hselect : Symbolic.select shape kind filter = .ok ids := hids
      rw [Symbolic.select, hshape] at hselect
      cases hselect
  | @union left right t u _ _ hsource hkind iht ihu =>
    obtain ⟨hleft, hright⟩ := List.append_subset.mp he
    obtain ⟨⟨term, hterm, ht⟩, hshows⟩ := iht hleft
    obtain ⟨⟨term', hterm', hu⟩, hshows'⟩ := ihu hright
    -- Both shapes are shown for one identity.
    have hsame := hshows.sameCounts hlegible hsignature (hsource ▸ hshows') []
    rw [BuildResult.counts?, BuildResult.counts?, hterm, hterm'] at hsame
    have hcounts : term.counts = term'.counts := Option.some.inj hsame
    refine ⟨⟨term, hterm, fun x hx => ?_⟩, hshows⟩
    rcases IdSet.mem_union.mp hx with hx | hx
    · exact ht x hx
    · show x < term.counts.count t.kind
      rw [hcounts, hkind]
      exact hu x hx
  | difference _ _ _ _ iht _ =>
    obtain ⟨⟨term, hterm, ht⟩, hshows⟩ := iht (List.append_subset.mp he).1
    exact ⟨⟨term, hterm, fun x hx => ht x (IdSet.mem_difference.mp hx).1⟩, hshows⟩
  | @symbol name b value t hb hv _ ih =>
    have hsub := hfs.bindings b (Model.mem_of_binding? hb).1
    rw [hv] at hsub
    exact ih hsub

end Valid

/-! ## Combinations -/

end Evaluation

/-! ## Selections in sessions -/

namespace Workbench

variable {registries : Nat → Registry} {failing : List String} {scope : CacheScope}
  {b : Workbench} {id : Nat} {within : Option String} {e left right : SelectionExpr}
  {t : Selection}

/-- Evaluates a selection expression in a session. -/
def select (b : Workbench) (id : Nat) (within : Option String) (e : SelectionExpr) :
    Except Halt Selection × Workbench :=
  b.ask id (.value (.selection within e) True.intro)

def block (serial : Nat) : Feature :=
  .construct "Box" Catalog.box.signature
    [.vector (.literal (.literal 0) (.literal 0) (.literal 0)),
      .vector (.literal (.literal 1) (.literal 1) (.literal 1))] (.made serial) none

end Workbench

end PartScript
