/-
  Dependencies of constructions. A construction depends on those that its arguments mention,
  through any names and aliases. What has an identity depends only on constructions that
  have one, and on no cycle.
-/
import PartScript.Proofs.Changes

namespace PartScript

open Relation

namespace Model

/-! ## Mentions -/

/-- A reference is among the items, or among those of a name that they follow. -/
inductive Mentions (M : Model) : List Item → FeatureRef → Prop where
  | identity {items r} : Item.identity r ∈ items → Mentions M items r
  | result {items r} : Item.result r ∈ items → Mentions M items r
  | symbol {items kind name b r} : Item.symbol kind name ∈ items → M.binding? name = some b →
      b.value.kind = kind → Mentions M b.value.items r → Mentions M items r

/-- The items mention a reference that designates a construction. -/
def Reaches (M : Model) (items : List Item) (g : Feature) : Prop :=
  ∃ r path, M.Mentions items r ∧ M.target r = .ok (g, path)

/-- The arguments of one construction mention another. -/
def DependsOn (M : Model) (f g : Feature) : Prop := M.Reaches f.items g

variable {M M' : Model} {items items' : List Item} {r : FeatureRef} {f g : Feature}

theorem Mentions.mono (h : M.Mentions items r) (hsub : items ⊆ items') : M.Mentions items' r := by
  cases h with
  | identity hr => exact .identity (hsub hr)
  | result hr => exact .result (hsub hr)
  | symbol hname hb hkind hr => exact .symbol (hsub hname) hb hkind hr

/-- One of the items mentions the reference. -/
theorem Mentions.exists_item (h : M.Mentions items r) : ∃ item ∈ items, M.Mentions [item] r := by
  cases h with
  | identity hr => exact ⟨_, hr, .identity List.mem_cons_self⟩
  | result hr => exact ⟨_, hr, .result List.mem_cons_self⟩
  | symbol hname hb hkind hr => exact ⟨_, hname, .symbol List.mem_cons_self hb hkind hr⟩

theorem Mentions.cons_iff {item : Item} :
    M.Mentions (item :: items) r ↔ M.Mentions [item] r ∨ M.Mentions items r := by
  constructor
  · intro h
    cases h with
    | identity hr =>
      rcases List.mem_cons.mp hr with rfl | hr
      · exact .inl (.identity List.mem_cons_self)
      · exact .inr (.identity hr)
    | result hr =>
      rcases List.mem_cons.mp hr with rfl | hr
      · exact .inl (.result List.mem_cons_self)
      · exact .inr (.result hr)
    | symbol hname hb hkind hr =>
      rcases List.mem_cons.mp hname with rfl | hname
      · exact .inl (.symbol List.mem_cons_self hb hkind hr)
      · exact .inr (.symbol hname hb hkind hr)
  · rintro (h | h)
    · exact h.mono (List.cons_subset.mpr ⟨List.mem_cons_self, List.nil_subset _⟩)
    · exact h.mono (List.subset_cons_self _ _)

theorem Mentions.extends (hM : M'.Extends M) (h : M.Mentions items r) : M'.Mentions items r := by
  induction h with
  | identity hr => exact .identity hr
  | result hr => exact .result hr
  | symbol hname hb hkind _ ih => exact .symbol hname (hM.binding? hb) hkind ih

theorem Reaches.extends (hM : M'.Extends M) (h : M.Reaches items g) : M'.Reaches items g := by
  obtain ⟨r, path, hr, ht⟩ := h
  refine ⟨r, path, hr.extends hM, ?_⟩
  rcases target_extends hM r with heq | ⟨e, he, -⟩
  · exact heq.trans ht
  · cases he.symm.trans ht

theorem Reaches.cons_iff {item : Item} :
    M.Reaches (item :: items) g ↔ M.Reaches [item] g ∨ M.Reaches items g := by
  constructor
  · rintro ⟨r, path, hr, ht⟩
    exact (Mentions.cons_iff.mp hr).imp (fun h => ⟨r, path, h, ht⟩) fun h => ⟨r, path, h, ht⟩
  · rintro (⟨r, path, hr, ht⟩ | ⟨r, path, hr, ht⟩)
    · exact ⟨r, path, Mentions.cons_iff.mpr (.inl hr), ht⟩
    · exact ⟨r, path, Mentions.cons_iff.mpr (.inr hr), ht⟩

/-- What is mentioned is written with the constructions of a closed collection. -/
theorem Mentions.within {fs : List Feature} (hfs : Closed M fs) (h : M.Mentions items r)
    (hitems : ItemsWithin fs items) : r.constructions ⊆ fs := by
  induction h with
  | identity hr => exact hitems _ hr
  | result hr => exact hitems _ hr
  | @symbol _ _ _ b _ _ hb _ _ ih =>
    exact ih (b.value.items_within.mono (hfs.bindings b (mem_of_binding? hb).1))

theorem Reaches.within {fs : List Feature} (hfs : Closed M fs) (h : M.Reaches items g)
    (hitems : ItemsWithin fs items) : g ∈ fs := by
  obtain ⟨r, path, hr, ht⟩ := h
  exact hfs.target (hr.within hfs hitems) ht

end Model

/-! ## Demands for values -/

/-- The items of the value that is demanded. -/
def Demand.items : Demand → List Item
  | .scalar _ value => value.items
  | .vector _ value => value.items
  | .datum _ value => value.items
  | .selection _ value => value.items
  | .hash _ => []
  | .build _ => []

theorem Demand.items_within (d : Demand) : ItemsWithin d.constructions d.items := by
  cases d with
  | scalar _ value => exact value.items_within
  | vector _ value => exact value.items_within
  | datum _ value => exact value.items_within
  | selection _ value => exact value.items_within
  | hash f => exact .nil _
  | build f => exact .nil _

/-- For whom a value is evaluated. -/
def Demand.user? : Demand → Option String
  | .scalar user _ => user
  | .vector user _ => user
  | .datum user _ => user
  | .selection user _ => user
  | .hash _ => none
  | .build _ => none

/-- The plan for a value asks for its items. -/
theorem Evaluation.value_walks (ev : Evaluation) {d : Demand} (h : d.IsValue) :
    (ev.plan d).Walks ev.model d.user? [] d.items := by
  cases d with
  | scalar user value => exact ev.scalar_walks user [] value
  | vector user value => exact ev.vector_walks user [] value
  | datum user value => exact ev.datum_walks user [] value
  | selection user value => exact ev.selection_walks user [] value
  | hash f => exact h.elim
  | build f => exact h.elim

/-- A value is evaluated anew to every depth. -/
theorem Evaluation.answer_value (ev : Evaluation) {d : Demand} (h : d.IsValue) (n : Nat) :
    ev.answer (n + 1) d = (ev.plan d).run (ev.answer n) := by
  cases d with
  | hash f => exact h.elim
  | build f => exact h.elim
  | _ => rfl

/-- The demand for an item is for what it designates, or for a value that mentions the
same. -/
theorem Item.Makes.mentions {M : Model} {user : Option String} {item : Item} {d : Demand}
    (hm : item.Makes M user d) {r : FeatureRef} (h : M.Mentions [item] r) :
    (∃ root path, M.target r = .ok (root, path) ∧ (d = .hash root ∨ d = .build root)) ∨
      d.IsValue ∧ M.Mentions d.items r := by
  cases h with
  | identity hr =>
    obtain rfl := List.mem_singleton.mp hr
    cases hm with
    | identity ht => exact .inl ⟨_, _, ht, .inl rfl⟩
  | result hr =>
    obtain rfl := List.mem_singleton.mp hr
    cases hm with
    | result ht => exact .inl ⟨_, _, ht, .inr rfl⟩
  | symbol hname hb _ hr =>
    obtain rfl := List.mem_singleton.mp hname
    cases hm with
    | scalar hb' hv | vector hb' hv | datum hb' hv | selection hb' hv =>
      obtain rfl := Option.some.inj (hb.symm.trans hb')
      rw [hv] at hr
      exact .inr ⟨True.intro, hr⟩

/-! ## Dependencies of what has an identity -/

namespace Evaluation

variable {ev : Evaluation} {fs : List Feature} {s s' : BuildState}

/-- What is mentioned by a plan that has a value from what is remembered has an identity or a
result itself. -/
theorem recalls_mentions {α : Type} {p : Plan α} {a : α} (h : p.Recalls ev s a)
    {user : Option String} {known : List StructuralHash} {items : List Item}
    (hp : p.Walks ev.model user known items) {r : FeatureRef} (hr : ev.model.Mentions items r) :
    ∃ root path, ev.model.target r = .ok (root, path) ∧
      ((s.feature root).hash? ≠ none ∨ ∃ result, (s.feature root).progress = .built result) := by
  induction h generalizing user known items with
  | done =>
    cases hp with
    | done => cases hr with
      | identity h => cases h
      | result h => cases h
      | symbol h _ _ _ => cases h
  | @hash _ f _ _ h _ hh _ ih =>
    cases hp with
    | demand hm hnext =>
      rcases Model.Mentions.cons_iff.mp hr with hr | hr
      · rcases hm.mentions hr with ⟨root, path, ht, heq | heq⟩ | ⟨hv, -⟩
        · obtain rfl := Demand.hash.inj heq
          exact ⟨f, path, ht, .inl (by simp [hh])⟩
        · cases heq
        · exact hv.elim
      · exact ih (hnext h) hr
  | @build _ f _ _ result _ hbuilt _ ih =>
    cases hp with
    | demand hm hnext =>
      rcases Model.Mentions.cons_iff.mp hr with hr | hr
      · rcases hm.mentions hr with ⟨root, path, ht, heq | heq⟩ | ⟨hv, -⟩
        · cases heq
        · obtain rfl := Demand.build.inj heq
          exact ⟨f, path, ht, .inr ⟨result, hbuilt⟩⟩
        · exact hv.elim
      · exact ih (hnext result) hr
  | @value _ d _ _ x _ hv _ _ ihx ih =>
    cases hp with
    | demand hm hnext =>
      rcases Model.Mentions.cons_iff.mp hr with hr | hr
      · rcases hm.mentions hr with ⟨root, path, -, rfl | rfl⟩ | ⟨-, hr⟩
        · exact hv.elim
        · exact hv.elim
        · exact ihx (ev.value_walks hv) hr
      · exact ih (hnext x) hr
  | identify _ _ ih =>
    cases hp with
    | identify _ hnext => exact ih (hnext _) hr

/-- A construction whose arguments are remembered depends only on constructions that have an
identity. -/
theorem depends_identified (hfs : Closed ev.model fs) (hs : ev.Recollects fs s) {f g : Feature}
    (hf : f ∈ fs) {args : List ResolvedArgument} (hargs : (ev.arguments f).Recalls ev s args)
    (hdepends : ev.model.DependsOn f g) : g ∈ fs ∧ (s.feature g).hash? ≠ none := by
  have hg := hdepends.within hfs (hfs.items hf)
  obtain ⟨r, path, hr, ht⟩ := hdepends
  obtain ⟨root, path', ht', hroot⟩ := recalls_mentions hargs (ev.arguments_walks [] f) hr
  obtain ⟨rfl, -⟩ := Prod.mk.inj (Except.ok.inj (ht.symm.trans ht'))
  refine ⟨hg, ?_⟩
  rcases hroot with hh | ⟨result, hbuilt⟩
  · exact hh
  · exact hs.built g hg result hbuilt

/-- What has an identity depends on no cycle, however many more names are bound. -/
def Founded (ev : Evaluation) (fs : List Feature) (s : BuildState) : Prop :=
  ∀ M : Model, M.Extends ev.model → Closed M fs → ∀ f ∈ fs, (s.feature f).hash? ≠ none →
    Acc (fun g f => M.DependsOn f g) f

theorem Founded.extends (h : ev.Founded fs s) {M : Model} (hM : M.Extends ev.model) :
    Founded { ev with model := M } fs s :=
  fun M' hM' => h M' (hM'.trans hM)

/-- Giving a construction its identity keeps this. -/
theorem Founded.identified (h : ev.Founded fs s) (hs : ev.Recollects fs s) {f : Feature}
    (hf : f ∈ fs) {args : List ResolvedArgument} (hargs : (ev.arguments f).Recalls ev s args) :
    ev.Founded fs (s.identified f args) := by
  intro M hM hfs g hg hh
  rw [BuildState.feature_identified] at hh
  split at hh
  · next hfg =>
    obtain rfl := hfs.unique f hf g hg hfg
    have hmatches := arguments_matches (Pairing.extension_complete hM).toSound f []
    have hargs' := hargs.extends hM (fun _ _ => ResolvedArgument.forall₂_eq) hmatches
    refine Acc.intro f fun k hk => ?_
    obtain ⟨hkfs, hkh⟩ := depends_identified hfs (hs.extends hM) hf hargs' hk
    exact h M hM hfs k hkfs hkh
  · exact h M hM hfs g hg hh

/-- Nothing has got an identity. -/
theorem Founded.congr (h : ev.Founded fs s)
    (hhash : ∀ f, (s'.feature f).hash? = (s.feature f).hash?) : ev.Founded fs s' := by
  intro M hM hfs f hf hh
  rw [hhash] at hh
  exact h M hM hfs f hf hh

theorem hash_update {f g : Feature} {change : FeatureState → FeatureState}
    (hchange : ∀ a, (change a).hash? = a.hash?) :
    ((s.update f change).feature g).hash? = (s.feature g).hash? := by
  rw [BuildState.feature_update]
  split
  · exact hchange _
  · rfl

theorem Founded.change (h : ev.Founded fs s) (hchange : ev.Change fs s s') :
    ev.Founded fs s' := by
  cases hchange with
  | identify hf hs hargs => exact h.identified hs hf hargs
  | missed _ => exact h.congr fun g => by rw [BuildState.feature_missed]
  | describe _ => exact h
  | hit => exact h
  | hashing f b => exact h.congr fun g => hash_update fun _ => rfl
  | begin _ => exact h.congr fun g => hash_update fun _ => rfl
  | settle _ _ => exact h.congr fun g => hash_update fun _ => rfl
  | invoke request answer _ _ _ => exact h.congr fun g => hash_update fun _ => rfl

end Evaluation

end PartScript
