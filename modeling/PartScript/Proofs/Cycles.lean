/-
  Circular dependencies are not reported without a cause. An answer that fails for a circular
  dependency leads to a construction that depends on itself, or to a cyclic chain of aliases.
-/
import PartScript.Proofs.Failures

namespace PartScript

open Relation

/-! ## Cycles -/

namespace Model

/-- A construction depends, by any number of steps, on one that depends on itself, or that
mentions a reference with a cyclic chain of aliases. -/
def Tangled (M : Model) (f : Feature) : Prop :=
  ∃ g, ReflTransGen M.DependsOn f g ∧
    (TransGen M.DependsOn g g ∨ ∃ r, M.Mentions g.items r ∧ M.AliasCyclic r)

/-- The items mention a construction that is tangled, or a reference with a cyclic chain of
aliases. -/
def Snarled (M : Model) (items : List Item) : Prop :=
  (∃ g, M.Reaches items g ∧ M.Tangled g) ∨ ∃ r, M.Mentions items r ∧ M.AliasCyclic r

variable {M : Model} {f : Feature} {items more : List Item}

theorem Tangled.of_cycle (h : TransGen M.DependsOn f f) : M.Tangled f := ⟨f, .refl, .inl h⟩

theorem Tangled.of_items (h : M.Snarled f.items) : M.Tangled f := by
  rcases h with ⟨g, hfg, k, hgk, hcycle⟩ | hcyclic
  · exact ⟨k, hgk.head hfg, hcycle⟩
  · exact ⟨f, .refl, .inr hcyclic⟩

theorem Snarled.mono (h : M.Snarled items) (hsub : items ⊆ more) : M.Snarled more := by
  rcases h with ⟨g, ⟨r, path, hr, ht⟩, htangled⟩ | ⟨r, hr, hcyclic⟩
  · exact .inl ⟨g, ⟨r, path, hr.mono hsub, ht⟩, htangled⟩
  · exact .inr ⟨r, hr.mono hsub, hcyclic⟩

/-- One of the items is to blame. -/
theorem Snarled.exists_item (h : M.Snarled items) : ∃ item ∈ items, M.Snarled [item] := by
  rcases h with ⟨g, ⟨r, path, hr, ht⟩, htangled⟩ | ⟨r, hr, hcyclic⟩
  · obtain ⟨item, hitem, hr⟩ := hr.exists_item
    exact ⟨item, hitem, .inl ⟨g, ⟨r, path, hr, ht⟩, htangled⟩⟩
  · obtain ⟨item, hitem, hr⟩ := hr.exists_item
    exact ⟨item, hitem, .inr ⟨r, hr, hcyclic⟩⟩

theorem Knotted.snarled (h : M.Knotted items) : M.Snarled items := by
  obtain ⟨r, hr | hr, hcyclic⟩ := h
  · exact .inr ⟨r, .identity hr, hcyclic⟩
  · exact .inr ⟨r, .result hr, hcyclic⟩

/-- A construction that is asked for directly. -/
theorem snarled_inline {item : Item}
    (hitem : item = .identity (.inline f) ∨ item = .result (.inline f)) (h : M.Snarled [item]) :
    M.Tangled f := by
  have hmentions : ∀ r, M.Mentions [item] r → r = .inline f := by
    intro r hr
    cases hr with
    | identity hr =>
      obtain rfl := List.mem_singleton.mp hr
      rcases hitem with heq | heq <;> cases heq
      rfl
    | result hr =>
      obtain rfl := List.mem_singleton.mp hr
      rcases hitem with heq | heq <;> cases heq
      rfl
    | symbol hname _ _ _ =>
      obtain rfl := List.mem_singleton.mp hname
      rcases hitem with heq | heq <;> cases heq
  rcases h with ⟨g, ⟨r, path, hr, ht⟩, htangled⟩ | ⟨r, hr, name, other, hhead, -⟩
  · obtain rfl := hmentions r hr
    obtain ⟨rfl, -⟩ := Prod.mk.inj (Except.ok.inj ht)
    exact htangled
  · obtain rfl := hmentions r hr
    cases hhead

end Model

/-- A demand leads into a cycle. -/
def Demand.Snarled (M : Model) : Demand → Prop
  | .hash f => M.Tangled f
  | .build f => M.Tangled f
  | d => M.Snarled d.items

theorem Item.Makes.snarled {M : Model} {user : Option String} {item : Item} {d : Demand}
    (hm : item.Makes M user d) (h : d.Snarled M) : M.Snarled [item] := by
  cases hm with
  | @identity r root path ht => exact .inl ⟨root, ⟨r, path, .identity List.mem_cons_self, ht⟩, h⟩
  | @result r root path ht => exact .inl ⟨root, ⟨r, path, .result List.mem_cons_self, ht⟩, h⟩
  | @scalar _ b _ hb hv | @vector _ b _ hb hv | @datum _ b _ hb hv | @selection _ b _ hb hv =>
    have hmentions : ∀ {r}, M.Mentions b.value.items r → M.Mentions [Item.symbol _ _] r :=
      fun hr => .symbol List.mem_cons_self hb (congrArg BoundValue.kind hv) hr
    rw [hv] at hmentions
    rcases h with ⟨g, ⟨r, path, hr, ht⟩, htangled⟩ | ⟨r, hr, hcyclic⟩
    · exact .inl ⟨g, ⟨r, path, hmentions hr, ht⟩, htangled⟩
    · exact .inr ⟨r, hmentions hr, hcyclic⟩

/-! ## Circular dependencies that are reported -/

theorem Demand.Enters.snarled {M : Model} {d : Demand} {f : Feature} (hd : d.Enters f)
    (h : M.Tangled f) : d.Snarled M := by
  rcases hd with rfl | rfl
  · exact h
  · exact h

/-- What is asked for leads into the cycles that the demand leads into. -/
theorem Demand.Asks.snarled {M : Model} {d : Demand} {item : Item} (hasks : d.Asks M item)
    (h : M.Snarled [item]) : d.Snarled M := by
  have hmem : ∀ {items : List Item}, item ∈ items → M.Snarled items := fun hitem =>
    h.mono (List.cons_subset.mpr ⟨hitem, List.nil_subset _⟩)
  cases hasks with
  | value hitem =>
    cases d with
    | hash f => cases hitem
    | build f => cases hitem
    | _ => exact hmem hitem
  | hash hitem => exact Model.Tangled.of_items (hmem hitem)
  | build hitem => exact Model.Tangled.of_items (hmem hitem)
  | @input f r root path hr ht =>
    exact Model.Tangled.of_items (.inl ⟨root, ⟨r, path, .identity hr, ht⟩,
      Model.snarled_inline (.inr rfl) h⟩)

/-- An answer fails for a circular dependency only where the demand leads into a cycle. -/
theorem Demand.Fails.snarled {M : Model} {d : Demand} {e : BuildError} (h : d.Fails M e)
    (hc : e.cause = .circular) : d.Snarled M := by
  induction h with
  | stop hasks hexplains =>
    obtain ⟨item, hitem, hsnarled⟩ := (hexplains.circular hc).snarled.exists_item
    exact (hasks item hitem).snarled hsnarled
  | input reported hasks hm _ ih =>
    rw [BuildError.cause_asInput] at hc
    exact hasks.snarled (hm.snarled (ih hc))
  | entered hd hcycle => exact hd.snarled (.of_cycle hcycle)
  | refused f source => cases hc

theorem Model.Fails.snarled {M : Model} {items : List Item} {e : BuildError}
    (h : M.Fails items e) (hc : e.cause = .circular) : M.Snarled items := by
  cases h with
  | stop hexplains => exact (hexplains.circular hc).snarled
  | input reported hitem hm hd =>
    rw [BuildError.cause_asInput] at hc
    exact (hm.snarled (hd.snarled hc)).mono (List.cons_subset.mpr ⟨hitem, List.nil_subset _⟩)

end PartScript
