/-
  Symbol tables are well scoped, and so every name that is used as a value has one. Loading
  admits a statement only if the names that it uses are bound before it, each to a value of
  the kind as which it is used. An evaluation meets no other names than those.
-/
import PartScript.Catalog
import PartScript.Build.Symbolic
import PartScript.Proofs.Invariants

namespace PartScript

/-! ## Symbols of demands -/

namespace Demand

/-- The symbols anywhere in what is demanded. -/
def symbols : Demand → Symbols
  | scalar _ value => value.symbols
  | vector _ value => value.symbols
  | datum _ value => value.symbols
  | selection _ value => value.symbols
  | hash f => f.symbols
  | build f => f.symbols

theorem items_spelled (d : Demand) : Item.Spelled d.symbols d.items := by
  cases d with
  | scalar user value => exact value.items_spelled
  | vector user value => exact value.items_spelled
  | datum user value => exact value.items_spelled
  | selection user value => exact value.items_spelled
  | hash f => exact .nil
  | build f => exact .nil

theorem constructions_spelled (d : Demand) : Feature.SpelledIn d.symbols d.constructions := by
  cases d with
  | scalar user value => exact value.constructions_spelled
  | vector user value => exact value.constructions_spelled
  | datum user value => exact value.constructions_spelled
  | selection user value => exact value.constructions_spelled
  | hash f => exact f.constructions_spelled
  | build f => exact f.constructions_spelled

end Demand

/-- The items of a construction are written with the constructions in it. -/
theorem Feature.items_within (f : Feature) : ItemsWithin f.constructions f.items := by
  rw [f.constructions_eq]
  exact (Argument.itemsIn_within f.arguments).mono (List.subset_cons_self _ _)

theorem Demand.Asks.spelled {M : Model} {d : Demand} {kind : SymbolKind} {name : String}
    (h : d.Asks M (.symbol kind name)) : (kind, name) ∈ d.symbols := by
  cases h with
  | value hitem => exact d.items_spelled kind name hitem
  | hash hitem => exact Feature.items_spelled _ kind name hitem
  | build hitem => exact Feature.items_spelled _ kind name hitem

/-! ## Evaluation in scope -/

theorem Symbols.DeclaredBy.of_subset {symbols more : Symbols} {bs : List Binding}
    (h : more.DeclaredBy bs) (hsub : symbols ⊆ more) : symbols.DeclaredBy bs :=
  fun kind name hmem => h kind name (hsub hmem)

/-- Constructions use names that are bound. -/
def Feature.DeclaredIn (bs : List Binding) (fs : List Feature) : Prop :=
  ∀ f ∈ fs, f.symbols.DeclaredBy bs

theorem Feature.SpelledIn.declared {symbols : Symbols} {fs : List Feature} {bs : List Binding}
    (h : Feature.SpelledIn symbols fs) (hsymbols : symbols.DeclaredBy bs) :
    Feature.DeclaredIn bs fs := fun f hf => hsymbols.of_subset (h f hf)

section Scoped

variable {registry : Registry} {M : Model} (hM : Scoped registry M.bindings M.outputs)
include hM

theorem Scoped.value_declared {b : Binding} (hb : b ∈ M.bindings) :
    b.value.symbols.DeclaredBy M.bindings := by
  obtain ⟨before, after, hsplit⟩ := List.append_of_mem hb
  refine (hM.bindings before b after hsplit).mono ?_
  rw [hsplit]
  exact List.subset_append_left _ _

theorem Scoped.constructions_declared : Feature.DeclaredIn M.bindings M.constructions := by
  intro f hf
  rcases List.mem_append.mp hf with hf | hf
  · obtain ⟨b, hb, hf⟩ := List.mem_flatMap.mp hf
    exact b.value.constructions_spelled.declared (hM.value_declared hb) f hf
  · obtain ⟨output, houtput, hf⟩ := List.mem_flatMap.mp hf
    exact output.feature.constructions_spelled.declared (hM.outputs output houtput) f hf

/-- A binding is found by its name. -/
theorem Scoped.binding?_name {b : Binding} (hb : b ∈ M.bindings) :
    M.binding? b.name = some b := by
  obtain ⟨x, hx⟩ : ∃ x, M.binding? b.name = some x := by
    rw [← Option.isSome_iff_exists, Model.binding?_eq_find?, List.find?_isSome]
    exact ⟨b, hb, beq_self_eq_true _⟩
  obtain ⟨hmem, hname⟩ := Model.mem_of_binding? hx
  rw [hx, List.inj_on_of_nodup_map hM.distinct hmem hb hname]

theorem Scoped.not_lacks {kind : SymbolKind} {name : String} {symbols : Symbols}
    (hsymbols : symbols.DeclaredBy M.bindings) (hmem : (kind, name) ∈ symbols) (e : BuildError) :
    ¬ M.Lacks kind name e := by
  obtain ⟨b, hb, rfl, rfl⟩ := hsymbols kind name hmem
  have hfound := hM.binding?_name hb
  rintro (⟨hnone, -⟩ | ⟨x, hx, hkind⟩)
  · cases hfound.symm.trans hnone
  · obtain rfl := Option.some.inj (hfound.symm.trans hx)
    exact hkind rfl

/-- Where a reference leads is written with names that are bound. -/
theorem Scoped.target_declared {r : FeatureRef} {root : Feature} {path : List String}
    (ht : M.target r = .ok (root, path)) (hr : Feature.DeclaredIn M.bindings r.constructions) :
    root.symbols.DeclaredBy M.bindings := by
  rcases Model.target_root ht with hroot | ⟨b, hb, hroot⟩
  · exact hr root hroot
  · exact b.value.constructions_spelled.declared (hM.value_declared hb) root hroot

/-- What is demanded for an item uses names that are bound, whatever the item is. -/
theorem Item.Makes.declared {user : Option String} {item : Item} {d : Demand}
    (hm : item.Makes M user d) (hitem : Feature.DeclaredIn M.bindings item.constructions) :
    d.symbols.DeclaredBy M.bindings := by
  cases hm with
  | identity ht => exact hM.target_declared ht hitem
  | result ht => exact hM.target_declared ht hitem
  | scalar hb hv | vector hb hv | datum hb hv | selection hb hv =>
    have hdeclared := hM.value_declared (Model.mem_of_binding? hb).1
    rw [hv] at hdeclared
    exact hdeclared

theorem Demand.Asks.declared {d : Demand} {item : Item} (hasks : d.Asks M item)
    (hd : d.symbols.DeclaredBy M.bindings) :
    Feature.DeclaredIn M.bindings item.constructions := by
  have hwritten := d.constructions_spelled.declared hd
  cases hasks with
  | value hitem => exact fun f hf => hwritten f (d.items_within item hitem hf)
  | hash hitem => exact fun f hf => hwritten f (Feature.items_within _ item hitem hf)
  | build hitem => exact fun f hf => hwritten f (Feature.items_within _ item hitem hf)
  | @input g r root path hr ht =>
    have hroot := hM.target_declared ht fun f hf => hwritten f (g.items_within _ hr hf)
    exact root.constructions_spelled.declared hroot

/-- The answer to a demand that uses names that are bound blames no name that is used as a
value. -/
theorem Demand.Fails.blamed {d : Demand} {e : BuildError} (h : d.Fails M e)
    (hd : d.symbols.DeclaredBy M.bindings) {kind : SymbolKind} {name : String}
    (he : e.blamed? = some (kind, name)) : kind = .feature := by
  induction h with
  | stop hasks hexplains =>
    rcases hexplains.blamed kind name he with hfeature | ⟨hmem, hlacks⟩
    · exact hfeature
    · exact absurd hlacks (hM.not_lacks hd (hasks _ hmem).spelled _)
  | input reported hasks hm _ ih =>
    rw [BuildError.blamed?_asInput] at he
    exact ih (hm.declared hM (hasks.declared hM hd)) he
  | entered _ _ => cases he
  | refused f source => cases he

/-- Asking for items blames no other name that is used as a value than one of the items. -/
theorem Model.Fails.blamed {items : List Item} {e : BuildError} (h : M.Fails items e)
    (hitems : ∀ item ∈ items, Feature.DeclaredIn M.bindings item.constructions)
    {kind : SymbolKind} {name : String} (he : e.blamed? = some (kind, name)) :
    kind = .feature ∨ Item.symbol kind name ∈ items ∧ M.kindOf? name ≠ some kind := by
  cases h with
  | stop hexplains =>
    refine (hexplains.blamed kind name he).imp id (And.imp_right fun hlacks => ?_)
    rcases hlacks with ⟨hnone, -⟩ | ⟨b, hb, hkind⟩
    · simp [Model.kindOf?, hnone]
    · simpa [Model.kindOf?, hb] using hkind
  | input reported hitem hm hd =>
    rw [BuildError.blamed?_asInput] at he
    exact .inl (hd.blamed hM (hm.declared hM (hitems _ hitem)) he)

end Scoped

theorem Evaluation.featureNamed_blamed {ev : Evaluation} {name blamed : String} {e : BuildError}
    {kind : SymbolKind} (h : ev.featureNamed name = .error e)
    (he : e.blamed? = some (kind, blamed)) : kind = .feature := by
  unfold featureNamed at h
  cases ht : ev.model.target (.named name) with
  | error e' =>
    rw [ht] at h
    obtain rfl := Except.error.inj h
    exact Model.target_blamed ht he
  | ok t =>
    rw [ht] at h
    change (if t.2.isEmpty then pure t.1 else throw _) = Except.error e at h
    split at h
    · cases h
    · obtain rfl := Except.error.inj h
      cases he

/-- The index has the place of each binding. -/
theorem Model.index_iff {M : Model} (hdistinct : (M.bindings.map (·.name)).Nodup) (name : String)
    (place : Nat) : M.index.get? name = some place ↔
      ∃ b, M.bindings[place]? = some b ∧ b.name = name := by
  rw [M.indexed, List.findIdx?_eq_some_iff_getElem]
  constructor
  · rintro ⟨hlt, hname, -⟩
    exact ⟨M.bindings[place], List.getElem?_eq_getElem hlt, by simpa using hname⟩
  · rintro ⟨b, hb, rfl⟩
    obtain ⟨hlt, rfl⟩ := List.getElem?_eq_some_iff.mp hb
    refine ⟨hlt, beq_self_eq_true _, fun before hbefore heq => ?_⟩
    have hsame := List.inj_on_of_nodup_map hdistinct (List.getElem_mem _) (List.getElem_mem _)
      (beq_iff_eq.mp heq)
    exact absurd ((hdistinct.of_map _).getElem_inj_iff.mp hsame) (Nat.ne_of_lt hbefore)

namespace Workbench

/-- Symbol tables are well scoped. In every session no name is bound twice, and none that means
something else; the index has the place of each binding; and what is bound or requested uses
names only that are bound before it, as values of the kinds that they have. Each statement is
read in the scope of the bindings so far. Hence an evaluation never fails for a name that is
not bound to a value of the kind as which it is used, unless the query itself asks for it. -/
theorem well_scoped {registries : Nat → Registry} {backend : Backend} {scope : CacheScope}
    {b : Workbench} (hb : Reachable registries backend scope b) (id : Nat) :
    let M := (b.shop.session id).model
    Scoped (registries id) M.bindings M.outputs ∧
    (∀ name place, M.index.get? name = some place ↔
      ∃ x, M.bindings[place]? = some x ∧ x.name = name) ∧
    (∀ (g : Grammar) start statement rest, Grammar.statement g start = .ok statement rest →
      statement.Free g ∧ statement.symbols.DeclaredBy g.model.bindings) ∧
    (∀ q : Query, q.constructions ⊆ b.constructions id →
      (∀ f ∈ q.constructions, f ∈ M.constructions ∨ f.symbols.DeclaredBy M.bindings) →
      ∀ e, (b.ask id q).1 = .error (.failed e) →
        ∀ kind name, e.blamed? = some (kind, name) →
          kind = .feature ∨ Item.symbol kind name ∈ q.items M ∧ M.kindOf? name ≠ some kind) ∧
    ∀ name e, (b.shop.evaluation id).featureNamed name = .error e →
      ∀ kind other, e.blamed? = some (kind, other) → kind = .feature := by
  have hkeeps := hb.kept.sessions id
  have hnames := hkeeps.proper.names
  refine ⟨hnames, Model.index_iff hnames.distinct, fun g start statement rest hread => ?_,
    fun q hq hdeclared e he kind name hblamed => ?_, fun name e he kind other hblamed => ?_⟩
  · obtain ⟨hwritten, hfree⟩ := Grammar.statement_reads start statement rest hread
    exact ⟨hfree, Written.declared hwritten⟩
  · have hfails := (hkeeps.accounts_ask hq hkeeps.closed (List.Subset.refl _)).2 e he
    refine hfails.blamed hnames (fun item hitem f hf => ?_) hblamed
    have hwithin := q.items_within (List.subset_append_left _ q.constructions)
      (List.subset_append_right (b.shop.session id).model.constructions _)
    rcases List.mem_append.mp (hwithin item hitem hf) with hf | hf
    · exact hnames.constructions_declared f hf
    · exact (hdeclared f hf).elim (hnames.constructions_declared f) fun h => h
  · exact Evaluation.featureNamed_blamed he hblamed

/-- The name that an answer blames, with the kind as which it was used. -/
def blamed? {α : Type} : Except Halt α → Option (SymbolKind × String)
  | .error (.failed e) => e.blamed?
  | _ => none

theorem of_blamed? {α : Type} {o : Except Halt α} {blamed : SymbolKind × String}
    (h : blamed? o = some blamed) : ∃ e, o = .error (.failed e) ∧ e.blamed? = some blamed := by
  unfold blamed? at h
  split at h
  · next e => exact ⟨e, rfl, h⟩
  · cases h

/-- Values that use each other, and a load that fails. -/
def measured : Workbench :=
  ((create Catalog.registry (Symbolic.backend []) .session).load Catalog.registry 0
    (.script "w = 2; v = [w, 0, 0]; export Sphere(v, w);")).load Catalog.registry 0
    (.script "x = w; y = v + x;")

set_option maxRecDepth 100000 in
/-- Asking for a number as a vector fails for this name, which is bound to a number. -/
theorem well_scoped_measured :
    (∃ x, (measured.shop.session 0).model.bindings[1]? = some x ∧ x.name = "v") ∧
    ("x" ∉ (measured.shop.session 0).model.bindings.map (·.name)) ∧
    (∀ output ∈ (measured.shop.session 0).model.outputs,
      output.feature.symbols.DeclaredBy (measured.shop.session 0).model.bindings) ∧
    blamed? (measured.ask 0 (.named (.vector "w"))).1 = some (.vector, "w") ∧
    (measured.shop.session 0).model.kindOf? "w" ≠ some .vector := by
  have hreachable : Reachable (fun _ => Catalog.registry) (Symbolic.backend []) .session measured :=
    (Relation.ReflTransGen.single (.works (.load 0 _))).tail (.works (.load 0 _))
  obtain ⟨hscoped, hindex, -, hfails, -⟩ := well_scoped hreachable 0
  have hplace : (measured.shop.session 0).model.index.get? "v" = some 1 := by decide +kernel
  have hblamed : blamed? (measured.ask 0 (.named (.vector "w"))).1 = some (.vector, "w") := by
    decide +kernel
  refine ⟨(hindex "v" 1).mp hplace, by decide +kernel, hscoped.outputs, hblamed, ?_⟩
  obtain ⟨e, he, hname⟩ := of_blamed? hblamed
  rcases hfails (.named (.vector "w")) (List.nil_subset _) nofun e he _ _ hname with hfeature | h
  · cases hfeature
  · exact h.2

end Workbench

end PartScript
