/-
  What loading leaves in a model. In every loaded model origins tell constructions apart,
  each construction has the signature of its registered type, and bound values only use
  names bound before them. Loading only adds to a model.
-/
import PartScript.Project.Modules
import PartScript.Proofs.Depth
import PartScript.Proofs.Values

namespace PartScript

/-! ## Statements -/

namespace Grammar

open Grammar.Parser

namespace Statement

def constructions : Statement → List Feature
  | binding _ value => value.constructions
  | output feature _ => feature.constructions

def symbols : Statement → Symbols
  | binding _ value => value.symbols
  | output feature _ => feature.symbols

/-- A statement binds no name that means something else or is bound already. -/
def Free (g : Grammar) : Statement → Prop
  | binding name _ =>
    (isReserved name = false ∧ g.registry.contains name = false) ∧ g.model.binding? name = none
  | output _ _ => True

end Statement

instance : Phrase Statement := ⟨Statement.constructions, Statement.symbols⟩

variable {g : Grammar}

theorem semicolon_moves : Moves semicolon := .labelled _ (mark_moves ';')

theorem ended_reads {α : Type} [Phrase α] {p : Parser α} (h : Reads g p) : Reads g (ended p) :=
  .then_skip h (fun _ => semicolon_moves) fun _ _ _ _ ha => ha

theorem boundValue_reads : Reads g (boundValue g) := by
  intro c
  refine .furthestChoice (List.forall_mem_cons.mpr ⟨?_, List.forall_mem_cons.mpr ⟨?_,
    List.forall_mem_cons.mpr ⟨?_, List.forall_mem_cons.mpr ⟨?_,
      List.forall_mem_singleton.mpr ?_⟩⟩⟩⟩)
  · exact .bind (ended_reads (parse_reads .feature) c) fun _ _ ha => .pure ha
  · exact .bind (ended_reads (parse_reads .selection) c) fun _ _ ha => .pure ha
  · exact .bind (ended_reads (parse_reads .datum) c) fun _ _ ha => .pure ha
  · exact .bind (ended_reads (parse_reads .vector) c) fun _ _ ha => .pure ha
  · exact .bind (ended_reads (parse_reads .scalar) c) fun _ _ ha => .pure ha

theorem outputBody_reads (c : Cursor) : (outputBody g).At c fun statement rest =>
    Writes g c statement rest ∧ statement.Free g := by
  have hpath : Moves (optional do
      let _ ← keyword "as"
      committed (labelled "output path" (padded stringLiteral))) :=
    .optional <| .bind (keyword_moves "as") fun _ =>
      .committed (.labelled _ (padded_moves stringLiteral_moves))
  refine .bind (parse_reads .feature c) fun feature r₁ hfeature => ?_
  refine .bind (hpath r₁) fun path r₂ h₂ => ?_
  exact .bind (semicolon_moves r₂) fun _ r₃ h₃ =>
    .pure ⟨hfeature.after (Nat.le_trans h₂ h₃), True.intro⟩

theorem bindingStatement_reads (c : Cursor) : (bindingStatement g).At c fun statement rest =>
    Writes g c statement rest ∧ statement.Free g := by
  refine .bind (trivia_moves c) fun _ start hstart => .here ?_
  refine .bind (Moves.labelled "statement" word_moves start) fun name afterName hname => .here ?_
  refine .bind (Moves.labelled "'='" (mark_moves '=') afterName) fun _ r hr => ?_
  split
  · exact .refuse _ _ _ _
  · next hmeans =>
    split
    · exact .refuse _ _ _ _
    · next hunbound =>
      refine .bind (boundValue_reads.committed r) fun value rest hvalue => .pure ⟨?_, ?_⟩
      · exact hvalue.before (Nat.le_trans hstart (Nat.le_trans hname hr))
      · exact ⟨Bool.or_eq_false_iff.mp (Bool.eq_false_iff.mpr hmeans), hunbound⟩

/-- A statement is written where it is read, and the name that it binds is free. -/
theorem statement_reads (c : Cursor) : (statement g).At c fun statement rest =>
    Writes g c statement rest ∧ statement.Free g := by
  refine .bind (Moves.optional (keyword_moves "export") c) fun found rest hrest => ?_
  cases found with
  | some _ =>
    exact (At.committed (outputBody_reads rest)).imp fun _ _ ha => ⟨ha.1.before hrest, ha.2⟩
  | none => exact (bindingStatement_reads rest).imp fun _ _ ha => ⟨ha.1.before hrest, ha.2⟩

end Grammar

/-! ## Constructions within constructions -/

/-- A collection of constructions that holds those in their arguments. -/
def Feature.Nested (fs : List Feature) : Prop :=
  ∀ f ∈ fs, Argument.constructionsIn f.arguments ⊆ fs

namespace Feature.Nested

variable {fs gs : List Feature}

theorem nil : Nested [] := by simp [Nested]

theorem append (h : Nested fs) (h' : Nested gs) : Nested (fs ++ gs) := by
  intro f hf
  rcases List.mem_append.mp hf with hf | hf
  · exact List.Subset.trans (h f hf) (List.subset_append_left fs gs)
  · exact List.Subset.trans (h' f hf) (List.subset_append_right fs gs)

theorem flatMap {α : Type} {xs : List α} {constructions : α → List Feature}
    (h : ∀ x ∈ xs, Nested (constructions x)) : Nested (xs.flatMap constructions) := by
  induction xs with
  | nil => exact nil
  | cons x xs ih =>
    rw [List.flatMap_cons]
    exact (h x List.mem_cons_self).append (ih fun y hy => h y (List.mem_cons_of_mem x hy))

theorem construct {f : Feature} (h : Nested (Argument.constructionsIn f.arguments)) :
    Nested f.constructions := by
  intro g hg
  rw [f.constructions_eq] at hg ⊢
  rcases List.mem_cons.mp hg with rfl | hg
  · exact List.subset_cons_self _ _
  · exact List.Subset.trans (h g hg) (List.subset_cons_self _ _)

end Feature.Nested

mutual

theorem ScalarExpr.nested : (e : ScalarExpr) → Feature.Nested e.constructions
  | .literal _ => .nil
  | .symbol _ => .nil
  | .neg operand => operand.nested
  | .binary _ left right => left.nested.append right.nested
  | .call _ operand => operand.nested
  | .dot left right => left.nested.append right.nested
  | .magnitude operand => operand.nested
  | .component operand _ => operand.nested
  | .value feature _ => feature.nested

theorem VectorExpr.nested : (e : VectorExpr) → Feature.Nested e.constructions
  | .literal x y z => x.nested.append (y.nested.append z.nested)
  | .symbol _ => .nil
  | .neg operand => operand.nested
  | .add left right => left.nested.append right.nested
  | .sub left right => left.nested.append right.nested
  | .scale operand factor => operand.nested.append factor.nested
  | .divide operand divisor => operand.nested.append divisor.nested
  | .cross left right => left.nested.append right.nested
  | .normalize operand => operand.nested
  | .point feature _ => feature.nested
  | .part datum _ => datum.nested

theorem DatumExpr.nested : (e : DatumExpr) → Feature.Nested e.constructions
  | .point location => location.nested
  | .axis origin direction => origin.nested.append direction.nested
  | .plane origin normal => origin.nested.append normal.nested
  | .symbol _ => .nil

theorem SelectionExpr.nested : (e : SelectionExpr) → Feature.Nested e.constructions
  | .query _ feature _ => feature.nested
  | .union left right => left.nested.append right.nested
  | .difference left right => left.nested.append right.nested
  | .symbol _ => .nil

theorem FeatureRef.nested : (r : FeatureRef) → Feature.Nested r.constructions
  | .named _ => .nil
  | .inline feature => feature.nested
  | .sub base _ => base.nested

theorem Feature.nested : (f : Feature) → Feature.Nested f.constructions
  | .construct _ _ arguments _ _ => .construct (Argument.nestedIn arguments)

theorem Argument.nestedIn : (as : List Argument) → Feature.Nested (Argument.constructionsIn as)
  | [] => .nil
  | argument :: rest => argument.nested.append (Argument.nestedIn rest)

theorem Argument.nested : (a : Argument) → Feature.Nested a.constructions
  | .scalar value => value.nested
  | .vector value => value.nested
  | .datum value => value.nested
  | .feature value => value.nested
  | .selection value => value.nested
  | .keyword _ => .nil

end

theorem BoundValue.nested (v : BoundValue) : Feature.Nested v.constructions := by
  cases v with
  | scalar value => exact value.nested
  | vector value => exact value.nested
  | datum value => exact value.nested
  | feature value => exact value.nested
  | selection value => exact value.nested

theorem Model.nested (M : Model) : Feature.Nested M.constructions :=
  .append (.flatMap fun b _ => b.value.nested) (.flatMap fun output _ => output.feature.nested)

/-! ## Names of constructions -/

/-- A construction without the name of a binding. -/
def Feature.unnamed : Feature → Feature
  | .construct typeName signature arguments origin _ =>
    .construct typeName signature arguments origin none

theorem Feature.unnamed_withName (f : Feature) (name : String) :
    (f.withName name).unnamed = f.unnamed := by
  cases f
  rfl

theorem Feature.unnamed_origin (f : Feature) : f.unnamed.origin = f.origin := by
  cases f
  rfl

theorem Feature.Registered.of_unnamed {registry : Registry} {f g : Feature}
    (h : f.unnamed = g.unnamed) (hf : f.Registered registry) : g.Registered registry := by
  cases f
  cases g
  cases h
  exact hf

namespace Model

/-- Binding a construction directly changes nothing but its name. -/
theorem nameValue_constructions (name : String) (v : BoundValue) :
    (nameValue name v).constructions.map Feature.unnamed =
      v.constructions.map Feature.unnamed := by
  unfold nameValue
  split
  · next f =>
    show (f.withName name).constructions.map _ = f.constructions.map _
    rw [Feature.constructions_eq, Feature.constructions_eq f, List.map_cons, List.map_cons,
      Feature.unnamed_withName]
    cases f
    rfl
  · rfl

theorem nameValue_symbols (name : String) (v : BoundValue) :
    (nameValue name v).symbols = v.symbols := by
  unfold nameValue
  split
  · next f =>
    cases f
    rfl
  · rfl

/-! ## Models that loading leaves -/

/-- Names that are bound before are found before. -/
theorem ordered_of_scoped {registry : Registry} {M : Model}
    (h : Scoped registry M.bindings M.outputs) : M.Ordered := by
  intro name b hb kind used bound hused _
  rw [binding?_eq_find?] at hb
  obtain ⟨hname, before, after, hsplit, hbefore⟩ := List.find?_eq_some_iff_append.mp hb
  obtain ⟨x, hx, rfl, -⟩ :=
    h.bindings before b after hsplit kind used (b.value.items_spelled kind used hused)
  have hrank : M.rank name = before.length := by
    have hnone : before.findIdx (·.name == name) = before.length :=
      List.findIdx_eq_length.mpr fun y hy => by simpa using hbefore y hy
    unfold rank
    rw [hsplit, List.findIdx_append, hnone, if_neg (Nat.lt_irrefl _), List.findIdx_cons, hname]
    exact Nat.zero_add _
  have hlt : before.findIdx (·.name == x.name) < before.length :=
    List.findIdx_lt_length_of_exists ⟨x, hx, by simp⟩
  rw [hrank]
  unfold rank
  rw [hsplit, List.findIdx_append, if_pos hlt]
  exact hlt

/-- A name that is not bound is the name of no binding. -/
theorem ne_of_binding?_none {M : Model} {name : String} (h : M.binding? name = none) :
    ∀ b ∈ M.bindings, b.name ≠ name := by
  rw [binding?_eq_find?, List.find?_eq_none] at h
  exact fun b hb heq => h b hb (by simpa using heq)

end Model

/-- An origin in a text or construction before number `source`, or in text `source` before
place `reached`. -/
def Origin.IsBefore (source reached : Nat) : Origin → Prop
  | .text number span => number < source ∨ number = source ∧ span.start < reached
  | .made serial => serial < source

/-- A model that loading leaves, beside constructions that were made without it: origins tell
constructions apart, and constructions in the model have the signatures of their types. The
text that is being read has been read up to `reached`. -/
structure Model.Proper (registry : Registry) (M : Model) (made : List Feature) (reached : Nat) :
    Prop where
  origins : ∀ f ∈ M.constructions ++ made, f.origin.IsBefore M.sources reached
  distinct : ((M.constructions ++ made).map (·.origin)).Nodup
  registered : ∀ f ∈ M.constructions, f.Registered registry
  enclosed : ∀ f ∈ made, Argument.constructionsIn f.arguments ⊆ M.constructions ++ made
  names : Scoped registry M.bindings M.outputs

/-- Loading has added to a model. -/
structure Model.Continues (M' M : Model) : Prop where
  bindings : M.bindings <+: M'.bindings
  outputs : M.outputs <+: M'.outputs

namespace Model.Continues

variable {M M' M'' : Model}

theorem refl (M : Model) : M.Continues M := ⟨List.prefix_refl _, List.prefix_refl _⟩

theorem trans (h' : M''.Continues M') (h : M'.Continues M) : M''.Continues M :=
  ⟨h.bindings.trans h'.bindings, h.outputs.trans h'.outputs⟩

theorem toExtends (h : M'.Continues M) : M'.Extends M := h.bindings

theorem constructions (h : M'.Continues M) : M.constructions ⊆ M'.constructions := by
  unfold Model.constructions
  obtain ⟨bindings, hbindings⟩ := h.bindings
  obtain ⟨outputs, houtputs⟩ := h.outputs
  rw [← hbindings, ← houtputs, List.flatMap_append, List.flatMap_append]
  intro f hf
  simp only [List.mem_append] at hf ⊢
  exact hf.imp .inl .inl

end Model.Continues

/-! ## Reading -/

namespace Model.Proper

variable {registry : Registry} {M M' : Model} {made : List Feature} {reached : Nat}

theorem empty (registry : Registry) : Model.empty.Proper registry [] 0 where
  origins := by simp [Model.empty, constructions]
  distinct := List.nodup_nil
  registered := by simp [Model.empty, constructions]
  enclosed := by simp
  names := .empty registry

/-- The constructions of a proper model are a collection in which evaluation stays. -/
theorem closed (h : M.Proper registry made reached) : Closed M (M.constructions ++ made) where
  bindings := fun b hb f hf => List.mem_append_left _ <| List.mem_append_left _ <|
    List.mem_flatMap.mpr ⟨b, hb, hf⟩
  arguments := fun f hf => by
    rcases List.mem_append.mp hf with hf | hf
    · exact List.Subset.trans (M.nested f hf) (List.subset_append_left _ _)
    · exact h.enclosed f hf
  unique := fun _ hf _ hg heq => List.inj_on_of_nodup_map h.distinct hf hg heq

/-- A phrase of the text that is being read is added. -/
theorem write (h : M.Proper registry made reached) {lo hi : Nat} {fs fs' : List Feature}
    {symbols : Symbols} (hw : Written ⟨registry, M⟩ lo hi fs symbols) (hlo : reached ≤ lo)
    (hnames : fs'.map Feature.unnamed = fs.map Feature.unnamed) (hsources : M'.sources = M.sources)
    (hperm : M'.constructions.Perm (M.constructions ++ fs'))
    (hscoped : Scoped registry M'.bindings M'.outputs) : M'.Proper registry made hi := by
  have horigins : fs'.map (·.origin) = fs.map (·.origin) := by
    have hmap := congrArg (List.map (·.origin)) hnames
    simpa [List.map_map, Function.comp_def, Feature.unnamed_origin] using hmap
  have hall : ((M'.constructions ++ made).map (·.origin)).Perm
      ((M.constructions ++ made).map (·.origin) ++ fs.map (·.origin)) := by
    rw [← horigins, ← List.map_append]
    refine List.Perm.map _ ((hperm.append_right made).trans ?_)
    rw [List.append_assoc, List.append_assoc]
    exact List.perm_append_comm.append_left _
  have hnew : ∀ origin ∈ fs.map (·.origin), ∃ span : SourceSpan,
      origin = .text M.sources span ∧ lo ≤ span.start ∧ span.start < hi := by
    intro origin horigin
    obtain ⟨f, hf, rfl⟩ := List.mem_map.mp horigin
    exact hw.origins f hf
  have hold : ∀ origin ∈ (M.constructions ++ made).map (·.origin),
      origin.IsBefore M.sources reached := by
    intro origin horigin
    obtain ⟨f, hf, rfl⟩ := List.mem_map.mp horigin
    exact h.origins f hf
  have hle := hw.le
  refine ⟨fun f hf => ?_, ?_, fun f hf => ?_, fun f hf => ?_, hscoped⟩
  · rw [hsources]
    rcases List.mem_append.mp (hall.subset (List.mem_map_of_mem hf)) with horigin | horigin
    · have hbefore := hold _ horigin
      cases ho : f.origin with
      | text number span =>
        rw [ho] at hbefore
        exact hbefore.imp id fun ⟨heq, hlt⟩ => ⟨heq, by omega⟩
      | made serial =>
        rw [ho] at hbefore
        exact hbefore
    · obtain ⟨span, ho, -, hlt⟩ := hnew _ horigin
      rw [ho]
      exact .inr ⟨rfl, hlt⟩
  · refine hall.nodup_iff.mpr (List.Nodup.append h.distinct hw.distinct fun origin ho ho' => ?_)
    have hbefore := hold origin ho
    obtain ⟨span, rfl, hstart, -⟩ := hnew origin ho'
    rcases hbefore with hlt | ⟨-, hlt⟩
    · exact Nat.lt_irrefl _ hlt
    · omega
  · rcases List.mem_append.mp (hperm.subset hf) with hf | hf
    · exact h.registered f hf
    · have hmem := List.mem_map_of_mem (f := Feature.unnamed) hf
      rw [hnames] at hmem
      obtain ⟨g, hg, heq⟩ := List.mem_map.mp hmem
      exact (hw.registered g hg).of_unnamed heq
  · intro g hg
    have hmore : M.constructions ++ made ⊆ M'.constructions ++ made := by
      refine List.append_subset.mpr ⟨?_, List.subset_append_right _ _⟩
      intro x hx
      exact List.mem_append_left _ (hperm.symm.subset (List.mem_append_left _ hx))
    exact hmore (h.enclosed f hf hg)

theorem addStatement (h : M.Proper registry made reached) {c rest : Cursor}
    {statement : Grammar.Statement} (hw : Grammar.Writes ⟨registry, M⟩ c statement rest)
    (hfree : statement.Free ⟨registry, M⟩) (hreached : reached ≤ c.offset) {span : SourceSpan}
    {file source : String}
    (hM' : Grammar.addStatement M statement span file source = .ok M') :
    M'.Proper registry made rest.offset ∧ M'.sources = M.sources ∧ M'.Continues M := by
  have hdeclared : statement.symbols.DeclaredBy M.bindings := Written.declared hw
  cases statement with
  | binding name value =>
    simp only [Grammar.addStatement, bind?] at hM'
    split at hM'
    · next extended hbind =>
      obtain rfl := Except.ok.inj hM'
      split at hbind
      · obtain rfl := Option.some.inj hbind
        refine ⟨h.write hw hreached (nameValue_constructions name value) rfl ?_ ?_, rfl,
          List.prefix_append _ _, List.prefix_refl _⟩
        · simp only [constructions, List.flatMap_append, List.flatMap_cons, List.flatMap_nil,
            List.append_nil]
          rw [List.append_assoc, List.append_assoc]
          exact List.perm_append_comm.append_left _
        · refine h.names.bind hfree.1 (ne_of_binding?_none hfree.2) ?_
          rw [nameValue_symbols]
          exact hdeclared
      · cases hbind
    · cases hM'
  | output feature path =>
    obtain rfl := Except.ok.inj hM'
    refine ⟨h.write hw hreached rfl rfl ?_ (h.names.request hdeclared), rfl,
      List.prefix_refl _, List.prefix_append _ _⟩
    simp only [constructions, request, List.flatMap_append, List.flatMap_cons, List.flatMap_nil,
      List.append_nil]
    rw [List.append_assoc]
    exact List.Perm.refl _

theorem statementsFrom {file source : String} {n : Nat} {c : Cursor}
    (h : M.Proper registry made reached) (hreached : reached ≤ c.offset)
    (hM' : Grammar.statementsFrom registry file source n c M = .ok M') :
    (∃ last, M'.Proper registry made last) ∧ M'.Continues M := by
  induction n generalizing M c reached with
  | zero =>
    obtain rfl := Except.ok.inj hM'
    exact ⟨⟨reached, h⟩, .refl M⟩
  | succ n ih =>
    unfold Grammar.statementsFrom at hM'
    extract_lets start g at hM'
    have hstart : c.offset ≤ start.offset := c.offset_le_skip _
    split at hM'
    · obtain rfl := Except.ok.inj hM'
      exact ⟨⟨reached, h⟩, .refl M⟩
    · split at hM'
      · cases hM'
      · split at hM'
        · next parsed rest hparsed =>
          obtain ⟨extended, hadd, hM'⟩ := ok_of_bind hM'
          obtain ⟨hw, hfree⟩ := Grammar.statement_reads start parsed rest hparsed
          obtain ⟨hextended, -, hmore⟩ :=
            h.addStatement hw hfree (Nat.le_trans hreached hstart) hadd
          obtain ⟨hlast, hcontinues⟩ := ih hextended (Nat.le_refl _) hM'
          exact ⟨hlast, hcontinues.trans hmore⟩
        · cases hM'
        · cases hM'

/-- What follows a text has the next number. -/
theorem nextSource (h : M.Proper registry made reached) : M.nextSource.Proper registry made 0 where
  origins := fun f hf => by
    have hbefore := h.origins f hf
    cases ho : f.origin with
    | text number span =>
      rw [ho] at hbefore
      left
      rcases hbefore with hlt | ⟨rfl, -⟩
      · exact Nat.lt_succ_of_lt hlt
      · exact Nat.lt_succ_self _
    | made serial =>
      rw [ho] at hbefore
      exact Nat.lt_succ_of_lt hbefore
  distinct := h.distinct
  registered := h.registered
  enclosed := h.enclosed
  names := h.names

theorem read (h : M.Proper registry made 0) {file source : String}
    (hM' : M.read registry file source = .ok M') :
    M'.Proper registry made 0 ∧ M'.Continues M := by
  obtain ⟨⟨imports, c⟩, -, hM'⟩ := ok_of_bind hM'
  obtain ⟨extended, hread, hM'⟩ := ok_of_bind hM'
  obtain rfl := Except.ok.inj hM'
  obtain ⟨⟨last, hlast⟩, hcontinues⟩ := h.statementsFrom (Nat.zero_le _) hread
  exact ⟨hlast.nextSource, hcontinues.bindings, hcontinues.outputs⟩

theorem markLoaded (h : M.Proper registry made reached) (path : String) :
    (M.markLoaded path).Proper registry made reached ∧ (M.markLoaded path).Continues M := by
  unfold Model.markLoaded
  split
  · exact ⟨h, .refl M⟩
  · exact ⟨⟨h.origins, h.distinct, h.registered, h.enclosed, h.names⟩, List.prefix_refl _,
      List.prefix_refl _⟩

theorem readModules {texts : List (String × String)} (h : M.Proper registry made 0)
    (hM' : Model.readModules registry texts M = .ok M') :
    M'.Proper registry made 0 ∧ M'.Continues M := by
  induction texts generalizing M with
  | nil =>
    obtain rfl := Except.ok.inj hM'
    exact ⟨h, .refl M⟩
  | cons text rest ih =>
    obtain ⟨path, source⟩ := text
    obtain ⟨extended, hread, hM'⟩ := ok_of_bind hM'
    obtain ⟨hextended, hcontinues⟩ := h.read hread
    obtain ⟨hmarked, hmore⟩ := hextended.markLoaded path
    obtain ⟨hlast, hlater⟩ := ih hmarked hM'
    exact ⟨hlast, hlater.trans (hmore.trans hcontinues)⟩

/-- A project that is loaded leaves a proper model that continues the one before. -/
theorem readProject (h : M.Proper registry made 0) {library : Library} {entry : String}
    (hM' : (M.readProject registry library entry).1 = .ok M') :
    M'.Proper registry made 0 ∧ M'.Continues M := by
  unfold Model.readProject at hM'
  split at hM'
  · exact h.readModules hM'
  · cases hM'

/-- A script that is loaded leaves a proper model that continues the one before. -/
theorem readScript (h : M.Proper registry made 0) {source : String}
    (hM' : M.readScript registry source = .ok M') :
    M'.Proper registry made 0 ∧ M'.Continues M := by
  obtain ⟨⟨imports, c⟩, -, hM'⟩ := ok_of_bind hM'
  cases imports with
  | nil => exact h.read hM'
  | cons declaration _ => cases hM'

end Model.Proper

end PartScript
