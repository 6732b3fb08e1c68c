/-
  Placements on datums. The datum that closes the arguments of a placement is followed through the
  names bound so far, and refused where it denotes a point or an axis. A bound value uses names only
  that are bound before it, so the walk takes at most as many steps as there are bindings, and what
  is not refused denotes a plane. It does so in every later model too, and evaluation, which follows
  the same names, gives a plane or nothing.
-/
import PartScript.Proofs.Accepted
import PartScript.Proofs.Calls
import PartScript.Proofs.Reworded
import PartScript.Proofs.Scoping
import PartScript.Proofs.Sentences
import PartScript.Proofs.Texts

namespace PartScript

open Grammar Grammar.Parser

variable {registry : Registry} {M M' : Model} {d : DatumExpr} {f : Feature}

/-! ## Datums that denote planes -/

namespace Model

/-- A datum is a plane, or a name that is bound to a datum which denotes one. -/
inductive DenotesPlane (M : Model) : DatumExpr → Prop where
  | plane {origin normal} : DenotesPlane M (.plane origin normal)
  | symbol {name b value} : M.binding? name = some b → b.value = .datum value →
    DenotesPlane M value → DenotesPlane M (.symbol name)

theorem DenotesPlane.extends (hM : M'.Extends M) (h : M.DenotesPlane d) : M'.DenotesPlane d := by
  induction h with
  | plane => exact .plane
  | symbol hb hvalue _ ih => exact .symbol (hM.binding? hb) hvalue ih

theorem datumKind?_symbol {name : String} {b : Binding} {value : DatumExpr}
    (hb : M.binding? name = some b) (hvalue : b.value = .datum value) (n : Nat) :
    datumKind? M (n + 1) (.symbol name) = datumKind? M n value := by
  cases b
  cases hvalue
  simp only [datumKind?, hb]

/-- However far it is followed, it is never found to be a point or an axis. -/
theorem DenotesPlane.datumKind? (h : M.DenotesPlane d) (n : Nat) :
    ∀ kind ∈ Grammar.datumKind? M n d, kind = "plane" := by
  induction h generalizing n with
  | plane =>
    cases n with
    | zero => nofun
    | succ n => exact fun kind hkind => (Option.some.inj hkind).symm
  | symbol hb hvalue _ ih =>
    cases n with
    | zero => nofun
    | succ n =>
      rw [datumKind?_symbol hb hvalue]
      exact ih n

end Model

/-- The walk from a datum that uses names bound before a place comes to its end within more steps
than there are bindings before it: each name leads to a value that was bound before it. What it
finds to be a plane denotes one. -/
theorem Scoped.datumKind? (hM : Scoped registry M.bindings M.outputs) (n : Nat) :
    ∀ {before after d}, M.bindings = before ++ after → d.symbols.DeclaredBy before →
      before.length < n → Grammar.datumKind? M n d = some "point" ∨
        Grammar.datumKind? M n d = some "axis" ∨
        Grammar.datumKind? M n d = some "plane" ∧ M.DenotesPlane d := by
  induction n with
  | zero => exact fun _ _ hn => absurd hn (Nat.not_lt_zero _)
  | succ n ih =>
    intro before after d hsplit hdeclared hn
    cases d with
    | point location => exact .inl rfl
    | axis origin direction => exact .inr (.inl rfl)
    | plane origin normal => exact .inr (.inr ⟨rfl, .plane⟩)
    | symbol name =>
      obtain ⟨b, hb, rfl, hkind⟩ := hdeclared .datum name List.mem_cons_self
      have hfound := hM.binding?_name (hsplit ▸ List.mem_append_left after hb)
      obtain ⟨value, hvalue⟩ : ∃ value, b.value = .datum value := by
        cases hv : b.value <;> rw [hv] at hkind <;> cases hkind
        exact ⟨_, rfl⟩
      obtain ⟨earlier, later, rfl⟩ := List.append_of_mem hb
      rw [List.append_assoc, List.cons_append] at hsplit
      have hearlier := hM.bindings earlier b (later ++ after) hsplit
      rw [hvalue] at hearlier
      rw [List.length_append, List.length_cons] at hn
      rw [Model.datumKind?_symbol hfound hvalue]
      refine (ih hsplit hearlier (by omega)).imp_right (Or.imp_right fun h => ?_)
      exact ⟨h.1, .symbol hfound hvalue h.2⟩

/-- What is found of a datum within one step more than there are bindings is what it denotes. -/
theorem Scoped.denotesPlane_iff (hM : Scoped registry M.bindings M.outputs)
    (hd : d.symbols.DeclaredBy M.bindings) :
    M.DenotesPlane d ↔ Grammar.datumKind? M (M.bindings.length + 1) d = some "plane" := by
  have hfound := hM.datumKind? _ (List.append_nil _).symm hd (Nat.lt_succ_self _)
  constructor
  · intro h
    have hplane := h.datumKind? (M.bindings.length + 1)
    rcases hfound with hpoint | haxis | ⟨hkind, -⟩
    · exact absurd (hplane _ hpoint) (by decide)
    · exact absurd (hplane _ haxis) (by decide)
    · exact hkind
  · intro h
    rcases hfound with hpoint | haxis | ⟨-, hdenotes⟩
    · exact absurd (h.symm.trans hpoint) (by decide)
    · exact absurd (h.symm.trans haxis) (by decide)
    · exact hdenotes

/-- The name of a datum uses that name only. -/
theorem Model.declared_symbol {name : String} (h : M.kindOf? name = some .datum) :
    (DatumExpr.symbol name).symbols.DeclaredBy M.bindings := by
  obtain ⟨b, hb, hkind⟩ := Option.map_eq_some_iff.mp h
  rintro _ _ hused
  obtain ⟨rfl, rfl⟩ := Prod.mk.inj (List.mem_singleton.mp hused)
  exact ⟨b, (mem_of_binding? hb).1, (mem_of_binding? hb).2, hkind⟩

/-! ## Evaluation -/

section Evaluating

variable {ev : Evaluation} {n : Nat} {within : Option String} {s : BuildState}

/-- A datum that denotes a plane evaluates to one, if it evaluates. -/
theorem Model.DenotesPlane.evaluates (h : ev.model.DenotesPlane d) {x : Datum}
    (hrun : ((ev.datum within d).run (ev.answer n) s).1 = .ok x) : ∃ o m, x = .plane o m := by
  induction h generalizing n within s with
  | plane =>
    unfold Evaluation.datum at hrun
    obtain ⟨o, -, hrun⟩ := (Plan.run_bind_ok _ _ _ _ _).mp hrun
    obtain ⟨m, -, hrun⟩ := (Plan.run_bind_ok _ _ _ _ _).mp hrun
    obtain ⟨unit, -, hrun⟩ := (Plan.run_bind_ok _ _ _ _ _).mp hrun
    exact ⟨o, unit, (Except.ok.inj hrun).symm⟩
  | @symbol name b value hb hvalue _ ih =>
    rw [Evaluation.datum_symbol within hb hvalue] at hrun
    replace hrun : (ev.answer n (.datum within value) s).1 = .ok x :=
      (congrArg Prod.fst (Plan.run_own (ev.answer n) (.datum within value) s)).symm.trans hrun
    cases n with
    | zero => cases hrun
    | succ n => exact ih hrun

/-- So the arguments of a placement on it are a feature and a plane. -/
theorem Model.DenotesPlane.arguments (h : ev.model.DenotesPlane d) {base : FeatureRef}
    (hargs : f.arguments = [.feature base, .datum d]) {args : List ResolvedArgument}
    (hrun : ((ev.arguments f).run (ev.answer n) s).1 = .ok args) :
    ∃ r o m, args = [.feature r, .datum (.plane o m)] := by
  unfold Evaluation.arguments at hrun
  rw [hargs] at hrun
  obtain ⟨a, ha, hrun⟩ := (Plan.run_bind_ok _ _ _ _ _).mp hrun
  obtain ⟨r, -, ha⟩ := (Plan.run_bind_ok _ _ _ _ _).mp ha
  obtain rfl := Except.ok.inj ha
  obtain ⟨as, has, hrun⟩ := (Plan.run_bind_ok _ _ _ _ _).mp hrun
  obtain rfl := Except.ok.inj hrun
  obtain ⟨b, hb, hrun⟩ := (Plan.run_bind_ok _ _ _ _ _).mp has
  obtain ⟨x, hx, hb⟩ := (Plan.run_bind_ok _ _ _ _ _).mp hb
  obtain rfl := Except.ok.inj hb
  obtain ⟨rest, hrest, hrun⟩ := (Plan.run_bind_ok _ _ _ _ _).mp hrun
  obtain rfl := Except.ok.inj hrest
  obtain rfl := Except.ok.inj hrun
  obtain ⟨o, m, rfl⟩ := h.evaluates hx
  exact ⟨r, o, m, rfl⟩

end Evaluating

/-! ## Placements that are read -/

/-- A placement of a feature on a datum that denotes a plane. -/
def Feature.OnPlane (M : Model) (f : Feature) : Prop :=
  ∃ base d, f.arguments = [.feature base, .datum d] ∧ M.DenotesPlane d

/-- All placements with two arguments are on planes. -/
def Model.Placed (M : Model) : Prop :=
  ∀ f ∈ M.constructions, f.typeName = Catalog.place.name → f.arguments.length = 2 → f.OnPlane M

/-- A placement with two arguments that a call makes has a datum that was found to be no point and no
axis. -/
theorem Grammar.Makes.place {g : Grammar} (h : g.Makes f)
    (hplace : g.registry.find? Catalog.place.name = some Catalog.place)
    (htype : f.typeName = Catalog.place.name) (hlength : f.arguments.length = 2) :
    ∃ base d, f.arguments = [.feature base, .datum d] ∧
      datumKind? g.model (g.model.bindings.length + 1) d ≠ some "point" ∧
      datumKind? g.model (g.model.bindings.length + 1) d ≠ some "axis" := by
  obtain ⟨name, type, args, origin, hfind, ⟨ask, -, c, rest, hread⟩, hf⟩ := h
  have hname : type.name = name := by simpa using List.find?_some hfind
  obtain rfl : name = Catalog.place.name :=
    hname.symm.trans ((FeatureType.construct_eq hf).1.symm.trans htype)
  obtain rfl := Option.some.inj (hfind.symm.trans hplace)
  obtain ⟨signature, hsignature, hbound⟩ := placementArguments_accepted g c args rest hread
  have hargs : f.arguments = args := by
    have hconstruct : Catalog.place.construct args origin =
        .ok (.construct Catalog.place.name signature args origin none) := by
      simp [FeatureType.construct, Catalog.place, hsignature, hbound, bind, Except.bind, pure,
        Except.pure]
    obtain rfl := Except.ok.inj (hf.symm.trans hconstruct)
    rfl
  rcases placementArguments_at g c args rest hread with hplane | ⟨base, o, x, z, rfl⟩
  · exact hargs ▸ hplane
  · rw [hargs] at hlength
    cases hlength

/-! ## Models that are loaded -/

/-- What reading a text, one statement after the other, keeps of a model. -/
structure Model.Preserved (registry : Registry) (P : Model → Prop) : Prop where
  statement : ∀ {M made reached c parsed rest M' span file source},
    M.Proper registry made reached → P M → Grammar.statement ⟨registry, M⟩ c = .ok parsed rest →
    addStatement M parsed span file source = .ok M' → M'.Continues M → P M'
  nextSource : ∀ {M}, P M → P M.nextSource
  markLoaded : ∀ {M} (path : String), P M → P (M.markLoaded path)

namespace Model.Preserved

variable {P : Model → Prop} {made : List Feature} {file source : String}

theorem statementsFrom (hP : Preserved registry P) {n : Nat} {c : Cursor} {reached : Nat}
    (h : M.Proper registry made reached) (hreached : reached ≤ c.offset) (hM : P M)
    (hM' : Grammar.statementsFrom registry file source n c M = .ok M') : P M' := by
  induction n generalizing M c reached with
  | zero => exact Except.ok.inj hM' ▸ hM
  | succ n ih =>
    rcases statementsFrom_cases hM' with ⟨-, rfl⟩ | ⟨parsed, rest, N, -, hparsed, hadd, hmore⟩
    · exact hM
    · obtain ⟨hw, hfree⟩ := Grammar.statement_reads c.start parsed rest hparsed
      have hstart : reached ≤ c.start.offset := Nat.le_trans hreached (c.offset_le_skip _)
      obtain ⟨hextended, -, hcontinues⟩ := h.addStatement hw hfree hstart hadd
      exact ih hextended (Nat.le_refl _) (hP.statement h hM hparsed hadd hcontinues) hmore

theorem read (hP : Preserved registry P) (h : M.Proper registry made 0) (hM : P M)
    (hM' : M.read registry file source = .ok M') : P M' := by
  obtain ⟨⟨imports, c⟩, -, hM'⟩ := ok_of_bind hM'
  obtain ⟨extended, hread, hM'⟩ := ok_of_bind hM'
  obtain rfl := Except.ok.inj hM'
  exact hP.nextSource (hP.statementsFrom h (Nat.zero_le _) hM hread)

theorem readModules (hP : Preserved registry P) {texts : List (String × String)}
    (h : M.Proper registry made 0) (hM : P M)
    (hM' : Model.readModules registry texts M = .ok M') : P M' := by
  induction texts generalizing M with
  | nil => exact Except.ok.inj hM' ▸ hM
  | cons text rest ih =>
    obtain ⟨path, source⟩ := text
    obtain ⟨extended, hread, hM'⟩ := ok_of_bind hM'
    have hextended := (h.read hread).1
    exact ih (hextended.markLoaded path).1 (hP.markLoaded path (hP.read h hM hread)) hM'

theorem readProject (hP : Preserved registry P) (h : M.Proper registry made 0) (hM : P M)
    {library : Library} {entry : String}
    (hM' : (M.readProject registry library entry).1 = .ok M') : P M' := by
  unfold Model.readProject at hM'
  split at hM'
  · exact hP.readModules h hM hM'
  · cases hM'

/-- What reading keeps, every load keeps. -/
theorem loaded (hP : Preserved registry P) (h : M.Proper registry made 0) (hM : P M) {what : Load}
    (hM' : M.loaded registry what = .ok M') : P M' := by
  cases what with
  | script source =>
    obtain ⟨⟨imports, c⟩, -, hread⟩ := ok_of_bind hM'
    cases imports with
    | nil => exact hP.read h hM hread
    | cons declaration _ => cases hread
  | project entry sources =>
    obtain ⟨library, -, hM'⟩ := ok_of_bind hM'
    exact hP.readProject h hM hM'
  | modules entry library => exact hP.readProject h hM hM'

end Model.Preserved

namespace Workbench

variable {registries : Nat → Registry} {backend : Backend} {scope : CacheScope} {b b' : Workbench}

/-- A model of a session changes only where the session loads, or makes constructions. -/
theorem Step.preserved {P : Model → Prop} {id : Nat} (hP : Model.Preserved (registries id) P)
    (hstep : Step registries b b') (hb : b.Kept registries) (h : P (b.shop.session id).model) :
    P (b'.shop.session id).model := by
  cases hstep with
  | works hworks =>
    cases hworks with
    | load asked what =>
      rcases b.load_eq (registries asked) asked what with heq | ⟨M, hM, heq⟩
      · rw [heq]
        exact h
      · rw [heq, session_rebind]
        split
        · next hsame =>
          subst hsame
          exact hP.loaded (hb.sessions asked).proper h hM
        · exact h
    | @make asked fs =>
      rw [show (b.make asked fs).shop.session id = _ from Workshop.session_setModel _ _ _ _]
      split
      · next hsame => exact hP.nextSource (hsame ▸ h)
      · exact h
    | @ask asked q =>
      rw [model_ask]
      exact h
  | clear asked =>
    rw [show ((b.clear asked).shop.session id).model = _ from
      (Workshop.session_setCache _ _ _ _).1]
    exact h

/-- What reading keeps holds in every session that can be reached, if it holds of the empty model. -/
theorem Reachable.preserved {P : Model → Prop} {id : Nat} (hP : Model.Preserved (registries id) P)
    (hempty : P .empty) (hb : Reachable registries backend scope b) :
    P (b.shop.session id).model := by
  induction hb with
  | refl => exact hempty
  | tail hreachable hstep ih => exact hstep.preserved hP (Reachable.kept hreachable) ih

end Workbench

/-! ## Placements that are loaded -/

namespace Grammar

/-- A grammar, at all places. -/
def everywhere (g : Grammar) : Watch := ⟨g, fun _ => True⟩

theorem everywhere_lawful (g : Grammar) : g.everywhere.Lawful :=
  ⟨fun _ => True.intro, fun _ _ _ => True.intro⟩

/-- All constructions in a statement are made by calls. -/
theorem statement_makes (g : Grammar) (c : Cursor) : (statement g).At c fun parsed _ =>
    ∀ f ∈ parsed.constructions, g.Makes f := by
  intro parsed rest hparsed
  have hfair := Watch.statement g.everywhere_lawful c True.intro
  change g.everywhere.Fair _ (statement g c) at hfair
  rw [hparsed] at hfair
  cases hfair with
  | ok hmade _ => exact hmade

end Grammar

/-- What is said of the type and the arguments of a construction does not depend on its name. -/
theorem Feature.parts_of_unnamed {f' : Feature} (h : f.unnamed = f'.unnamed) :
    f.typeName = f'.typeName ∧ f.arguments = f'.arguments := by
  cases f
  cases f'
  cases h
  exact ⟨rfl, rfl⟩

theorem Feature.symbols_eq (f : Feature) : f.symbols = Argument.symbolsIn f.arguments := by
  cases f
  rfl

theorem Grammar.Statement.constructions_spelled (parsed : Grammar.Statement) :
    Feature.SpelledIn parsed.symbols parsed.constructions := by
  cases parsed with
  | binding name value => exact value.constructions_spelled
  | output feature path => exact feature.constructions_spelled

namespace Model

/-- A statement adds the constructions in it, one of them with the name that it binds. -/
theorem addStatement_constructions {parsed : Grammar.Statement} {span : SourceSpan}
    {file source : String} (h : Grammar.addStatement M parsed span file source = .ok M') :
    ∀ f ∈ M'.constructions,
      f ∈ M.constructions ∨ ∃ f' ∈ parsed.constructions, f.unnamed = f'.unnamed := by
  intro f hf
  cases parsed with
  | binding name value =>
    simp only [Grammar.addStatement, bind?] at h
    split at h
    · next extended hbind =>
      obtain rfl := Except.ok.inj h
      split at hbind
      · obtain rfl := Option.some.inj hbind
        simp only [constructions, List.flatMap_append, List.flatMap_cons, List.flatMap_nil,
          List.append_nil, List.mem_append] at hf ⊢
        rcases hf with (hf | hf) | hf
        · exact .inl (.inl hf)
        · have hnamed := List.mem_map_of_mem (f := Feature.unnamed) hf
          rw [nameValue_constructions] at hnamed
          obtain ⟨f', hf', heq⟩ := List.mem_map.mp hnamed
          exact .inr ⟨f', hf', heq.symm⟩
        · exact .inl (.inr hf)
      · cases hbind
    · cases h
  | output feature path =>
    obtain rfl := Except.ok.inj h
    simp only [constructions, request, List.flatMap_append, List.flatMap_cons, List.flatMap_nil,
      List.append_nil, List.mem_append] at hf ⊢
    rcases hf with hf | hf | hf
    · exact .inl (.inl hf)
    · exact .inl (.inr hf)
    · exact .inr ⟨f, hf, rfl⟩

/-- A placement stays on its plane when more names are bound. -/
theorem Placed.mono (h : M.Placed) (hmore : M'.Extends M) (hsub : M'.constructions ⊆ M.constructions) :
    M'.Placed := by
  intro f hf htype hlength
  obtain ⟨base, d, hargs, hd⟩ := h f (hsub hf) htype hlength
  exact ⟨base, d, hargs, hd.extends hmore⟩

/-- The placements of a statement that is read are on planes, and those before it still are. -/
theorem placed_preserved (hplace : registry.find? Catalog.place.name = some Catalog.place) :
    Preserved registry Placed where
  statement {M made reached c parsed rest M' span file source} h hM hparsed hadd hmore := by
    intro f hf htype hlength
    rcases addStatement_constructions hadd f hf with hold | ⟨f', hf', hnamed⟩
    · obtain ⟨base, d, hargs, hd⟩ := hM f hold htype hlength
      exact ⟨base, d, hargs, hd.extends hmore.toExtends⟩
    · obtain ⟨hsame, harguments⟩ := Feature.parts_of_unnamed hnamed
      rw [hsame] at htype
      rw [harguments] at hlength
      obtain ⟨base, d, hargs, hpoint, haxis⟩ :=
        (Grammar.statement_makes _ c parsed rest hparsed f' hf').place hplace htype hlength
      have hdeclared : f'.symbols.DeclaredBy M.bindings :=
        parsed.constructions_spelled.declared
          (Written.declared (Grammar.statement_reads c parsed rest hparsed).1) f' hf'
      have hsymbols : d.symbols ⊆ f'.symbols := by
        intro used hused
        rw [Feature.symbols_eq, hargs]
        exact List.mem_append_right _ (List.mem_append_left _ hused)
      have hdenotes : M.DenotesPlane d := by
        rcases h.names.datumKind? _ (List.append_nil _).symm (hdeclared.of_subset hsymbols)
          (Nat.lt_succ_self _) with hfound | hfound | ⟨-, hdenotes⟩
        · exact absurd hfound hpoint
        · exact absurd hfound haxis
        · exact hdenotes
      exact ⟨base, d, harguments.trans hargs, hdenotes.extends hmore.toExtends⟩
  nextSource h := h.mono (List.prefix_refl _) (List.Subset.refl _)
  markLoaded {M} path h := by
    unfold markLoaded
    split
    · exact h
    · exact h.mono (List.prefix_refl _) (List.Subset.refl _)

end Model

/-! ## Placements that can be read -/

namespace Grammar

variable {g : Grammar} {c opened e e' : Cursor} {base : FeatureRef} {plane : DatumExpr}

/-- A phrase stands between two places: it is read by its rule, or it can be derived. -/
def Stands (g : Grammar) (rule : Rule) (c : Cursor) (x : rule.Value) (d : Cursor) : Prop :=
  g.parse rule c = .ok x d ∨ g.registry.Composed ∧ g.Derives (.rule rule) c x d

theorem Stands.parse {rule : Rule} {x : rule.Value} (h : g.Stands rule c x e) (he : Closes e) :
    g.parse rule c = .ok x e := by
  rcases h with h | ⟨hreg, h⟩
  · exact h
  · exact (h.parses hreg.unreserved).parse he

/-- The datum that closes the arguments is read up to the parenthesis. -/
theorem placementPlane_ok (h : g.parse .datum c = .ok plane e) (he : e.head? = some ')') :
    placementPlane g.parse c = .ok plane e := by
  refine (bind_ok h).trans ?_
  refine (bind_ok (a := ')') ?_).trans rfl
  unfold ahead
  rw [mark_ok he]

/-- The arguments of a placement on a datum that denotes a plane are read as such. -/
theorem placementArguments_ok (hbase : g.Stands .feature opened base e)
    (hcomma : e.head? = some ',') (hplane : g.Stands .datum e.after plane e')
    (hclose : e'.head? = some ')') (hdenotes : g.model.DenotesPlane plane) :
    placementArguments g g.parse opened = .ok [.feature base, .datum plane] e' := by
  refine (bind_ok (labelled_ok _ (hbase.parse (closes_of_comma hcomma)))).trans ?_
  refine (bind_ok (comma_ok hcomma)).trans ?_
  refine (bind_ok (p := position) rfl).trans ?_
  have hread := placementPlane_ok (hplane.parse (closes_of_paren hclose)) hclose
  refine (bind_ok (optional_ok hread)).trans ?_
  refine (bind_ok (p := position) rfl).trans ?_
  have hkind := hdenotes.datumKind? (g.model.bindings.length + 1)
  cases hfound : datumKind? g.model (g.model.bindings.length + 1) plane with
  | none => rfl
  | some kind =>
    obtain rfl := hkind kind hfound
    rfl

/-- A placement of a feature on a datum that denotes a plane is read in the form with a datum. -/
theorem constructor_place (hplace : g.registry.find? Catalog.place.name = some Catalog.place)
    (hcall : Called c Catalog.place.name opened) (hbase : g.Stands .feature opened base e)
    (hcomma : e.head? = some ',') (hstands : g.Stands .datum e.after plane e')
    (hclose : e'.head? = some ')') (hdenotes : g.model.DenotesPlane plane) :
    constructor g g.parse c = .ok (.construct Catalog.place.name Placement.onPlane
      [.feature base, .datum plane] (.text g.model.sources (.between c.start e'.after)) none)
      e'.after := by
  refine hcall.constructor_ok hplace (placementArguments_ok hbase hcomma hstands hclose hdenotes)
    hclose ?_
  cases hdenotes with
  | plane => rfl
  | symbol => rfl

end Grammar

namespace Workbench

/-- A placement on a datum always gets a plane. In every session, each placement with two arguments
that has been read is one of a feature on a datum which denotes a plane, through however many names
and loads; where the datum is evaluated, and where the arguments of the placement are, it gives a
plane or nothing. What a datum denotes is what is found of it within one step more than there are
bindings. A call with two arguments whose second one denotes a plane is always read so. -/
theorem placements_on_planes {registries : Nat → Registry} {backend : Backend} {scope : CacheScope}
    {b : Workbench} (hb : Reachable registries backend scope b) (id : Nat)
    (hplace : (registries id).find? Catalog.place.name = some Catalog.place) :
    let M := (b.shop.session id).model
    let ev := b.shop.evaluation id
    (∀ f ∈ M.constructions, f.typeName = Catalog.place.name → f.arguments.length = 2 →
      ∃ base d, f.arguments = [.feature base, .datum d] ∧ M.DenotesPlane d ∧
        (∀ n within s x, ((ev.datum within d).run (ev.answer n) s).1 = .ok x →
          ∃ o m, x = .plane o m) ∧
        ∀ n s args, ((ev.arguments f).run (ev.answer n) s).1 = .ok args →
          ∃ r o m, args = [.feature r, .datum (.plane o m)]) ∧
    (∀ d : DatumExpr, d.symbols.DeclaredBy M.bindings →
      (M.DenotesPlane d ↔ datumKind? M (M.bindings.length + 1) d = some "plane")) ∧
    ∀ (g : Grammar) c opened base e plane e',
      g.registry.find? Catalog.place.name = some Catalog.place →
      Called c Catalog.place.name opened → g.Stands .feature opened base e → e.head? = some ',' →
      g.Stands .datum e.after plane e' → e'.head? = some ')' → g.model.DenotesPlane plane →
      constructor g g.parse c = .ok (.construct Catalog.place.name Placement.onPlane
        [.feature base, .datum plane] (.text g.model.sources (.between c.start e'.after)) none)
        e'.after := by
  intro M ev
  have hplaced : M.Placed := hb.preserved (Model.placed_preserved hplace) nofun
  refine ⟨fun f hf htype hlength => ?_,
    fun d => (hb.kept.sessions id).proper.names.denotesPlane_iff,
    fun g c opened base e plane e' hfind hcall hbase hcomma hplane hclose hdenotes =>
      constructor_place hfind hcall hbase hcomma hplane hclose hdenotes⟩
  obtain ⟨base, d, hargs, hdenotes⟩ := hplaced f hf htype hlength
  have hev : ev.model.DenotesPlane d := hdenotes
  exact ⟨base, d, hargs, hdenotes, fun n within s x => hev.evaluates, fun n s args =>
    hev.arguments hargs⟩

/-- The types of a session that places boxes. -/
def boxes : Registry := ⟨[Catalog.box, Catalog.place]⟩

/-- A plane that has further names, one of them from a later script. -/
def renamed : Workbench :=
  ((create boxes (Symbolic.backend []) .session).load boxes 0
    (.script "p = Plane([0, 0, 0], [0, 0, 1]); q = p;")).load boxes 0
    (.script "r = q; b = Box([0, 0, 0], [1, 1, 1]); s = Place(b, (r));")

/-- A call that places the box on the plane by its last name. -/
def placed : Cursor := .ofText "Place(b,(r))"

set_option maxRecDepth 100000 in
/-- The placement in the script is on a plane, and the call can be read. -/
theorem placements_on_planes_renamed :
    (∃ f ∈ (renamed.shop.session 0).model.constructions, f.typeName = Catalog.place.name ∧
      f.OnPlane (renamed.shop.session 0).model) ∧
    ∃ f, constructor ⟨boxes, (renamed.shop.session 0).model⟩
      (Grammar.parse ⟨boxes, (renamed.shop.session 0).model⟩) placed = .ok f (placed.skip 12) ∧
      f.arguments = [.feature (.named "b"), .datum (.symbol "r")] := by
  have hreachable : Reachable (fun _ => boxes) (Symbolic.backend []) .session renamed :=
    (Relation.ReflTransGen.single (.works (.load 0 _))).tail (.works (.load 0 _))
  obtain ⟨hplaced, hdenotes, hread⟩ := placements_on_planes hreachable 0 (by decide)
  have hsome : ((renamed.shop.session 0).model.constructions.find? fun f =>
      f.typeName == Catalog.place.name && f.arguments.length == 2).isSome = true := by
    decide +kernel
  obtain ⟨f, hf⟩ := Option.isSome_iff_exists.mp hsome
  have hfound := List.find?_some hf
  rw [Bool.and_eq_true, beq_iff_eq, beq_iff_eq] at hfound
  have hmem := List.mem_of_find?_eq_some hf
  obtain ⟨base, d, hargs, hd, -⟩ := hplaced f hmem hfound.1 hfound.2
  refine ⟨⟨f, hmem, hfound.1, base, d, hargs, hd⟩, ?_⟩
  have hbound : (renamed.shop.session 0).model.kindOf? "b" = some .feature := by decide +kernel
  have hkind : (renamed.shop.session 0).model.kindOf? "r" = some .datum := by decide +kernel
  have hwalk : datumKind? (renamed.shop.session 0).model
      ((renamed.shop.session 0).model.bindings.length + 1) (.symbol "r") = some "plane" := by
    decide +kernel
  have hplane := (hdenotes (.symbol "r") (Model.declared_symbol hkind)).mpr hwalk
  -- What the call is read with is not computed again for each step of the derivation.
  generalize (renamed.shop.session 0).model = M at hbound hkind hplane
  have hbox : Registry.empty.register Catalog.box = .ok ⟨[Catalog.box]⟩ := rfl
  have hboth : Registry.register ⟨[Catalog.box]⟩ Catalog.place = .ok boxes := rfl
  have hreg : boxes.Composed := .register (.register .empty hbox) hboth
  have hcalled : Called placed Catalog.place.name (placed.skip 6) := ⟨placed.skip 5, rfl, rfl, rfl⟩
  have hbase : Derives ⟨boxes, M⟩ (.rule .feature) (placed.skip 6) (.named "b" : FeatureRef)
      (placed.skip 7) := .featurePrimary (.featureName rfl rfl rfl (.inr hbound))
  have hdatum : Derives ⟨boxes, M⟩ (.rule .datum) (placed.skip 8) (.symbol "r" : DatumExpr)
      (placed.skip 11) := .datumEnclosed (d := placed.skip 10) rfl (.datumName rfl hkind) rfl
  have hconstructor := hread ⟨boxes, M⟩ placed (placed.skip 6) (.named "b") (placed.skip 7)
    (.symbol "r") (placed.skip 11) rfl hcalled (.inr ⟨hreg, hbase⟩) rfl
    (.inr ⟨hreg, hdatum⟩) rfl hplane
  exact ⟨_, hconstructor, rfl⟩

end Workbench

end PartScript
