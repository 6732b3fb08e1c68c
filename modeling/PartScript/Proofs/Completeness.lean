/-
  Every sentence is read. Where a phrase can be derived and a mark that closes it follows, the rule
  for it reads just that phrase and gives the tree of the derivation, however deep it is.

  A derivation tells which alternative has to be taken; those tried before it stop, because what
  begins at a place is of one kind and a name is a call only where a parenthesis follows. A sum
  or product is read from the left: what has been read of it so far is what its loop goes on with.
-/
import PartScript.Proofs.Derivation
import PartScript.Proofs.Unambiguous

namespace PartScript

namespace Grammar

open Grammar.Parser

variable {g : Grammar} {c d e : Cursor} {kind : SymbolKind} {name : String} {α β : Type}

/-! ## Words -/

theorem Word.identifier (h : Word c name d) :
    ∃ e, Grammar.identifier c.start = .ok name e ∧ d = e.start := ok_of_padded h

theorem Word.head? (h : Word c name d) : ∃ ch, c.head? = some ch ∧ isWordStart ch = true := by
  obtain ⟨e, he, -⟩ := h.identifier
  exact head?_of_identifier he

theorem Word.not_head? (h : Word c name d) {ch : Char} (hch : isWordStart ch = false) :
    c.head? ≠ some ch := by
  obtain ⟨ch', hhead, hstart⟩ := h.head?
  rw [hhead]
  rintro heq
  rw [Option.some.inj heq, hch] at hstart
  cases hstart

/-- No number begins with a word. -/
theorem Word.number_stops (h : Word c name d) : number.Stops c := by
  refine Grammar.number_stops fun {ch} hch => ?_
  obtain ⟨ch', hhead, hstart⟩ := h.head?
  rw [Option.some.inj (hch.symm.trans hhead)]
  exact not_number_of_wordStart hstart

theorem Word.shortens (h : Word c name d) : d.rest.length < c.rest.length :=
  ((padded_agree identifier_agree c (Nat.lt_succ_self _)).2 name d h).shorter

theorem Called.not_sign (h : Called c name d) : c.head? ≠ some '-' := by
  obtain ⟨_, hword, -, -⟩ := h
  exact hword.not_head? (by decide)

theorem Word.enclosed_stops {p q : Parser α} (h : Word c name d) (hp : Encloses p q) :
    p.Stops c := hp.stops fun hparen => absurd hparen (h.not_head? (by decide))

section AfterWord

variable {f : Cursor → String → Parser α}

/-- A rule that begins with a word goes on after it. -/
theorem Word.goes_on (h : Word c name d) : ∃ e, e.start = d ∧
    (do
      trivia
      let start ← position
      let name ← Grammar.identifier
      f start name) c = f c.start name e := by
  obtain ⟨e, he, hd⟩ := h.identifier
  exact ⟨e, hd.symm, bind_ok (c := c.start) he⟩

theorem Word.then_ok (h : Word c name d) {a : α} {last : Cursor}
    (hf : ∀ e, e.start = d → f c.start name e = .ok a last) :
    (do
      trivia
      let start ← position
      let name ← Grammar.identifier
      f start name) c = .ok a last := by
  obtain ⟨e, he, hbind⟩ := h.goes_on (f := f)
  exact hbind.trans (hf e he)

theorem Word.then_stops (h : Word c name d)
    (hf : ∀ e, e.start = d → (f c.start name).Stops e) :
    (do
      trivia
      let start ← position
      let name ← Grammar.identifier
      f start name).Stops c := by
  obtain ⟨e, he, hbind⟩ := h.goes_on (f := f)
  exact Ends.of_eq hbind (hf e he)

/-- A word that is not called is no call. -/
theorem Word.call_stops (h : Word c name d) (hd : ¬ AtParen d) :
    (do
      trivia
      let start ← position
      let name ← Grammar.identifier
      let _ ← mark '('
      f start name).Stops c := by
  refine h.then_stops fun e he => Stops.bind (mark_stops fun hparen => hd ?_)
  rw [← he]
  exact e.head?_start.trans hparen

/-- A rule that begins with a call goes on after its parenthesis. -/
theorem Called.goes_on (h : Called c name d) :
    (do
      trivia
      let start ← position
      let name ← Grammar.identifier
      let _ ← mark '('
      f start name) c = f c.start name d := by
  obtain ⟨e, hword, hparen, rfl⟩ := h
  obtain ⟨e', rfl, hbind⟩ := hword.goes_on (f := fun start name => do
    let _ ← mark '('
    f start name)
  rw [e'.head?_start] at hparen
  rw [e'.after_start]
  exact hbind.trans (bind_ok (mark_ok hparen))

end AfterWord

theorem Word.symbol (h : Word c name d) (hkind : g.model.kindOf? name = some kind) :
    Grammar.symbol g kind c = .ok name d := by
  refine h.then_ok fun e he => ?_
  rw [if_pos hkind, ← he]
  rfl

/-! ## Alternatives -/

/-- What stands between a phrase and what follows an access to it. -/
theorem access_ok {q : Parser α} {f : Cursor → α → Parser β} {ch : Char} {a : α}
    (hstart : Match Eq (q c.start) (q c)) (h : q c = .ok a d) (hd : d.head? = some ch) :
    (do
      trivia
      let start ← position
      let a ← q
      let _ ← orReject start (mark ch)
      f start a) c = f c.start a d.after := by
  show (q >>= _) c.start = _
  obtain ⟨b, hb⟩ := hstart.symm.exists_ok h
  obtain ⟨rfl, -⟩ := Outcome.ok.inj ((hstart.of_ok hb).symm.trans h)
  rw [bind_ok hb, bind_ok (orReject_ok _ (mark_ok hd))]
  rfl

theorem closing_ok {bracket : Char} (h : c.head? = some bracket) :
    closing bracket c = .ok bracket c.after := labelled_ok _ (mark_ok h)

theorem comma_ok (h : c.head? = some ',') : comma c = .ok ',' c.after := labelled_ok _ (mark_ok h)

section Primaries

variable (hreg : g.registry.Unreserved)

include hreg in
theorem Begins.only_all (h : g.Begins c kind) : g.Only c kind :=
  h.only hreg fun e _ => separate hreg e

include hreg in
/-- Nothing in parentheses is of two kinds. -/
theorem Begins.stops_of_encloses {other : SymbolKind} (h : g.Begins c other)
    (hne : other ≠ kind) {p : Parser kind.rule.Value} (hp : Encloses p (g.parse kind.rule)) :
    p.Stops c :=
  h.enclosed_stops (fun _ _ _ he hclose => (separate hreg c.after).not_enclosed hne he hclose) hp

theorem begins_of_enclosed {a : kind.rule.Value} (hc : c.head? = some '(')
    (h : g.parse kind.rule c.after = .ok a d) (hd : d.head? = some ')') : g.Begins c kind :=
  ⟨fun _ => ⟨a, d, h, hd⟩, fun hparen => absurd hc hparen⟩

theorem begins_of_word (h : Word c name d) (hkind : g.nameKind name = kind)
    (hd : ¬ AtParen d) : g.Begins c kind := by
  obtain ⟨e, he, rfl⟩ := h.identifier
  refine ⟨fun hparen => absurd hparen (h.not_head? (by decide)), fun _ => ?_⟩
  rw [kindAt_name he fun hparen => hd (e.head?_start.trans hparen), hkind]

theorem nameKind_of_kindOf? (h : g.model.kindOf? name = some kind) : g.nameKind name = kind := by
  rw [nameKind, h]
  rfl

/-! ### Scalars -/

theorem scalarPrimary_number {value : Float} (h : number c = .ok value d) :
    scalarPrimary g g.parse c = .ok (.literal value) d := labelled_ok _ (choice_ok (bind_ok h))

theorem scalarPrimary_call {x : ScalarExpr} (hcall : Called c name e)
    (h : scalarCall g.parse c = .ok x d) : scalarPrimary g g.parse c = .ok x d := by
  obtain ⟨_, hword, -, -⟩ := hcall
  exact labelled_ok _ (choice_skip hword.number_stops.bind (choice_ok h))

/-- No number and no call of a scalar stands where a phrase of another kind does. -/
theorem scalarPrimary_of_elsewhere {x : ScalarExpr} (helse : g.Elsewhere c .scalar)
    (h : choice [
      component g g.parse,
      parenthesized g.parse.scalar,
      featureValue g g.parse,
      return .symbol (← symbol g .scalar)] c = .ok x d) :
    scalarPrimary g g.parse c = .ok x d := by
  refine labelled_ok _ (choice_skip (number_stops helse.not_number).bind ?_)
  exact choice_skip (scalarCall_stops helse) h

section

variable (hreg : g.registry.Unreserved)
include hreg

theorem scalarPrimary_component {x : VectorExpr} {which : Component}
    (h : vectorPrimary g g.parse c = .ok x d) (hd : d.head? = some '.')
    (hword : Word d.after name e) (hmem : (name, which) ∈ Component.named) :
    scalarPrimary g g.parse c = .ok (.component x which) e := by
  have helse : g.Elsewhere c .scalar := by
    rcases vectorPrimary_cases hreg h (not_atParen hd (by decide)) with hb | ⟨hb, -⟩ | ⟨hb, -⟩
    · exact hb.elsewhere nofun
    · exact hb.elsewhere nofun
    · exact hb.elsewhere nofun
  refine scalarPrimary_of_elsewhere helse (choice_ok ?_)
  have hlookup : ∀ p ∈ Component.named, Component.named.lookup p.1 = some p.2 := by decide
  refine (access_ok (vectorPrimary_start g c) h hd).trans ?_
  rw [bind_ok hword, hlookup _ hmem]
  rfl

theorem scalarPrimary_enclosed {x : ScalarExpr} (hc : c.head? = some '(')
    (h : g.parse .scalar c.after = .ok x d) (hd : d.head? = some ')') :
    scalarPrimary g g.parse c = .ok x d.after := by
  have hb : g.Begins c .scalar := begins_of_enclosed hc h hd
  have hvector := vectorPrimary_of_begins hreg (fun e _ => separate hreg e) hb
  refine scalarPrimary_of_elsewhere (.inl hc) ?_
  refine choice_skip (component_stops (hvector.imp fun _ he => he.head?_ne (by decide))) ?_
  exact choice_ok ((parenthesized_encloses _).ok hc h hd)

theorem scalarPrimary_value {x : FeatureRef} (h : featureOver g g.parse c = .ok x d)
    (hd : d.head? = some '$') (hword : Word d.after name e) :
    scalarPrimary g g.parse c = .ok (.value x name) e := by
  have hparen : ¬ AtParen d := not_atParen hd (by decide)
  have hb := begins_of_feature hreg h hparen
  have hvector := vectorPrimary_of_feature hreg (fun e _ => separate hreg e) h hparen
    (by rw [hd]; decide)
  refine scalarPrimary_of_elsewhere (hb.elsewhere nofun) ?_
  refine choice_skip (component_stops (hvector.imp fun _ he => he.head?_ne (by decide))) ?_
  have hkind : SymbolKind.feature ≠ .scalar := nofun
  refine choice_skip (hb.stops_of_encloses hreg hkind (parenthesized_encloses _)) (choice_ok ?_)
  refine (access_ok (feature_start g c) h hd).trans ?_
  rw [bind_ok (committed_ok (labelled_ok _ hword))]
  rfl

theorem scalarPrimary_symbol (hword : Word c name d)
    (hkind : g.model.kindOf? name = some .scalar) (hd : ¬ AtParen d) :
    scalarPrimary g g.parse c = .ok (.symbol name) d := by
  have hb := begins_of_word hword (nameKind_of_kindOf? hkind) hd
  have hvector := vectorPrimary_of_begins hreg (fun e _ => separate hreg e) hb
  have hfeature := feature_ends (hb.only_all hreg .feature nofun)
  refine labelled_ok _ (choice_skip hword.number_stops.bind ?_)
  refine choice_skip (hword.call_stops hd) ?_
  refine choice_skip (component_stops (hvector.imp fun _ he => he.head?_ne (by decide))) ?_
  refine choice_skip (hword.enclosed_stops (parenthesized_encloses _)) ?_
  refine choice_skip (featureValue_stops (hfeature.imp fun _ he => he.head?_ne (by decide))) ?_
  exact choice_ok (bind_ok (hword.symbol hkind))

end

/-! ### Vectors -/

theorem vectorPrimary_bracketed {x : VectorExpr} (h : vectorLiteral g.parse c = .ok x d) :
    vectorPrimary g g.parse c = .ok x d := labelled_ok _ (choice_ok h)

theorem vectorPrimary_call {x : VectorExpr} (hcall : Called c name e)
    (h : vectorCall g.parse c = .ok x d) : vectorPrimary g g.parse c = .ok x d := by
  obtain ⟨_, hword, -, -⟩ := hcall
  refine labelled_ok _ (choice_skip ?_ (choice_ok h))
  exact (mark_stops (hword.not_head? (by decide))).bind

/-- No bracket and no call of a vector stands where a phrase of another kind does. -/
theorem vectorPrimary_of_elsewhere {x : VectorExpr} (helse : g.Elsewhere c .vector)
    (h : choice [
      datumPart g g.parse,
      featurePoint g g.parse,
      parenthesized g.parse.vector,
      return .symbol (← symbol g .vector)] c = .ok x d) :
    vectorPrimary g g.parse c = .ok x d := by
  refine labelled_ok _ (choice_skip (mark_stops helse.not_bracket).bind ?_)
  exact choice_skip (vectorCall_stops helse) h

section

variable (hreg : g.registry.Unreserved)
include hreg

theorem vectorPrimary_part {x : DatumExpr} {which : DatumPart}
    (h : datumOver g g.parse c = .ok x d) (hd : d.head? = some '.')
    (hword : Word d.after name e) (hmem : (name, which) ∈ DatumPart.named) :
    vectorPrimary g g.parse c = .ok (.part x which) e := by
  have hb := begins_of_datum hreg h (not_atParen hd (by decide))
  refine vectorPrimary_of_elsewhere (hb.elsewhere nofun) (choice_ok ?_)
  have hlookup : ∀ p ∈ DatumPart.named, DatumPart.named.lookup p.1 = some p.2 := by decide
  refine (access_ok (datum_start g c) h hd).trans ?_
  rw [bind_ok (orReject_ok _ hword), hlookup _ hmem]
  rfl

theorem vectorPrimary_point {x : FeatureRef} (h : featureOver g g.parse c = .ok x d)
    (hd : d.head? = some '@') (hword : Word d.after name e) :
    vectorPrimary g g.parse c = .ok (.point x name) e := by
  have hb := begins_of_feature hreg h (not_atParen hd (by decide))
  have hdatum := datum_ends (hb.only_all hreg .datum nofun)
  refine vectorPrimary_of_elsewhere (hb.elsewhere nofun) ?_
  refine choice_skip (datumPart_stops (hdatum.imp fun _ he => he.head?_ne (by decide))) ?_
  refine choice_ok ((access_ok (feature_start g c) h hd).trans ?_)
  rw [bind_ok (committed_ok (labelled_ok _ hword))]
  rfl

theorem vectorPrimary_enclosed {x : VectorExpr} (hc : c.head? = some '(')
    (h : g.parse .vector c.after = .ok x d) (hd : d.head? = some ')') :
    vectorPrimary g g.parse c = .ok x d.after := by
  have hb : g.Begins c .vector := begins_of_enclosed hc h hd
  have hdatum := datum_ends (hb.only_all hreg .datum nofun)
  have hfeature := feature_ends (hb.only_all hreg .feature nofun)
  refine vectorPrimary_of_elsewhere (.inl hc) ?_
  refine choice_skip (datumPart_stops (hdatum.imp fun _ he => he.head?_ne (by decide))) ?_
  refine choice_skip (featurePoint_stops (hfeature.imp fun _ he => he.head?_ne (by decide))) ?_
  exact choice_ok ((parenthesized_encloses _).ok hc h hd)

theorem vectorPrimary_symbol (hword : Word c name d)
    (hkind : g.model.kindOf? name = some .vector) (hd : ¬ AtParen d) :
    vectorPrimary g g.parse c = .ok (.symbol name) d := by
  have hb := begins_of_word hword (nameKind_of_kindOf? hkind) hd
  have hdatum := datum_ends (hb.only_all hreg .datum nofun)
  have hfeature := feature_ends (hb.only_all hreg .feature nofun)
  refine labelled_ok _ (choice_skip (mark_stops (hword.not_head? (by decide))).bind ?_)
  refine choice_skip (hword.call_stops hd) ?_
  refine choice_skip (datumPart_stops (hdatum.imp fun _ he => he.head?_ne (by decide))) ?_
  refine choice_skip (featurePoint_stops (hfeature.imp fun _ he => he.head?_ne (by decide))) ?_
  refine choice_skip (hword.enclosed_stops (parenthesized_encloses _)) ?_
  exact choice_ok (bind_ok (hword.symbol hkind))

end

/-! ### Datums, selections and features -/

theorem datum_call {x : DatumExpr} (h : datumCall g.parse c = .ok x d) :
    datumOver g g.parse c = .ok x d := labelled_ok _ (choice_ok h)

theorem datum_enclosed {x : DatumExpr} (hc : c.head? = some '(')
    (h : g.parse .datum c.after = .ok x d) (hd : d.head? = some ')') :
    datumOver g g.parse c = .ok x d.after := by
  refine labelled_ok _ (choice_skip (datumCall_stops (.inl hc)) (choice_ok ?_))
  exact (parenthesized_encloses _).ok hc h hd

theorem datum_symbol (hword : Word c name d) (hkind : g.model.kindOf? name = some .datum)
    (hd : ¬ AtParen d) : datumOver g g.parse c = .ok (.symbol name) d := by
  refine labelled_ok _ (choice_skip (hword.call_stops hd) ?_)
  refine choice_skip (hword.enclosed_stops (parenthesized_encloses _)) ?_
  exact choice_ok (bind_ok (hword.symbol hkind))

theorem selectionPrimary_query {x : SelectionExpr} (h : query g.parse c = .ok x d) :
    selectionPrimary g g.parse c = .ok x d := labelled_ok _ (choice_ok h)

theorem selectionPrimary_enclosed {x : SelectionExpr} (hc : c.head? = some '(')
    (h : g.parse .selection c.after = .ok x d) (hd : d.head? = some ')') :
    selectionPrimary g g.parse c = .ok x d.after := by
  refine labelled_ok _ (choice_skip (query_stops (.inl hc)) (choice_ok ?_))
  exact (parenthesized_encloses _).ok hc h hd

theorem selectionPrimary_symbol (hword : Word c name d)
    (hkind : g.model.kindOf? name = some .selection) (hd : ¬ AtParen d) :
    selectionPrimary g g.parse c = .ok (.symbol name) d := by
  have hquery : (query g.parse).Stops c := by
    refine hword.then_stops fun e he => ?_
    split
    · exact True.intro
    · refine Stops.bind (mark_stops fun hparen => hd ?_)
      rw [← he]
      exact e.head?_start.trans hparen
  refine labelled_ok _ (choice_skip hquery ?_)
  refine choice_skip (hword.enclosed_stops (parenthesized_encloses _)) ?_
  exact choice_ok (bind_ok (hword.symbol hkind))

theorem featurePrimary_constructor {x : Feature} (h : constructor g g.parse c = .ok x d) :
    featurePrimary g g.parse c = .ok (.inline x) d := choice_ok (bind_ok h)

theorem featurePrimary_enclosed (hreg : g.registry.Unreserved) {x : FeatureRef}
    (hc : c.head? = some '(') (h : g.parse .feature c.after = .ok x d)
    (hd : d.head? = some ')') : featurePrimary g g.parse c = .ok x d.after := by
  refine choice_skip (constructor_stops hreg (.inl hc)).bind (choice_ok ?_)
  exact (encloses_of_close _ mark_ok mark_stops).ok hc h hd

theorem featurePrimary_name (hword : Word c name d) (hfree : isReserved name = false)
    (hregistry : g.registry.contains name = false)
    (hkind : g.model.kindOf? name = none ∨ g.model.kindOf? name = some .feature)
    (hd : ¬ AtParen d) : featurePrimary g g.parse c = .ok (.named name) d := by
  have hconstructor : (constructor g g.parse).Stops c := by
    refine hword.then_stops fun e he => ?_
    show (mark '(' >>= _).Stops e
    refine Stops.bind (mark_stops fun hparen => hd ?_)
    rw [← he]
    exact e.head?_start.trans hparen
  refine choice_skip hconstructor.bind ?_
  refine choice_skip (hword.enclosed_stops (encloses_of_close _ mark_ok mark_stops)) ?_
  refine choice_ok (hword.then_ok fun e he => ?_)
  subst he
  rcases hkind with hkind | hkind
  · simp only [hfree, hregistry, hkind]
    rfl
  · simp only [hfree, hregistry, hkind]
    rfl

end Primaries

/-! ## Calls -/

theorem pairOf_ok {p : Parser α} {a b : α} (ha : p c = .ok a d) (hd : d.head? = some ',')
    (hb : p d.after = .ok b e) : pairOf p c = .ok (a, b) e := by
  unfold pairOf
  rw [bind_ok ha, bind_ok (comma_ok hd), bind_ok hb]
  rfl

/-- A call is read up to its closing parenthesis. -/
theorem closed_ok {p : Parser α} {a : α} (h : p c = .ok a d) (hd : d.head? = some ')') :
    (do
      let a ← p
      let _ ← committed (closing ')')
      return a) c = .ok a d.after := by
  rw [bind_ok h, bind_ok (committed_ok (closing_ok hd))]
  rfl

section Calls

variable {f : Cursor}

theorem scalarCall_call {x : ScalarExpr} {fn : ScalarFn} (hcall : Called c name d)
    (hmem : (name, fn) ∈ ScalarFn.named) (hx : g.parse .scalar d = .ok x e)
    (he : e.head? = some ')') : scalarCall g.parse c = .ok (.call fn x) e.after := by
  have hlookup : ∀ p ∈ ScalarFn.named, ScalarFn.named.lookup p.1 = some p.2 := by decide
  have hother : ∀ p ∈ ScalarFn.named, p.1 ≠ "dot" ∧ p.1 ≠ "mag" := by decide
  refine hcall.goes_on.trans ?_
  split
  · exact absurd rfl (hother _ hmem).1
  · exact absurd rfl (hother _ hmem).2
  · rw [hlookup _ hmem]
    exact closed_ok (bind_ok (committed_ok hx)) he

theorem scalarCall_dot {x y : VectorExpr} (hcall : Called c "dot" d)
    (hx : g.parse .vector d = .ok x e) (he : e.head? = some ',')
    (hy : g.parse .vector e.after = .ok y f) (hf : f.head? = some ')') :
    scalarCall g.parse c = .ok (.dot x y) f.after := by
  exact hcall.goes_on.trans (closed_ok (bind_ok (committed_ok (pairOf_ok hx he hy))) hf)

theorem scalarCall_magnitude {x : VectorExpr} (hcall : Called c "mag" d)
    (hx : g.parse .vector d = .ok x e) (he : e.head? = some ')') :
    scalarCall g.parse c = .ok (.magnitude x) e.after := by
  exact hcall.goes_on.trans (closed_ok (bind_ok (committed_ok hx)) he)

theorem components_ok {x y z : ScalarExpr} {bracket : Char} {b : Cursor}
    (hx : g.parse .scalar b = .ok x c) (hc : c.head? = some ',')
    (hy : g.parse .scalar c.after = .ok y d) (hd : d.head? = some ',')
    (hz : g.parse .scalar d.after = .ok z e) (he : e.head? = some bracket) :
    components g.parse bracket b = .ok (.literal x y z) e.after := by
  have hvalue : (do
      let x ← g.parse.scalar
      let _ ← comma
      let y ← g.parse.scalar
      let _ ← comma
      let z ← g.parse.scalar
      return VectorExpr.literal x y z) b = .ok (.literal x y z) e := by
    refine (bind_ok hx).trans ((bind_ok (comma_ok hc)).trans ((bind_ok hy).trans ?_))
    exact (bind_ok (comma_ok hd)).trans (bind_ok hz)
  exact (bind_ok (committed_ok hvalue)).trans (bind_ok (committed_ok (closing_ok he)))

theorem vectorCall_cross {x y : VectorExpr} (hcall : Called c "cross" d)
    (hx : g.parse .vector d = .ok x e) (he : e.head? = some ',')
    (hy : g.parse .vector e.after = .ok y f) (hf : f.head? = some ')') :
    vectorCall g.parse c = .ok (.cross x y) f.after := by
  refine hcall.goes_on.trans ((bind_ok (committed_ok hx)).trans ?_)
  refine (bind_ok (committed_ok (comma_ok he))).trans ((bind_ok (committed_ok hy)).trans ?_)
  exact bind_ok (committed_ok (closing_ok hf))

theorem vectorCall_normalize {x : VectorExpr} (hcall : Called c "normalize" d)
    (hx : g.parse .vector d = .ok x e) (he : e.head? = some ')') :
    vectorCall g.parse c = .ok (.normalize x) e.after := by
  refine hcall.goes_on.trans ((bind_ok (committed_ok hx)).trans ?_)
  exact bind_ok (committed_ok (closing_ok he))

theorem datumCall_point {x : VectorExpr} (hcall : Called c "Point" d)
    (hx : g.parse .vector d = .ok x e) (he : e.head? = some ')') :
    datumCall g.parse c = .ok (.point x) e.after := by
  exact hcall.goes_on.trans (closed_ok (bind_ok (committed_ok hx)) he)

theorem datumCall_axis {x y : VectorExpr} (hcall : Called c "Axis" d)
    (hx : g.parse .vector d = .ok x e) (he : e.head? = some ',')
    (hy : g.parse .vector e.after = .ok y f) (hf : f.head? = some ')') :
    datumCall g.parse c = .ok (.axis x y) f.after := by
  exact hcall.goes_on.trans (closed_ok (bind_ok (committed_ok (pairOf_ok hx he hy))) hf)

theorem datumCall_plane {x y : VectorExpr} (hcall : Called c "Plane" d)
    (hx : g.parse .vector d = .ok x e) (he : e.head? = some ',')
    (hy : g.parse .vector e.after = .ok y f) (hf : f.head? = some ')') :
    datumCall g.parse c = .ok (.plane x y) f.after := by
  exact hcall.goes_on.trans (closed_ok (bind_ok (committed_ok (pairOf_ok hx he hy))) hf)

/-- What follows the feature in a query is read up to the closing parenthesis. -/
theorem query_ok {x : FeatureRef} {kind : EntityKind} {filter : Option String}
    (hcall : Called c name d) (hmem : (name, kind) ∈ EntityKind.named)
    (hx : g.parse .feature d = .ok x e)
    (hfilter : optional (do
      let _ ← mark ','
      committed (labelled "filter string" (padded stringLiteral))) e = .ok filter f)
    (hf : f.head? = some ')') :
    query g.parse c = .ok (.query kind x (filter.getD "")) f.after := by
  have hlookup : ∀ p ∈ EntityKind.named, EntityKind.named.lookup p.1 = some p.2 := by decide
  obtain ⟨e', hword, hparen, rfl⟩ := hcall
  refine hword.then_ok fun e'' he => ?_
  subst he
  rw [e''.head?_start] at hparen
  rw [e''.after_start] at hx
  rw [hlookup _ hmem]
  refine (bind_ok (mark_ok hparen)).trans ((bind_ok (committed_ok hx)).trans ?_)
  exact (bind_ok hfilter).trans (bind_ok (committed_ok (closing_ok hf)))

end Calls

/-! ## Signs, powers and scalar factors -/

section Signs

theorem Begins.not_sign (h : g.Begins c kind) (hkind : kind ≠ .scalar) : c.head? ≠ some '-' := by
  intro hsign
  refine hkind ((h.told ?_).symm.trans ((begins_of_sign hsign).told ?_))
  · exact not_atParen hsign (by decide)
  · exact not_atParen hsign (by decide)

theorem scalarUnary_neg {x : ScalarExpr} (hc : c.head? = some '-')
    (h : scalarUnaryOver g g.parse c.after = .ok x d) :
    scalarUnaryOver g g.parse c = .ok (.neg x) d := (scalarUnary_sign hc).trans (bind_ok h)

theorem scalarUnary_primary {x : ScalarExpr} (hc : c.head? ≠ some '-')
    (h : scalarPrimary g g.parse c = .ok x d) (hd : d.head? ≠ some '^') :
    scalarUnaryOver g g.parse c = .ok x d := by
  refine ((mark_stops hc).optional_bind).trans ((bind_ok h).trans ?_)
  exact (mark_stops hd).optional_bind

theorem scalarUnary_power {x y : ScalarExpr} (hc : c.head? ≠ some '-')
    (h : scalarPrimary g g.parse c = .ok x d) (hd : d.head? = some '^')
    (hy : scalarUnaryOver g g.parse d.after = .ok y e) :
    scalarUnaryOver g g.parse c = .ok (.binary .pow x y) e := by
  rw [← parse_scalarUnary] at hy
  refine ((mark_stops hc).optional_bind).trans ((bind_ok h).trans ?_)
  exact (bind_ok (optional_ok (mark_ok hd))).trans (bind_ok hy)

theorem vectorUnary_neg {x : VectorExpr} (hc : c.head? = some '-')
    (h : vectorUnaryOver g g.parse c.after = .ok x d) :
    vectorUnaryOver g g.parse c = .ok (.neg x) d := (vectorUnary_sign hc).trans (bind_ok h)

theorem vectorFactor_scaled {x : VectorExpr} {y : ScalarExpr}
    (h : scalarUnaryOver g g.parse c = .ok y d) (hd : d.head? = some '*')
    (hx : vectorFactorOver g g.parse d.after = .ok x e) :
    vectorFactorOver g g.parse c = .ok (.scale x y) e := by
  rw [← parse_vectorFactor] at hx
  refine bind_ok (optional_ok (p := scaledVector g g.parse) ?_)
  exact (bind_ok h).trans ((bind_ok (mark_ok hd)).trans (bind_ok hx))

variable (hreg : g.registry.Unreserved)
include hreg

theorem vectorPrimary_not_sign {x : VectorExpr} (h : vectorPrimary g g.parse c = .ok x d)
    (hd : ¬ AtParen d) : c.head? ≠ some '-' := by
  rcases vectorPrimary_cases hreg h hd with hb | ⟨hb, -⟩ | ⟨hb, -⟩
  · exact hb.not_sign nofun
  · exact hb.not_sign nofun
  · exact hb.not_sign nofun

theorem vectorUnary_primary {x : VectorExpr} (h : vectorPrimary g g.parse c = .ok x d)
    (hd : ¬ AtParen d) : vectorUnaryOver g g.parse c = .ok x d :=
  (vectorUnary_eq (vectorPrimary_not_sign hreg h hd)).trans h

/-- Where a vector without scalar factors stands, no factor is read before it. -/
theorem vectorFactor_unary {x : VectorExpr} (h : vectorUnaryOver g g.parse c = .ok x d)
    (hd : ¬ AtPart d) : vectorFactorOver g g.parse c = .ok x d := by
  have hscaled : (scaledVector g g.parse).Stops c :=
    (scalarUnary_of_vectorUnary hreg (fun e _ => separate hreg e) h hd).bind fun _ _ _ he =>
      (mark_stops (he.head?_ne (by decide))).bind
  exact hscaled.optional_bind.trans h

end Signs

/-! ## Sums, products and accesses -/

/-- A rule has come as far as a place, where it goes on with what it has read. -/
def Reaches (p : Parser α) (loop : Nat → α → Parser α) (c : Cursor) (x : α) (d : Cursor) : Prop :=
  ∃ n, d.rest.length ≤ n ∧ p c = loop n x d

namespace Reaches

variable {p : Parser α} {loop : Nat → α → Parser α} {x y : α}

theorem ok (h : Reaches p loop c x d) (hloop : ∀ n, loop n x d = .ok x d) : p c = .ok x d := by
  obtain ⟨n, -, hn⟩ := h
  exact hn.trans (hloop n)

/-- A chain of operands begins with the first one. -/
theorem first {p : Parser α} {a b : Char} {operand : Char → α → Parser α} (h : p c = .ok x d) :
    Reaches (chain p (operator a b) operand) (chainLoop (operator a b) operand) c x d :=
  ⟨_, Nat.le_refl _, chain_first h⟩

theorem step {ch : Char} (h : Reaches p loop c x d) (hloop : ∀ n, loop (n + 1) x d = loop n y e)
    (hd : d.head? = some ch) (he : e.rest.length < d.after.rest.length) :
    Reaches p loop c y e := by
  have he := Nat.lt_trans he (Cursor.after_length hd)
  obtain ⟨n, hle, hn⟩ := h
  obtain ⟨m, rfl⟩ := Nat.exists_eq_add_of_le' (Nat.lt_of_le_of_lt (Nat.zero_le _)
    (Nat.lt_of_lt_of_le he hle))
  exact ⟨m, by omega, hn.trans (hloop m)⟩

end Reaches

/-- One operand more, after one of the two operators that a table gives the meaning of. -/
theorem chainLoop_step {γ : Type} {a b ch : Char} (hab : a ≠ b) {combine : Char → α → β → α}
    {f : γ → α → β → α} {table : List (Char × γ)} {op : γ} {q : Parser β} {x : α} {y : β}
    (htable : ∀ p ∈ table, (p.1 = a ∨ p.1 = b) ∧ combine p.1 = f p.2) (hmem : (ch, op) ∈ table)
    (hd : d.head? = some ch) (hy : q d.after = .ok y e) (n : Nat) :
    chainLoop (operator a b) (fun o left => q >>= fun right => pure (combine o left right))
        (n + 1) x d =
      chainLoop (operator a b) (fun o left => q >>= fun right => pure (combine o left right))
        n (f op x y) e := by
  obtain ⟨hch, hcombine⟩ := htable _ hmem
  have hop : operator a b d = .ok ch d.after := by
    rcases hch with rfl | rfl
    · exact operator_left hd
    · exact operator_right hab hd
  have hoperand : (q >>= fun right => pure (combine ch x right)) d.after = .ok (f op x y) e := by
    rw [bind_ok hy, ← hcombine]
    rfl
  exact (chainLoop_operator hop).trans (bind_ok hoperand)

/-- How a sum of scalars goes on. -/
def scalarLoop (g : Grammar) : Nat → ScalarExpr → Parser ScalarExpr :=
  chainLoop (operator '+' '-') fun op left => do
    let right ← scalarTerm g g.parse
    return .binary (if op = '+' then .add else .sub) left right

/-- How a product of scalars goes on. -/
def scalarTermLoop (g : Grammar) : Nat → ScalarExpr → Parser ScalarExpr :=
  chainLoop (operator '*' '/') fun op left => do
    let right ← scalarUnaryOver g g.parse
    return .binary (if op = '*' then .mul else .div) left right

/-- How a sum of vectors goes on. -/
def vectorLoop (g : Grammar) : Nat → VectorExpr → Parser VectorExpr :=
  chainLoop (operator '+' '-') fun op left => do
    let right ← vectorTerm g g.parse
    return if op = '+' then .add left right else .sub left right

/-- How a vector with scalar factors and divisors goes on. -/
def vectorTermLoop (g : Grammar) : Nat → VectorExpr → Parser VectorExpr :=
  chainLoop (operator '*' '/') fun op left => do
    let right ← scalarUnaryOver g g.parse
    return if op = '*' then .scale left right else .divide left right

/-- How unions and differences go on. -/
def selectionLoop (g : Grammar) : Nat → SelectionExpr → Parser SelectionExpr :=
  chainLoop (operator '|' '-') fun op left => do
    let right ← selectionPrimary g g.parse
    return if op = '|' then .union left right else .difference left right

section Steps

/-- What a part of a rule reads is not longer than the text. -/
theorem shorter_of_agree {p : Parser α} {x : α} (h : ∀ n, Agree (n + 1) 1 p p)
    (hx : p c = .ok x d) : d.rest.length < c.rest.length :=
  ((h _ c (Nat.lt_succ_self _)).2 x d hx).shorter

theorem parse_self_agree (g : Grammar) (n : Nat) (rule : Rule) :
    Agree n 0 (g.parse rule) (g.parse rule) :=
  .of_at fun c => (parse_onward g rule c).imp fun _ _ h => h.mono (Nat.zero_le 1)

theorem scalarTerm_shortens {x : ScalarExpr} (h : scalarTerm g g.parse c = .ok x d) :
    d.rest.length < c.rest.length :=
  shorter_of_agree (fun n => scalarTerm_agree (parse_self_agree g n)) h

theorem vectorTerm_shortens {x : VectorExpr} (h : vectorTerm g g.parse c = .ok x d) :
    d.rest.length < c.rest.length :=
  shorter_of_agree (fun n => vectorTerm_agree (parse_self_agree g n)) h

theorem selectionPrimary_shortens {x : SelectionExpr}
    (h : selectionPrimary g g.parse c = .ok x d) : d.rest.length < c.rest.length :=
  shorter_of_agree (fun n => selectionPrimary_agree (parse_self_agree g n)) h

variable {ch : Char}

theorem scalarLoop_step {x y : ScalarExpr} {op : ScalarOp} (hmem : (ch, op) ∈ scalarSums)
    (hd : d.head? = some ch) (hy : scalarTerm g g.parse d.after = .ok y e) (n : Nat) :
    scalarLoop g (n + 1) x d = scalarLoop g n (.binary op x y) e :=
  chainLoop_step (by decide) (f := ScalarExpr.binary) (List.forall_mem_cons.mpr ⟨⟨.inl rfl, rfl⟩,
    List.forall_mem_singleton.mpr ⟨.inr rfl, rfl⟩⟩) hmem hd hy n

theorem scalarTermLoop_step {x y : ScalarExpr} {op : ScalarOp}
    (hmem : (ch, op) ∈ scalarProducts) (hd : d.head? = some ch)
    (hy : scalarUnaryOver g g.parse d.after = .ok y e) (n : Nat) :
    scalarTermLoop g (n + 1) x d = scalarTermLoop g n (.binary op x y) e :=
  chainLoop_step (by decide) (f := ScalarExpr.binary) (List.forall_mem_cons.mpr ⟨⟨.inl rfl, rfl⟩,
    List.forall_mem_singleton.mpr ⟨.inr rfl, rfl⟩⟩) hmem hd hy n

theorem vectorLoop_step {x y : VectorExpr} {op : VectorExpr → VectorExpr → VectorExpr}
    (hmem : (ch, op) ∈ vectorSums) (hd : d.head? = some ch)
    (hy : vectorTerm g g.parse d.after = .ok y e) (n : Nat) :
    vectorLoop g (n + 1) x d = vectorLoop g n (op x y) e :=
  chainLoop_step (by decide) (f := id) (List.forall_mem_cons.mpr ⟨⟨.inl rfl, rfl⟩,
    List.forall_mem_singleton.mpr ⟨.inr rfl, rfl⟩⟩) hmem hd hy n

theorem vectorTermLoop_step {x : VectorExpr} {y : ScalarExpr}
    {op : VectorExpr → ScalarExpr → VectorExpr} (hmem : (ch, op) ∈ vectorProducts)
    (hd : d.head? = some ch) (hy : scalarUnaryOver g g.parse d.after = .ok y e) (n : Nat) :
    vectorTermLoop g (n + 1) x d = vectorTermLoop g n (op x y) e :=
  chainLoop_step (by decide) (f := id) (List.forall_mem_cons.mpr ⟨⟨.inl rfl, rfl⟩,
    List.forall_mem_singleton.mpr ⟨.inr rfl, rfl⟩⟩) hmem hd hy n

theorem selectionLoop_step {x y : SelectionExpr}
    {op : SelectionExpr → SelectionExpr → SelectionExpr} (hmem : (ch, op) ∈ selectionSums)
    (hd : d.head? = some ch) (hy : selectionPrimary g g.parse d.after = .ok y e) (n : Nat) :
    selectionLoop g (n + 1) x d = selectionLoop g n (op x y) e :=
  chainLoop_step (by decide) (f := id) (List.forall_mem_cons.mpr ⟨⟨.inl rfl, rfl⟩,
    List.forall_mem_singleton.mpr ⟨.inr rfl, rfl⟩⟩) hmem hd hy n

theorem subResult_step {x : FeatureRef} (hd : d.head? = some '!') (hword : Word d.after name e)
    (n : Nat) : extend subResult (n + 1) x d = extend subResult n (.sub x name) e := by
  have hsub : subResult x d = .ok (.sub x name) e := (bind_ok (mark_ok hd)).trans (bind_ok hword)
  exact bind_ok (optional_ok hsub)

end Steps

/-! ## Arguments -/

section Arguments

/-! ### Lists that end -/

theorem word_stops {f : Cursor → String → Parser α}
    (h : ∀ ch, c.head? = some ch → isWordStart ch = false) :
    (do
      trivia
      let start ← position
      let name ← Grammar.identifier
      f start name).Stops c := by
  refine word_bind_ends fun name d hname => ?_
  obtain ⟨ch, hch, hstart⟩ := head?_of_identifier hname
  rw [h ch hch] at hstart
  cases hstart

/-- Nothing basic stands where a list ends. -/
theorem basics_stop (hc : c.head? = some ')') (kind : SymbolKind) :
    ∀ p ∈ g.basics kind, p.Stops c := by
  have hword : ∀ ch, c.head? = some ch → isWordStart ch = false := fun ch hch => by
    rw [← Option.some.inj (hc.symm.trans hch)]
    decide
  have hnumber : number.Stops c := number_stops fun {ch} hch => by
    rw [← Option.some.inj (hc.symm.trans hch)]
    decide
  have hparen : ∀ {α : Type} {p q : Parser α}, Encloses p q → p.Stops c := fun hp =>
    hp.stops fun hparen => absurd hc (hparen.head?_ne (by decide))
  have hbracket : c.head? ≠ some '[' := by
    rw [hc]
    decide
  cases kind with
  | scalar =>
    refine List.forall_mem_cons.mpr ⟨hnumber.bind, List.forall_mem_cons.mpr ⟨word_stops hword, ?_⟩⟩
    exact List.forall_mem_cons.mpr ⟨hparen (parenthesized_encloses _),
      List.forall_mem_singleton.mpr (word_stops hword).bind⟩
  | vector =>
    refine List.forall_mem_cons.mpr ⟨(mark_stops hbracket).bind, ?_⟩
    refine List.forall_mem_cons.mpr ⟨word_stops hword, ?_⟩
    exact List.forall_mem_cons.mpr ⟨hparen (parenthesized_encloses _),
      List.forall_mem_singleton.mpr (word_stops hword).bind⟩
  | datum =>
    refine List.forall_mem_cons.mpr ⟨word_stops hword, ?_⟩
    exact List.forall_mem_cons.mpr ⟨hparen (parenthesized_encloses _),
      List.forall_mem_singleton.mpr (word_stops hword).bind⟩
  | selection =>
    refine List.forall_mem_cons.mpr ⟨word_stops hword, ?_⟩
    exact List.forall_mem_cons.mpr ⟨hparen (parenthesized_encloses _),
      List.forall_mem_singleton.mpr (word_stops hword).bind⟩
  | feature =>
    refine List.forall_mem_cons.mpr ⟨(word_stops hword).bind, ?_⟩
    exact List.forall_mem_cons.mpr ⟨hparen (encloses_of_close _ mark_ok mark_stops),
      List.forall_mem_singleton.mpr (word_stops hword)⟩

/-- No phrase stands where a list ends. -/
theorem parse_stops (hc : c.head? = some ')') (kind : SymbolKind) :
    (g.parse kind.rule).Stops c := by
  have hbasics := basics_stop (g := g) hc
  have hsign : c.head? ≠ some '-' := by
    rw [hc]
    decide
  have hdatum : (datumOver g g.parse).Stops c := Ends.labelled _ (Ends.choice (hbasics .datum))
  have hfeature : (featureOver g g.parse).Stops c :=
    Stops.bind (Ends.labelled _ (Ends.choice (hbasics .feature)))
  have hvector : (vectorPrimary g g.parse).Stops c :=
    vectorPrimary_ends (hbasics .vector) (datumPart_stops hdatum.ends)
      (featurePoint_stops hfeature.ends)
  have hscalar : (scalarPrimary g g.parse).Stops c :=
    scalarPrimary_ends (hbasics .scalar) (component_stops hvector.ends)
      (featureValue_stops hfeature.ends)
  have hunary : (scalarUnaryOver g g.parse).Stops c :=
    Ends.of_eq (mark_stops hsign).optional_bind hscalar.bind
  cases kind with
  | scalar => exact Ends.of_eq (parse_apply g .scalar c) hunary.bind.bind
  | vector =>
    have hfactor : (vectorFactorOver g g.parse).Stops c :=
      vectorFactor_ends hunary.bind (Ends.of_eq (vectorUnary_eq hsign) hvector)
    exact Ends.of_eq (parse_apply g .vector c) hfactor.bind.bind
  | datum => exact Ends.of_eq (parse_apply g .datum c) hdatum
  | selection =>
    refine Ends.of_eq (parse_apply g .selection c) (Stops.bind ?_)
    exact Ends.labelled _ (Ends.choice (hbasics .selection))
  | feature => exact Ends.of_eq (parse_apply g .feature c) hfeature

theorem argument_stops (hc : c.head? = some ')') (kind : ParamKind) :
    (argument g.parse kind).Stops c := by
  cases kind with
  | scalar => exact (parse_stops hc .scalar).bind
  | vector => exact (parse_stops hc .vector).bind
  | datum => exact (parse_stops hc .datum).bind
  | feature => exact (parse_stops hc .feature).bind
  | selection => exact (parse_stops hc .selection).bind
  | keyword choices =>
    refine Stops.bind ?_
    show (optional identifier >>= _).Stops c.start
    have hword : identifier.Stops c.start := (identifier_ends c.start).stops fun _ _ _ => by
      rintro ⟨ch, hch, hstart⟩
      rw [← Option.some.inj (hc.symm.trans hch)] at hstart
      revert hstart
      decide
    exact Ends.of_eq hword.optional_bind True.intro

variable {param : Param} {typeName : String} {mandatory first : Bool}

/-- An argument list ends where no mandatory argument is missing. -/
theorem nextArgument_none (hc : c.head? = some ')') :
    nextArgument g.parse typeName param false first c = .ok none c := by
  cases first with
  | true => exact (argument_stops hc param.kind).optional
  | false =>
    have hcomma : (mark ',').Stops c := mark_stops (by rw [hc]; decide)
    exact hcomma.optional_bind

theorem nextArgument_some {a : Argument} (hc : Separated first c d)
    (h : argument g.parse param.kind d = .ok a e) :
    nextArgument g.parse typeName param mandatory first c = .ok (some a) e := by
  cases first with
  | true =>
    obtain rfl : d = c := hc
    cases mandatory with
    | true => exact bind_ok h
    | false => exact optional_ok h
  | false =>
    obtain ⟨hcomma, rfl⟩ : c.head? = some ',' ∧ d = c.after := hc
    exact (bind_ok (optional_ok (mark_ok hcomma))).trans (bind_ok h)

theorem Separated.length (h : Separated first c d) : d.rest.length ≤ c.rest.length := by
  cases first with
  | true =>
    obtain rfl : d = c := h
    exact Nat.le_refl _
  | false =>
    obtain ⟨hcomma, rfl⟩ : c.head? = some ',' ∧ d = c.after := h
    exact Nat.le_of_lt (Cursor.after_length hcomma)

theorem Separated.closes (h : Separated false c d) : Closes c := by
  obtain ⟨hcomma, -⟩ : c.head? = some ',' ∧ d = c.after := h
  exact ⟨',', by decide, hcomma⟩

/-! ### Arguments that are left out -/

theorem bindFrom_defaults {signature : Signature} {as : List Argument}
    (h : signature.Defaults as) : signature.bindFrom [] = .ok (as, []) := by
  induction h with
  | nil => rfl
  | optional _ ih =>
    unfold Signature.bindFrom
    rw [ih]
    rfl
  | variadic _ ih =>
    unfold Signature.bindFrom
    rw [ih]
    rfl

theorem argumentsFrom_defaults {signature : Signature} {as : List Argument}
    (h : signature.Defaults as) (hc : c.head? = some ')') (read : List Argument) :
    argumentsFrom g.parse typeName signature read c = .ok read c := by
  cases h with
  | nil => rfl
  | optional h => exact bind_ok (nextArgument_none hc)
  | variadic h => exact bind_ok (nextArgument_none hc)

/-! ### Lists of arguments -/

theorem optionWord_ok {choices : List String} (hword : Word c name d) (hmem : name ∈ choices) :
    optionWord choices c = .ok name d := by
  obtain ⟨e, he, rfl⟩ := hword.identifier
  refine (bind_ok (c := c.start) (optional_ok he)).trans ?_
  exact congrFun (if_pos (List.contains_iff_mem.mpr hmem)) e

theorem variadicArguments_end {least n count : Nat} {read : List Argument}
    (hc : c.head? = some ')') (hcount : least ≤ count) :
    variadicArguments g.parse typeName param least n count read c = .ok read c := by
  cases n with
  | zero => rfl
  | succ n =>
    have hmandatory : decide (count < least) = false := decide_eq_false (Nat.not_lt.mpr hcount)
    unfold variadicArguments
    rw [hmandatory]
    exact bind_ok (nextArgument_none hc)

theorem variadicArguments_step {least n count : Nat} {read : List Argument} {a : Argument}
    (hc : Separated read.isEmpty c d) (h : argument g.parse param.kind d = .ok a e) :
    variadicArguments g.parse typeName param least (n + 1) count read c =
      variadicArguments g.parse typeName param least n (count + 1) (read ++ [a]) e :=
  bind_ok (nextArgument_some hc h)

theorem argumentsFrom_step {params : Signature} {read : List Argument} {a : Argument}
    (hparam : param.isVariadic = false) (hc : Separated read.isEmpty c d)
    (h : argument g.parse param.kind d = .ok a e) :
    argumentsFrom g.parse typeName (param :: params) read c =
      argumentsFrom g.parse typeName params (read ++ [a]) e := by
  obtain ⟨paramName, kind, arity⟩ := param
  cases arity with
  | required => exact bind_ok (nextArgument_some hc h)
  | optional fallback => exact bind_ok (nextArgument_some hc h)
  | variadic least => cases hparam

theorem bindFrom_step {params : Signature} {a : Argument} {written as : List Argument}
    (hparam : param.isVariadic = false) (ha : param.kind.accepts a = true)
    (h : Signature.bindFrom params written = .ok (as, [])) :
    Signature.bindFrom (param :: params) (a :: written) = .ok (a :: as, []) := by
  have hcheck : Signature.check param a = .ok () := if_pos ha
  obtain ⟨paramName, kind, arity⟩ := param
  unfold Signature.bindFrom
  cases arity with
  | required =>
    simp only [hcheck, h]
    rfl
  | optional fallback =>
    simp only [hcheck, h]
    rfl
  | variadic least => cases hparam

theorem checks_ok (param : Param) {as : List Argument}
    (h : ∀ a ∈ as, param.kind.accepts a = true) :
    as.forM (Signature.check param) = .ok () := by
  induction as with
  | nil => rfl
  | cons a as ih =>
    have hcheck : Signature.check param a = .ok () := if_pos (h a List.mem_cons_self)
    show (Signature.check param a >>= fun _ => as.forM (Signature.check param)) = _
    rw [hcheck]
    exact ih fun b hb => h b (List.mem_cons_of_mem a hb)

theorem bindFrom_operands {least : Nat} {params : Signature} {as bs : List Argument}
    {kind : ParamKind} (ha : ∀ a ∈ as, kind.accepts a = true) (hleast : least ≤ as.length)
    (h : params.Defaults bs) :
    Signature.bindFrom (⟨name, kind, .variadic least⟩ :: params) as = .ok (as ++ bs, []) := by
  have hchecks := checks_ok ⟨name, kind, .variadic least⟩ ha
  have hcount : ¬ as.length < least := Nat.not_lt.mpr hleast
  unfold Signature.bindFrom
  simp only [hchecks, bindFrom_defaults h]
  rw [if_neg hcount]
  rfl

/-- What is left of a call of a type behind its opening parenthesis. -/
theorem Called.constructor_eq {type : FeatureType} (hcall : Called c name d)
    (hfind : g.registry.find? name = some type) :
    constructor g g.parse c = (do
      let args ← committed (callArguments g g.parse type)
      let _ ← committed (closing ')')
      let stop ← position
      match type.construct args (.text g.model.sources (.between c.start stop)) with
      | .ok feature => return feature
      | .error cause =>
        refuse c.start stop .malformed
          s!"Invalid arguments for {type.name}: {cause.message}") d := by
  obtain ⟨e, hword, hparen, rfl⟩ := hcall
  obtain ⟨e', hname, rfl⟩ := hword.identifier
  rw [e'.head?_start] at hparen
  rw [e'.after_start]
  unfold constructor
  rw [trivia_bind]
  show (identifier >>= _) c.start = _
  rw [bind_ok hname]
  show (mark '(' >>= _) e' = _
  rw [bind_ok (mark_ok hparen)]
  exact hfind ▸ rfl

/-- A call whose arguments are read and accepted, and which is closed after them. -/
theorem Called.constructor_ok {type : FeatureType} {args : List Argument} {f : Feature}
    (hcall : Called c name d) (hfind : g.registry.find? name = some type)
    (hargs : callArguments g g.parse type d = .ok args e) (he : e.head? = some ')')
    (hconstruct : type.construct args (.text g.model.sources (.between c.start e.after)) = .ok f) :
    constructor g g.parse c = .ok f e.after := by
  rw [hcall.constructor_eq hfind]
  refine (bind_ok (committed_ok hargs)).trans ?_
  refine (bind_ok (committed_ok (closing_ok he))).trans ?_
  refine (bind_ok (p := position) rfl).trans ?_
  rw [hconstruct]
  rfl

/-- A constructor is read with the arguments that its signature binds. -/
theorem constructor_ok {type : FeatureType} {written as : List Argument}
    (hcall : Called c name d) (hfind : g.registry.find? name = some type)
    (hwritten : type.written = .declared) (hchecked : type.checked = .declared)
    (h : argumentsFrom g.parse type.name type.signature [] d = .ok written e)
    (hbind : type.signature.bindFrom written = .ok (as, [])) (he : e.head? = some ')') :
    constructor g g.parse c = .ok (.construct type.name type.signature as
      (.text g.model.sources (.between c.start e.after)) none) e.after := by
  have hargs : callArguments g g.parse type d = .ok written e := by
    unfold callArguments
    rw [hwritten]
    exact h
  refine hcall.constructor_ok hfind hargs he ?_
  have hbound : type.signature.bind written = .ok as := by
    unfold Signature.bind
    rw [hbind]
    rfl
  unfold FeatureType.construct
  rw [hchecked]
  show (type.signature.bind written >>= _) = _
  rw [hbound]
  rfl

end Arguments

end Grammar

end PartScript
