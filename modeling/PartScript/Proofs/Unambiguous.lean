/-
  Texts are of one kind. Where a phrase of one kind is read up to a mark that closes it, no phrase
  of another kind is, and none is lost to a rule that has committed itself: the rules of the
  other kinds stop, or go on to a place where no closing mark stands.

  The kinds share parentheses, names, signs and operators. What begins a phrase tells its kind,
  except for a parenthesis, which tells it by what it encloses. A vector is tried with scalar
  factors first and a scalar with a vector whose component it is; these agree on all factors up to
  the last, which is of one kind.
-/
import PartScript.Catalog
import PartScript.Grammar.Statement
import PartScript.Proofs.Heads

namespace PartScript

namespace Grammar

open Grammar.Parser

variable {g : Grammar} {c d : Cursor} {kind : SymbolKind} {α β : Type} {P : Cursor → Prop}

/-! ## Places where phrases end -/

/-- A mark that closes a phrase stands at a place. -/
def Closes (c : Cursor) : Prop := ∃ ch ∈ [';', ',', ')', ']'], c.head? = some ch

/-- What makes a phrase a part of another one stands at a place: a call of it, or an access to
a part of it. -/
def AtPart (c : Cursor) : Prop := AtParen c ∨ c.head? = some '.'

theorem AtParen.head?_ne (h : AtParen c) {ch : Char} (hne : '(' ≠ ch) : c.head? ≠ some ch :=
  fun heq => hne (Option.some.inj (h.symm.trans heq))

theorem not_atParen {ch : Char} (h : c.head? = some ch) (hne : '(' ≠ ch) : ¬ AtParen c :=
  fun hc => hc.head?_ne hne h

theorem Closes.head?_ne (h : Closes c) {ch : Char} (hne : ch ∉ [';', ',', ')', ']']) :
    c.head? ≠ some ch := by
  obtain ⟨closing, hmem, hhead⟩ := h
  intro heq
  exact hne (Option.some.inj (hhead.symm.trans heq) ▸ hmem)

theorem Closes.not_atParen (h : Closes c) : ¬ AtParen c := h.head?_ne (by decide)

theorem Closes.not_atPart (h : Closes c) : ¬ AtPart c := fun hpart =>
  hpart.elim h.not_atParen (h.head?_ne (by decide))

theorem not_closes_of_atParen (h : AtParen c) : ¬ Closes c := fun hc => hc.not_atParen h

/-! ## Phrases of one kind -/

/-- What stands at a place and closes is of one kind, and rules for other kinds do not fail. -/
def Separate (g : Grammar) (c : Cursor) : Prop :=
  ∀ kind other : SymbolKind, kind ≠ other → ∀ a d, g.parse kind.rule c = .ok a d → Closes d →
    (g.parse other.rule).Ends c fun e => ¬ Closes e

theorem Separate.not_enclosed {other : SymbolKind} (h : g.Separate c) (hne : kind ≠ other)
    {a : kind.rule.Value} (ha : g.parse kind.rule c = .ok a d) (hd : d.head? = some ')') :
    (g.parse other.rule).Ends c fun e => e.head? ≠ some ')' :=
  (h kind other hne a d ha ⟨')', by decide, hd⟩).imp fun _ hopen he => hopen ⟨')', by decide, he⟩

/-- What stands at places with fewer than `n` characters left is of one kind. -/
def SeparateBelow (g : Grammar) (n : Nat) : Prop := ∀ c, c.rest.length < n → g.Separate c

theorem SeparateBelow.mono {m n : Nat} (h : g.SeparateBelow n) (hm : m ≤ n) :
    g.SeparateBelow m := fun c hc => h c (Nat.lt_of_lt_of_le hc hm)

/-- No basic phrase of another kind begins at a place. -/
def Only (g : Grammar) (c : Cursor) (kind : SymbolKind) : Prop :=
  ∀ other, other ≠ kind → g.Absent c other

theorem Begins.only (hreg : g.registry.Unreserved) (hsep : g.SeparateBelow c.rest.length)
    (h : g.Begins c kind) : g.Only c kind := by
  refine fun other hne => absent_of_begins h hne.symm (fun hc a e he hclose => ?_) hreg
  exact (hsep c.after (Cursor.after_length hc)).not_enclosed hne.symm he hclose

/-- The same begins before blanks and comments as after them. -/
theorem choice_start (g : Grammar) (kind : SymbolKind) (label : String) (c : Cursor) :
    Match Eq (labelled label (choice (g.basics kind)) c.start)
      (labelled label (choice (g.basics kind)) c) :=
  (Skips.choice (basics_skips g kind) c).labelled label label

theorem basics_ends (label : String) (h : g.Absent c kind) :
    (labelled label (choice (g.basics kind))).Ends c AtParen := (Ends.choice h).labelled label

/-! ### Features, datums and selections -/

theorem extend_stops {more : α → Parser α} {n : Nat} {a : α} (h : (more a).Stops c) :
    extend more n a c = .ok a c := by
  cases n with
  | zero => rfl
  | succ n => exact h.optional_bind

theorem subResult_stops {base : FeatureRef} (h : c.head? ≠ some '!') : (subResult base).Stops c :=
  (mark_stops h).bind

theorem feature_ends (h : g.Absent c .feature) : (featureOver g g.parse).Ends c AtParen := by
  refine (basics_ends "feature" h).bind fun a d _ hd => Ends.of_ok (extend_stops ?_) hd
  exact subResult_stops (hd.head?_ne (by decide))

theorem feature_start (g : Grammar) (c : Cursor) :
    Match Eq (featureOver g g.parse c.start) (featureOver g g.parse c) := by
  refine (choice_start g .feature "feature" c).bind fun a b rest _ hab => ?_
  subst hab
  exact .refl _

theorem ok_of_feature {a : FeatureRef} (h : featureOver g g.parse c = .ok a d) :
    ∃ p ∈ g.basics .feature, ∃ b mid, p c = .ok b mid ∧ (mid = d ∨ mid.head? = some '!') := by
  obtain ⟨b, mid, hprimary, h⟩ := ok_of_bind h
  obtain ⟨p, hp, hb⟩ := ok_of_choice (ok_of_labelled hprimary)
  refine ⟨p, hp, b, mid, hb, ?_⟩
  by_cases hmid : mid.head? = some '!'
  · exact .inr hmid
  · rw [extend_stops (subResult_stops hmid)] at h
    exact .inl (Outcome.ok.inj h).2

theorem begins_of_feature (hreg : g.registry.Unreserved) {a : FeatureRef}
    (h : featureOver g g.parse c = .ok a d) (hd : ¬ AtParen d) : g.Begins c .feature := by
  obtain ⟨p, hp, b, mid, hb, hmid⟩ := ok_of_feature h
  refine begins_of_ok hreg hp hb ?_
  rcases hmid with rfl | hmid
  · exact hd
  · exact not_atParen hmid (by decide)

theorem datum_ends (h : g.Absent c .datum) : (datumOver g g.parse).Ends c AtParen :=
  basics_ends "datum" h

theorem datum_start (g : Grammar) (c : Cursor) :
    Match Eq (datumOver g g.parse c.start) (datumOver g g.parse c) :=
  choice_start g .datum "datum" c

theorem begins_of_datum (hreg : g.registry.Unreserved) {a : DatumExpr}
    (h : datumOver g g.parse c = .ok a d) (hd : ¬ AtParen d) : g.Begins c .datum := by
  obtain ⟨p, hp, hb⟩ := ok_of_choice (ok_of_labelled h)
  exact begins_of_ok hreg hp hb hd

theorem selection_ends (h : g.Absent c .selection) : (selectionOver g g.parse).Ends c AtParen :=
  chain_ends (basics_ends "selection" h) (fun _ hd => hd.head?_ne (by decide))
    fun _ hd => hd.head?_ne (by decide)

theorem begins_of_selection (hreg : g.registry.Unreserved) {a : SelectionExpr}
    (h : selectionOver g g.parse c = .ok a d) (hd : ¬ AtParen d) : g.Begins c .selection := by
  obtain ⟨b, e, hfirst, he⟩ := ok_of_chain (P := fun e => ¬ AtParen e) h hd
    (fun _ h => not_atParen h (by decide)) fun _ h => not_atParen h (by decide)
  obtain ⟨p, hp, hb⟩ := ok_of_choice (ok_of_labelled hfirst)
  exact begins_of_ok hreg hp hb he

/-! ### Accesses -/

section Access

variable {q : Parser α} {f : Cursor → α → Parser β} {ch : Char}

theorem access_stops (hstart : Match Eq (q c.start) (q c))
    (h : q.Ends c fun d => d.head? ≠ some ch) :
    (do
      trivia
      let start ← position
      let a ← q
      let _ ← orReject start (mark ch)
      f start a).Stops c := by
  show (q >>= _).Ends c.start _
  refine (hstart.symm.ends h).bind fun a d _ hd => ?_
  exact Stops.bind (Ends.orReject _ (mark_stops hd))

theorem ok_of_access {b : β} (hstart : Match Eq (q c.start) (q c))
    (h : (do
      trivia
      let start ← position
      let a ← q
      let _ ← orReject start (mark ch)
      f start a) c = .ok b d) : ∃ a e, q c = .ok a e ∧ e.head? = some ch := by
  have h : (q >>= fun a => orReject c.start (mark ch) >>= fun _ => f c.start a) c.start =
    .ok b d := h
  obtain ⟨a, e, hq, h⟩ := ok_of_bind h
  obtain ⟨_, _, hmark, -⟩ := ok_of_bind h
  exact ⟨a, e, hstart.of_ok hq, (mark_inv (ok_of_orReject hmark)).1⟩

end Access

theorem datumPart_stops (h : (datumOver g g.parse).Ends c fun d => d.head? ≠ some '.') :
    (datumPart g g.parse).Stops c := access_stops (datum_start g c) h

theorem ok_of_datumPart {a : VectorExpr} (h : datumPart g g.parse c = .ok a d) :
    ∃ b e, datumOver g g.parse c = .ok b e ∧ e.head? = some '.' := ok_of_access (datum_start g c) h

theorem featurePoint_stops (h : (featureOver g g.parse).Ends c fun d => d.head? ≠ some '@') :
    (featurePoint g g.parse).Stops c := access_stops (feature_start g c) h

theorem ok_of_featurePoint {a : VectorExpr} (h : featurePoint g g.parse c = .ok a d) :
    ∃ b e, featureOver g g.parse c = .ok b e ∧ e.head? = some '@' :=
  ok_of_access (feature_start g c) h

theorem featureValue_stops (h : (featureOver g g.parse).Ends c fun d => d.head? ≠ some '$') :
    (featureValue g g.parse).Stops c := access_stops (feature_start g c) h

theorem ok_of_featureValue {a : ScalarExpr} (h : featureValue g g.parse c = .ok a d) :
    ∃ b e, featureOver g g.parse c = .ok b e ∧ e.head? = some '$' :=
  ok_of_access (feature_start g c) h

/-! ### Vectors and scalars without operators -/

theorem vectorPrimary_start (g : Grammar) (c : Cursor) :
    Match Eq (vectorPrimary g g.parse c.start) (vectorPrimary g g.parse c) := by
  refine (Skips.choice ?_ c).labelled _ _
  refine List.forall_mem_cons.mpr ⟨(padded_skips _).bind, List.forall_mem_cons.mpr
    ⟨trivia_skips _, List.forall_mem_cons.mpr ⟨trivia_skips _, List.forall_mem_cons.mpr
    ⟨trivia_skips _, List.forall_mem_cons.mpr ⟨(padded_skips _).bind,
    List.forall_mem_singleton.mpr (trivia_skips _).bind⟩⟩⟩⟩⟩

theorem component_stops (h : (vectorPrimary g g.parse).Ends c fun d => d.head? ≠ some '.') :
    (component g g.parse).Stops c := access_stops (vectorPrimary_start g c) h

theorem ok_of_component {a : ScalarExpr} (h : component g g.parse c = .ok a d) :
    ∃ b e, vectorPrimary g g.parse c = .ok b e ∧ e.head? = some '.' :=
  ok_of_access (vectorPrimary_start g c) h

theorem vectorPrimary_ends (h : ∀ p ∈ g.basics .vector, p.Ends c P)
    (hpart : (datumPart g g.parse).Ends c P) (hpoint : (featurePoint g g.parse).Ends c P) :
    (vectorPrimary g g.parse).Ends c P := by
  obtain ⟨hliteral, h⟩ := List.forall_mem_cons.mp h
  obtain ⟨hcall, h⟩ := List.forall_mem_cons.mp h
  obtain ⟨hparen, h⟩ := List.forall_mem_cons.mp h
  have hsymbol := List.forall_mem_singleton.mp h
  refine Ends.labelled _ (Ends.choice ?_)
  refine List.forall_mem_cons.mpr ⟨hliteral, List.forall_mem_cons.mpr ⟨hcall, ?_⟩⟩
  refine List.forall_mem_cons.mpr ⟨hpart, List.forall_mem_cons.mpr ⟨hpoint, ?_⟩⟩
  exact List.forall_mem_cons.mpr ⟨hparen, List.forall_mem_singleton.mpr hsymbol⟩

theorem scalarPrimary_ends (h : ∀ p ∈ g.basics .scalar, p.Ends c P)
    (hcomponent : (component g g.parse).Stops c) (hvalue : (featureValue g g.parse).Stops c) :
    (scalarPrimary g g.parse).Ends c P := by
  obtain ⟨hnumber, h⟩ := List.forall_mem_cons.mp h
  obtain ⟨hcall, h⟩ := List.forall_mem_cons.mp h
  obtain ⟨hparen, h⟩ := List.forall_mem_cons.mp h
  have hsymbol := List.forall_mem_singleton.mp h
  refine Ends.labelled _ (Ends.choice ?_)
  refine List.forall_mem_cons.mpr ⟨hnumber, List.forall_mem_cons.mpr ⟨hcall, ?_⟩⟩
  refine List.forall_mem_cons.mpr ⟨hcomponent.ends, List.forall_mem_cons.mpr ⟨hparen, ?_⟩⟩
  exact List.forall_mem_cons.mpr ⟨hvalue.ends, List.forall_mem_singleton.mpr hsymbol⟩

/-- Where a feature ends that is neither a point nor a value of it, no vector begins. -/
theorem vectorPrimary_absent (hvector : g.Absent c .vector)
    (hdatum : (datumOver g g.parse).Ends c fun e => e.head? ≠ some '.')
    (hfeature : (featureOver g g.parse).Ends c fun e => e.head? ≠ some '@') :
    (vectorPrimary g g.parse).Ends c AtParen :=
  vectorPrimary_ends hvector (datumPart_stops hdatum).ends (featurePoint_stops hfeature).ends

section Primaries

variable (hreg : g.registry.Unreserved)
include hreg

/-- A vector without operators is a basic one, a part of a datum or a point of a feature. -/
theorem vectorPrimary_cases {a : VectorExpr} (h : vectorPrimary g g.parse c = .ok a d)
    (hd : ¬ AtParen d) : g.Begins c .vector ∨
      (g.Begins c .datum ∧ ∃ b e, datumOver g g.parse c = .ok b e ∧ e.head? = some '.') ∨
      (g.Begins c .feature ∧ ∃ b e, featureOver g g.parse c = .ok b e ∧ e.head? = some '@') := by
  have hbasic : ∀ p ∈ g.basics .vector, p c = .ok a d → g.Begins c .vector := fun p hp hok =>
    begins_of_ok hreg hp hok hd
  obtain ⟨hliteral, hbasic⟩ := List.forall_mem_cons.mp hbasic
  obtain ⟨hcall, hbasic⟩ := List.forall_mem_cons.mp hbasic
  obtain ⟨hparen, hbasic⟩ := List.forall_mem_cons.mp hbasic
  have hsymbol := List.forall_mem_singleton.mp hbasic
  obtain ⟨p, hp, hok⟩ := ok_of_choice (ok_of_labelled h)
  revert p
  refine List.forall_mem_cons.mpr ⟨fun h => .inl (hliteral h), ?_⟩
  refine List.forall_mem_cons.mpr ⟨fun h => .inl (hcall h), ?_⟩
  refine List.forall_mem_cons.mpr ⟨fun h => .inr (.inl ?_), ?_⟩
  · obtain ⟨b, e, hb, he⟩ := ok_of_datumPart h
    exact ⟨begins_of_datum hreg hb (not_atParen he (by decide)), b, e, hb, he⟩
  refine List.forall_mem_cons.mpr ⟨fun h => .inr (.inr ?_), ?_⟩
  · obtain ⟨b, e, hb, he⟩ := ok_of_featurePoint h
    exact ⟨begins_of_feature hreg hb (not_atParen he (by decide)), b, e, hb, he⟩
  exact List.forall_mem_cons.mpr ⟨fun h => .inl (hparen h),
    List.forall_mem_singleton.mpr fun h => .inl (hsymbol h)⟩

/-- A scalar without operators is a basic one, a component of a vector or a value of a feature. -/
theorem scalarPrimary_cases {a : ScalarExpr} (h : scalarPrimary g g.parse c = .ok a d)
    (hd : ¬ AtParen d) : g.Begins c .scalar ∨
      (∃ b e, vectorPrimary g g.parse c = .ok b e ∧ e.head? = some '.') ∨
      (g.Begins c .feature ∧ ∃ b e, featureOver g g.parse c = .ok b e ∧ e.head? = some '$') := by
  have hbasic : ∀ p ∈ g.basics .scalar, p c = .ok a d → g.Begins c .scalar := fun p hp hok =>
    begins_of_ok hreg hp hok hd
  obtain ⟨hnumber, hbasic⟩ := List.forall_mem_cons.mp hbasic
  obtain ⟨hcall, hbasic⟩ := List.forall_mem_cons.mp hbasic
  obtain ⟨hparen, hbasic⟩ := List.forall_mem_cons.mp hbasic
  have hsymbol := List.forall_mem_singleton.mp hbasic
  obtain ⟨p, hp, hok⟩ := ok_of_choice (ok_of_labelled h)
  revert p
  refine List.forall_mem_cons.mpr ⟨fun h => .inl (hnumber h), ?_⟩
  refine List.forall_mem_cons.mpr ⟨fun h => .inl (hcall h), ?_⟩
  refine List.forall_mem_cons.mpr ⟨fun h => .inr (.inl (ok_of_component h)), ?_⟩
  refine List.forall_mem_cons.mpr ⟨fun h => .inl (hparen h), ?_⟩
  refine List.forall_mem_cons.mpr ⟨fun h => .inr (.inr ?_), ?_⟩
  · obtain ⟨b, e, hb, he⟩ := ok_of_featureValue h
    exact ⟨begins_of_feature hreg hb (not_atParen he (by decide)), b, e, hb, he⟩
  exact List.forall_mem_singleton.mpr fun h => .inl (hsymbol h)

variable (hsep : g.SeparateBelow c.rest.length)
include hsep

/-- Where a basic scalar begins, no vector does. -/
theorem vectorPrimary_of_begins (h : g.Begins c .scalar) :
    (vectorPrimary g g.parse).Ends c AtParen := by
  have honly := h.only hreg hsep
  refine vectorPrimary_absent (honly _ nofun) ?_ ?_
  · exact (datum_ends (honly _ nofun)).imp fun _ hd => hd.head?_ne (by decide)
  · exact (feature_ends (honly _ nofun)).imp fun _ hd => hd.head?_ne (by decide)

/-- Where a feature is read that has no point there, no vector begins. -/
theorem vectorPrimary_of_feature {a : FeatureRef} (h : featureOver g g.parse c = .ok a d)
    (hd : ¬ AtParen d) (hpoint : d.head? ≠ some '@') :
    (vectorPrimary g g.parse).Ends c AtParen := by
  have honly := (begins_of_feature hreg h hd).only hreg hsep
  refine vectorPrimary_absent (honly _ nofun) ?_ (Ends.of_ok h hpoint)
  exact (datum_ends (honly _ nofun)).imp fun _ hd => hd.head?_ne (by decide)

/-- Where a scalar is read, a vector ends before what makes it one. -/
theorem vectorPrimary_of_scalarPrimary {a : ScalarExpr}
    (h : scalarPrimary g g.parse c = .ok a d) (hd : ¬ AtParen d) :
    (vectorPrimary g g.parse).Ends c AtPart := by
  rcases scalarPrimary_cases hreg h hd with hscalar | ⟨b, e, hb, he⟩ | ⟨-, b, e, hb, he⟩
  · exact (vectorPrimary_of_begins hreg hsep hscalar).imp fun _ => .inl
  · exact Ends.of_ok hb (.inr he)
  · have hend := vectorPrimary_of_feature hreg hsep hb (not_atParen he (by decide))
      (by rw [he]; decide)
    exact hend.imp fun _ => .inl

/-- Where a vector is read that nothing is a part of, no scalar begins. -/
theorem scalarPrimary_of_vectorPrimary {a : VectorExpr}
    (h : vectorPrimary g g.parse c = .ok a d) (hd : ¬ AtPart d) :
    (scalarPrimary g g.parse).Ends c AtParen := by
  have hcomponent := component_stops (Ends.of_ok h fun hdot => hd (.inr hdot))
  rcases vectorPrimary_cases hreg h fun hparen => hd (.inl hparen) with
    hvector | ⟨hdatum, -⟩ | ⟨hfeature, b, e, hb, he⟩
  · have honly := hvector.only hreg hsep
    refine scalarPrimary_ends (honly _ nofun) hcomponent (featureValue_stops ?_)
    exact (feature_ends (honly _ nofun)).imp fun _ hd => hd.head?_ne (by decide)
  · have honly := hdatum.only hreg hsep
    refine scalarPrimary_ends (honly _ nofun) hcomponent (featureValue_stops ?_)
    exact (feature_ends (honly _ nofun)).imp fun _ hd => hd.head?_ne (by decide)
  · refine scalarPrimary_ends (hfeature.only hreg hsep _ nofun) hcomponent (featureValue_stops ?_)
    exact Ends.of_ok hb (by rw [he]; decide)

end Primaries

/-! ### Signs and powers -/

/-- A scalar without operators, and then either nothing or a power. -/
theorem ok_of_scalarUnary {a : ScalarExpr} (hsign : c.head? ≠ some '-')
    (h : scalarUnaryOver g g.parse c = .ok a d) :
    ∃ b e, scalarPrimary g g.parse c = .ok b e ∧ (e = d ∨ e.head? = some '^') := by
  unfold scalarUnaryOver at h
  rw [(mark_stops hsign).optional_bind] at h
  obtain ⟨b, e, hb, h⟩ := ok_of_bind h
  refine ⟨b, e, hb, ?_⟩
  by_cases he : e.head? = some '^'
  · exact .inr he
  · rw [(mark_stops he).optional_bind] at h
    exact .inl (Outcome.ok.inj h).2

theorem scalarUnary_ends (hsign : c.head? ≠ some '-')
    (h : (scalarPrimary g g.parse).Ends c AtParen) :
    (scalarUnaryOver g g.parse).Ends c AtParen := by
  refine Ends.of_eq ((mark_stops hsign).optional_bind) (h.bind fun b e _ he => ?_)
  exact Ends.of_eq ((mark_stops (he.head?_ne (by decide))).optional_bind) he

theorem vectorUnary_eq (hsign : c.head? ≠ some '-') :
    vectorUnaryOver g g.parse c = vectorPrimary g g.parse c := (mark_stops hsign).optional_bind

theorem scalarUnary_sign (hsign : c.head? = some '-') :
    scalarUnaryOver g g.parse c = (ScalarExpr.neg <$> scalarUnaryOver g g.parse) c.after := by
  show (optional (mark '-') >>= _) c = _
  rw [bind_ok (optional_ok (mark_ok hsign)), ← parse_scalarUnary]
  rfl

theorem vectorUnary_sign (hsign : c.head? = some '-') :
    vectorUnaryOver g g.parse c = (VectorExpr.neg <$> vectorUnaryOver g g.parse) c.after := by
  show (optional (mark '-') >>= _) c = _
  rw [bind_ok (optional_ok (mark_ok hsign)), ← parse_vectorUnary]
  rfl

section Signs

variable (hreg : g.registry.Unreserved)
include hreg

/-- Where a signed scalar is read, a signed vector ends before what makes it one. -/
theorem vectorUnary_of_scalarUnary {a : ScalarExpr} (hsep : g.SeparateBelow c.rest.length)
    (h : scalarUnaryOver g g.parse c = .ok a d) (hd : ¬ AtParen d) :
    (vectorUnaryOver g g.parse).Ends c AtPart := by
  induction c using Cursor.shortening generalizing a with
  | _ c ih =>
    by_cases hsign : c.head? = some '-'
    · have hlt := Cursor.after_length hsign
      obtain ⟨b, e, hb, h⟩ := ok_of_bind ((scalarUnary_sign hsign).symm.trans h)
      obtain ⟨-, rfl⟩ := Outcome.ok.inj h
      refine Ends.of_eq (vectorUnary_sign hsign) (Ends.map ?_)
      exact ih _ hlt (hsep.mono (Nat.le_of_lt hlt)) hb
    · obtain ⟨b, e, hb, he⟩ := ok_of_scalarUnary hsign h
      refine Ends.of_eq (vectorUnary_eq hsign) (vectorPrimary_of_scalarPrimary hreg hsep hb ?_)
      rcases he with rfl | he
      · exact hd
      · exact not_atParen he (by decide)

/-- Where a signed vector is read that nothing is a part of, no signed scalar is. -/
theorem scalarUnary_of_vectorUnary {a : VectorExpr} (hsep : g.SeparateBelow c.rest.length)
    (h : vectorUnaryOver g g.parse c = .ok a d) (hd : ¬ AtPart d) :
    (scalarUnaryOver g g.parse).Ends c AtParen := by
  induction c using Cursor.shortening generalizing a with
  | _ c ih =>
    by_cases hsign : c.head? = some '-'
    · have hlt := Cursor.after_length hsign
      obtain ⟨b, e, hb, h⟩ := ok_of_bind ((vectorUnary_sign hsign).symm.trans h)
      obtain ⟨-, rfl⟩ := Outcome.ok.inj h
      refine Ends.of_eq (scalarUnary_sign hsign) (Ends.map ?_)
      exact ih _ hlt (hsep.mono (Nat.le_of_lt hlt)) hb
    · rw [vectorUnary_eq hsign] at h
      exact scalarUnary_ends hsign (scalarPrimary_of_vectorPrimary hreg hsep h hd)

end Signs

/-! ### Factors -/

theorem scalarUnary_agree (g : Grammar) (n : Nat) :
    Agree n 0 (scalarUnaryOver g g.parse) (scalarUnaryOver g g.parse) := by
  rw [← parse_scalarUnary]
  exact .of_at fun c => (parse_onward g .scalarUnary c).imp fun _ _ h => h.mono (Nat.zero_le 1)

theorem vectorFactor_ends (hscaled : (scaledVector g g.parse).Ends c P)
    (h : (vectorUnaryOver g g.parse).Ends c P) : (vectorFactorOver g g.parse).Ends c P := by
  cases hs : scaledVector g g.parse c with
  | ok a rest => exact Ends.of_eq (q := pure a) (bind_ok (optional_ok hs)) (hscaled.place hs)
  | error stops => exact Ends.of_eq (Stops.of_eq hs).optional_bind h
  | failure stops notice =>
    unfold Ends at hscaled
    rw [hs] at hscaled
    exact hscaled.elim

/-- A vector with a scalar factor on its left, or one without. -/
theorem ok_of_vectorFactor {a : VectorExpr} (h : vectorFactorOver g g.parse c = .ok a d) :
    vectorUnaryOver g g.parse c = .ok a d ∨ ∃ b e x, scalarUnaryOver g g.parse c = .ok b e ∧
      e.head? = some '*' ∧ vectorFactorOver g g.parse e.after = .ok x d := by
  obtain ⟨o, mid, ho, hrest⟩ := ok_of_bind h
  rcases ok_of_optional ho with ⟨v, rfl, hs⟩ | ⟨rfl, rfl, -⟩
  · obtain ⟨-, rfl⟩ := Outcome.ok.inj hrest
    obtain ⟨b, e, hb, hs⟩ := ok_of_bind hs
    obtain ⟨_, f, hmark, hs⟩ := ok_of_bind hs
    obtain ⟨x, last, hx, hs⟩ := ok_of_bind hs
    obtain ⟨-, rfl⟩ := Outcome.ok.inj hs
    obtain ⟨he, rfl⟩ := mark_inv hmark
    rw [parse_vectorFactor] at hx
    exact .inr ⟨b, e, x, hb, he, hx⟩
  · exact .inl hrest

/-- A product of scalars begins with a signed scalar. -/
theorem ok_of_scalarTerm {a : ScalarExpr} (h : scalarTerm g g.parse c = .ok a d)
    (hd : ¬ AtParen d) : ∃ b e, scalarUnaryOver g g.parse c = .ok b e ∧ ¬ AtParen e :=
  ok_of_chain (P := fun e => ¬ AtParen e) h hd (fun _ h => not_atParen h (by decide))
    fun _ h => not_atParen h (by decide)

/-- After a scalar factor, a product of scalars goes on like one that begins there. -/
theorem scalarTerm_match {b : ScalarExpr} {e : Cursor} (h : scalarUnaryOver g g.parse c = .ok b e)
    (he : e.head? = some '*') :
    Match (fun _ _ => True) (scalarTerm g g.parse c) (scalarTerm g g.parse e.after) := by
  unfold scalarTerm
  exact chain_match (scalarUnary_agree g) h (operator_left he) (.inl he)

theorem scalarUnary_shortens {b : ScalarExpr} {e : Cursor}
    (h : scalarUnaryOver g g.parse c = .ok b e) : e.rest.length < c.rest.length := by
  rw [← parse_scalarUnary] at h
  exact parse_shortens g .scalarUnary c b e h

section Factors

variable (hreg : g.registry.Unreserved)
include hreg

/-- Where a product of scalars is read, a vector with scalar factors ends before what makes it
one. -/
theorem vectorFactor_of_scalarTerm {a : ScalarExpr} (hsep : g.SeparateBelow c.rest.length)
    (h : scalarTerm g g.parse c = .ok a d) (hd : ¬ AtParen d) :
    (vectorFactorOver g g.parse).Ends c AtPart := by
  induction c using Cursor.shortening generalizing a with
  | _ c ih =>
    obtain ⟨b, e, hb, hparen⟩ := ok_of_scalarTerm h hd
    refine vectorFactor_ends ?_ (vectorUnary_of_scalarUnary hreg hsep hb hparen)
    refine Ends.bind (P := fun e' => e' = e) (Ends.of_ok hb rfl) ?_
    rintro _ _ - rfl
    refine (mark_ends _).bind fun _ _ hmark hstar => ?_
    obtain ⟨-, rfl⟩ := mark_inv hmark
    have hlt := Nat.lt_trans (Cursor.after_length hstar) (scalarUnary_shortens hb)
    obtain ⟨x, hx⟩ := (scalarTerm_match hb hstar).exists_ok h
    rw [parse_vectorFactor]
    exact (ih _ hlt (hsep.mono (Nat.le_of_lt hlt)) hx).bind fun _ _ _ hd => .pure hd

/-- Where a vector with scalar factors is read that nothing is a part of, no product of scalars
is. -/
theorem scalarTerm_of_vectorFactor {a : VectorExpr} (hsep : g.SeparateBelow c.rest.length)
    (h : vectorFactorOver g g.parse c = .ok a d) (hd : ¬ AtPart d) :
    (scalarTerm g g.parse).Ends c AtParen := by
  induction c using Cursor.shortening generalizing a with
  | _ c ih =>
    rcases ok_of_vectorFactor h with h | ⟨b, e, x, hb, he, hx⟩
    · exact chain_ends (scalarUnary_of_vectorUnary hreg hsep h hd)
        (fun _ hd => hd.head?_ne (by decide)) fun _ hd => hd.head?_ne (by decide)
    · have hlt := Nat.lt_trans (Cursor.after_length he) (scalarUnary_shortens hb)
      exact (scalarTerm_match hb he).symm.ends (ih _ hlt (hsep.mono (Nat.le_of_lt hlt)) hx)

end Factors

/-! ## Sums -/

theorem scalar_ends (h : (scalarTerm g g.parse).Ends c AtParen) :
    (scalarOver g g.parse).Ends c AtParen :=
  chain_ends h (fun _ hd => hd.head?_ne (by decide)) fun _ hd => hd.head?_ne (by decide)

theorem AtPart.head?_ne (h : AtPart c) {ch : Char} (hparen : '(' ≠ ch) (hdot : '.' ≠ ch) :
    c.head? ≠ some ch :=
  h.elim (fun h => h.head?_ne hparen) fun h heq => hdot (Option.some.inj (h.symm.trans heq))

theorem not_atPart {ch : Char} (h : c.head? = some ch) (hparen : '(' ≠ ch) (hdot : '.' ≠ ch) :
    ¬ AtPart c := fun hc => hc.head?_ne hparen hdot h

theorem vector_ends (h : (vectorFactorOver g g.parse).Ends c AtPart) :
    (vectorOver g g.parse).Ends c AtPart := by
  refine chain_ends (chain_ends h ?_ ?_) ?_ ?_ <;>
    exact fun _ hd => hd.head?_ne (by decide) (by decide)

/-- A sum of scalars begins with a product. -/
theorem ok_of_scalar {a : ScalarExpr} (h : scalarOver g g.parse c = .ok a d) (hd : ¬ AtParen d) :
    ∃ b e, scalarTerm g g.parse c = .ok b e ∧ ¬ AtParen e :=
  ok_of_chain (P := fun e => ¬ AtParen e) h hd (fun _ h => not_atParen h (by decide))
    fun _ h => not_atParen h (by decide)

/-- A sum of vectors begins with a vector with scalar factors. -/
theorem ok_of_vector {a : VectorExpr} (h : vectorOver g g.parse c = .ok a d) (hd : ¬ AtPart d) :
    ∃ b e, vectorFactorOver g g.parse c = .ok b e ∧ ¬ AtPart e := by
  obtain ⟨t, f, ht, hf⟩ := ok_of_chain (P := fun e => ¬ AtPart e) h hd
    (fun _ h => not_atPart h (by decide) (by decide))
    fun _ h => not_atPart h (by decide) (by decide)
  exact ok_of_chain (P := fun e => ¬ AtPart e) ht hf
    (fun _ h => not_atPart h (by decide) (by decide))
    fun _ h => not_atPart h (by decide) (by decide)

/-! ## Phrases of two kinds -/

/-- A signed vector or a signed scalar begins at a place. -/
def Measured (g : Grammar) (c : Cursor) : Prop :=
  c.head? = some '-' ∨ (∃ a d, scalarPrimary g g.parse c = .ok a d ∧ ¬ AtParen d) ∨
    ∃ a d, vectorPrimary g g.parse c = .ok a d ∧ ¬ AtParen d

theorem measured_of_scalarUnary {a : ScalarExpr} (h : scalarUnaryOver g g.parse c = .ok a d)
    (hd : ¬ AtParen d) : g.Measured c := by
  by_cases hsign : c.head? = some '-'
  · exact .inl hsign
  · obtain ⟨b, e, hb, he⟩ := ok_of_scalarUnary hsign h
    refine .inr (.inl ⟨b, e, hb, ?_⟩)
    rcases he with rfl | he
    · exact hd
    · exact not_atParen he (by decide)

theorem measured_of_scalar {a : ScalarExpr} (h : scalarOver g g.parse c = .ok a d)
    (hd : ¬ AtParen d) : g.Measured c := by
  obtain ⟨t, f, ht, hf⟩ := ok_of_scalar h hd
  obtain ⟨b, e, hb, he⟩ := ok_of_scalarTerm ht hf
  exact measured_of_scalarUnary hb he

theorem measured_of_vector {a : VectorExpr} (h : vectorOver g g.parse c = .ok a d)
    (hd : ¬ AtPart d) : g.Measured c := by
  obtain ⟨b, e, hb, he⟩ := ok_of_vector h hd
  rcases ok_of_vectorFactor hb with hb | ⟨b, f, x, hb, hf, -⟩
  · by_cases hsign : c.head? = some '-'
    · exact .inl hsign
    · rw [vectorUnary_eq hsign] at hb
      exact .inr (.inr ⟨b, e, hb, fun hparen => he (.inl hparen)⟩)
  · exact measured_of_scalarUnary hb (not_atParen hf (by decide))

/-- The rule of a kind, over all rules of the grammar. -/
theorem parse_apply (g : Grammar) (rule : Rule) (c : Cursor) :
    g.parse rule c = ruleOver g g.parse rule c := by rw [← parse_eq]

/-- Kinds whose phrases have no signs and are no factors. -/
def Plain (kind : SymbolKind) : Prop := kind ≠ .scalar ∧ kind ≠ .vector

theorem Plain.ends (hkind : Plain kind) (h : g.Absent c kind) :
    (g.parse kind.rule).Ends c AtParen := by
  cases kind with
  | scalar => exact absurd rfl hkind.1
  | vector => exact absurd rfl hkind.2
  | datum => exact Ends.of_eq (parse_apply g .datum c) (datum_ends h)
  | selection => exact Ends.of_eq (parse_apply g .selection c) (selection_ends h)
  | feature => exact Ends.of_eq (parse_apply g .feature c) (feature_ends h)

theorem Plain.begins (hreg : g.registry.Unreserved) (hkind : Plain kind) {a : kind.rule.Value}
    (h : g.parse kind.rule c = .ok a d) (hd : ¬ AtParen d) : g.Begins c kind := by
  cases kind with
  | scalar => exact absurd rfl hkind.1
  | vector => exact absurd rfl hkind.2
  | datum => exact begins_of_datum hreg ((parse_apply g .datum c).symm.trans h) hd
  | selection => exact begins_of_selection hreg ((parse_apply g .selection c).symm.trans h) hd
  | feature => exact begins_of_feature hreg ((parse_apply g .feature c).symm.trans h) hd

/-- Where only phrases of one kind begin, none of a plain kind is read up to a closing mark,
unless it is of that kind. -/
theorem Plain.open_of_only {other : SymbolKind} (hother : Plain other) (h : g.Only c kind)
    (hown : other = kind → (g.parse other.rule).Ends c fun e => ¬ Closes e) :
    (g.parse other.rule).Ends c fun e => ¬ Closes e := by
  by_cases heq : other = kind
  · exact hown heq
  · exact (hother.ends (h other heq)).imp fun _ => not_closes_of_atParen

theorem not_closes {ch : Char} (h : c.head? = some ch) (hne : ch ∉ [';', ',', ')', ']']) :
    ¬ Closes c := fun hc => hc.head?_ne hne h

section Kinds

variable (hreg : g.registry.Unreserved) (hsep : g.SeparateBelow c.rest.length)
include hreg hsep

theorem Plain.open_of_vectorPrimary (hkind : Plain kind) {a : VectorExpr}
    (h : vectorPrimary g g.parse c = .ok a d) (hd : ¬ AtParen d) :
    (g.parse kind.rule).Ends c fun e => ¬ Closes e := by
  rcases vectorPrimary_cases hreg h hd with
    hvector | ⟨hdatum, b, e, hb, he⟩ | ⟨hfeature, b, e, hb, he⟩
  · exact hkind.open_of_only (hvector.only hreg hsep) fun heq => absurd heq hkind.2
  · refine hkind.open_of_only (hdatum.only hreg hsep) ?_
    rintro rfl
    exact Ends.of_ok ((parse_apply g .datum c).trans hb) (not_closes he (by decide))
  · refine hkind.open_of_only (hfeature.only hreg hsep) ?_
    rintro rfl
    exact Ends.of_ok ((parse_apply g .feature c).trans hb) (not_closes he (by decide))

/-- No phrase of a plain kind is read up to a closing mark where a signed scalar or vector
begins. -/
theorem Plain.open_of_measured (hkind : Plain kind) (h : g.Measured c) :
    (g.parse kind.rule).Ends c fun e => ¬ Closes e := by
  rcases h with hsign | ⟨a, d, h, hd⟩ | ⟨a, d, h, hd⟩
  · exact hkind.open_of_only ((begins_of_sign hsign).only hreg hsep) fun heq => absurd heq hkind.1
  · rcases scalarPrimary_cases hreg h hd with
      hscalar | ⟨b, e, hb, he⟩ | ⟨hfeature, b, e, hb, he⟩
    · exact hkind.open_of_only (hscalar.only hreg hsep) fun heq => absurd heq hkind.1
    · exact hkind.open_of_vectorPrimary hreg hsep hb (not_atParen he (by decide))
    · refine hkind.open_of_only (hfeature.only hreg hsep) ?_
      rintro rfl
      exact Ends.of_ok ((parse_apply g .feature c).trans hb) (not_closes he (by decide))
  · exact hkind.open_of_vectorPrimary hreg hsep h hd

section Closed

variable (hkind : Plain kind) {a : kind.rule.Value} (h : g.parse kind.rule c = .ok a d)
  (hd : Closes d)
include hkind h hd

/-- Where a phrase of a plain kind is read up to a closing mark, no phrase of a plain kind ends
at another mark. -/
theorem Plain.closed_ends {other : SymbolKind} (hother : Plain other) {ch : Char}
    (hparen : '(' ≠ ch) (hch : ch ∉ [';', ',', ')', ']']) :
    (g.parse other.rule).Ends c fun e => e.head? ≠ some ch := by
  by_cases heq : other = kind
  · subst heq
    exact Ends.of_ok h (hd.head?_ne hch)
  · have honly := (hkind.begins hreg h hd.not_atParen).only hreg hsep
    exact (hother.ends (honly other heq)).imp fun _ he => he.head?_ne hparen

theorem Plain.closed_sign : c.head? ≠ some '-' := by
  intro hsign
  have habsent := (begins_of_sign hsign).only hreg hsep kind hkind.1
  exact hd.not_atParen ((hkind.ends habsent).place h)

theorem Plain.closed_feature {ch : Char} (hparen : '(' ≠ ch) (hch : ch ∉ [';', ',', ')', ']']) :
    (featureOver g g.parse).Ends c fun e => e.head? ≠ some ch := by
  have hfeature : Plain .feature := ⟨nofun, nofun⟩
  exact Ends.of_eq (parse_apply g .feature c).symm
    (hkind.closed_ends hreg hsep h hd hfeature hparen hch)

theorem Plain.closed_vectorPrimary : (vectorPrimary g g.parse).Ends c AtParen := by
  have honly := (hkind.begins hreg h hd.not_atParen).only hreg hsep
  have hplain : Plain .datum := ⟨nofun, nofun⟩
  have hdatum : (datumOver g g.parse).Ends c fun e => e.head? ≠ some '.' :=
    Ends.of_eq (parse_apply g .datum c).symm
      (hkind.closed_ends hreg hsep h hd hplain (by decide) (by decide))
  exact vectorPrimary_absent (honly _ hkind.2.symm) hdatum
    (hkind.closed_feature hreg hsep h hd (by decide) (by decide))

theorem Plain.closed_scalarUnary : (scalarUnaryOver g g.parse).Ends c AtParen := by
  have honly := (hkind.begins hreg h hd.not_atParen).only hreg hsep
  have hsign := hkind.closed_sign hreg hsep h hd
  have hvector := hkind.closed_vectorPrimary hreg hsep h hd
  refine scalarUnary_ends hsign (scalarPrimary_ends (honly _ hkind.1.symm) ?_ ?_)
  · exact component_stops (hvector.imp fun _ he => he.head?_ne (by decide))
  · exact featureValue_stops (hkind.closed_feature hreg hsep h hd (by decide) (by decide))

theorem Plain.closed_scalar : (g.parse .scalar).Ends c AtParen := by
  refine Ends.of_eq (parse_apply g .scalar c) (scalar_ends ?_)
  exact chain_ends (hkind.closed_scalarUnary hreg hsep h hd) (fun _ he => he.head?_ne (by decide))
    fun _ he => he.head?_ne (by decide)

theorem Plain.closed_vector : (g.parse .vector).Ends c AtPart := by
  have hsign := hkind.closed_sign hreg hsep h hd
  refine Ends.of_eq (parse_apply g .vector c) (vector_ends (vectorFactor_ends ?_ ?_))
  · refine Stops.ends ((hkind.closed_scalarUnary hreg hsep h hd).bind fun _ _ _ he => ?_)
    exact (mark_stops (he.head?_ne (by decide))).bind
  · exact Ends.of_eq (vectorUnary_eq hsign)
      ((hkind.closed_vectorPrimary hreg hsep h hd).imp fun _ => .inl)

end Closed

/-! ## The grammar is unambiguous -/

theorem separate_scalar_vector {a : ScalarExpr} (h : g.parse .scalar c = .ok a d)
    (hd : Closes d) : (g.parse .vector).Ends c fun e => ¬ Closes e := by
  obtain ⟨b, e, hb, he⟩ := ok_of_scalar ((parse_apply g .scalar c).symm.trans h) hd.not_atParen
  have hfactor := vectorFactor_of_scalarTerm hreg hsep hb he
  exact (Ends.of_eq (parse_apply g .vector c) (vector_ends hfactor)).imp fun _ he hc =>
    hc.not_atPart he

theorem separate_vector_scalar {a : VectorExpr} (h : g.parse .vector c = .ok a d)
    (hd : Closes d) : (g.parse .scalar).Ends c fun e => ¬ Closes e := by
  obtain ⟨b, e, hb, he⟩ := ok_of_vector ((parse_apply g .vector c).symm.trans h) hd.not_atPart
  have hterm := scalarTerm_of_vectorFactor hreg hsep hb he
  exact (Ends.of_eq (parse_apply g .scalar c) (scalar_ends hterm)).imp fun _ =>
    not_closes_of_atParen

/-- What stands at a place is of one kind, if it is so at all later places. -/
theorem separate_of_below : g.Separate c := by
  intro kind other hne a d h hd
  by_cases hkind : Plain kind
  · by_cases hother : Plain other
    · exact (hother.ends ((hkind.begins hreg h hd.not_atParen).only hreg hsep other hne.symm)).imp
        fun _ => not_closes_of_atParen
    · cases other with
      | scalar => exact (hkind.closed_scalar hreg hsep h hd).imp fun _ => not_closes_of_atParen
      | vector => exact (hkind.closed_vector hreg hsep h hd).imp fun _ he hc => hc.not_atPart he
      | _ => exact absurd ⟨nofun, nofun⟩ hother
  · by_cases hother : Plain other
    · refine hother.open_of_measured hreg hsep ?_
      cases kind with
      | scalar => exact measured_of_scalar ((parse_apply g .scalar c).symm.trans h) hd.not_atParen
      | vector => exact measured_of_vector ((parse_apply g .vector c).symm.trans h) hd.not_atPart
      | _ => exact absurd ⟨nofun, nofun⟩ hkind
    · cases kind with
      | scalar =>
        cases other with
        | scalar => exact absurd rfl hne
        | vector => exact separate_scalar_vector hreg hsep h hd
        | _ => exact absurd ⟨nofun, nofun⟩ hother
      | vector =>
        cases other with
        | scalar => exact separate_vector_scalar hreg hsep h hd
        | vector => exact absurd rfl hne
        | _ => exact absurd ⟨nofun, nofun⟩ hother
      | _ => exact absurd ⟨nofun, nofun⟩ hkind

end Kinds

theorem separate (hreg : g.registry.Unreserved) (c : Cursor) : g.Separate c := by
  induction c using Cursor.shortening with
  | _ c ih => exact separate_of_below hreg ih

/-! ## Right-hand sides -/

/-- The right-hand side of a binding with its semicolon, read as a phrase of one kind. -/
def boundAs (g : Grammar) (kind : SymbolKind) : Parser BoundValue := do
  return BoundValue.of kind (← ended (g.parse kind.rule))

theorem boundValue_eq (g : Grammar) : boundValue g =
    furthestChoice none ([.feature, .selection, .datum, .vector, .scalar].map g.boundAs) := rfl

/-- The one alternative that does not stop is taken. -/
theorem furthestChoice_ok {ps : List (Parser α)} {p : Parser α} {a : α} (h : p c = .ok a d)
    (hp : p ∈ ps) (hothers : ∀ q ∈ ps, q = p ∨ q.Stops c) (best : Option (List Stop)) :
    furthestChoice best ps c = .ok a d := by
  induction ps generalizing best with
  | nil => cases hp
  | cons q ps ih =>
    unfold furthestChoice
    rcases hothers q List.mem_cons_self with rfl | hstops
    · rw [h]
    · obtain ⟨stops, hq⟩ := stops_iff.mp hstops
      have hmem : p ∈ ps := by
        rcases List.mem_cons.mp hp with rfl | hmem
        · rw [h] at hq
          cases hq
        · exact hmem
      have hrest := ih hmem fun r hr => hothers r (List.mem_cons_of_mem q hr)
      rw [hq]
      cases best with
      | none => exact hrest _
      | some found => exact hrest _

theorem ok_of_furthestChoice {ps : List (Parser α)} {a : α} {best : Option (List Stop)}
    (h : furthestChoice best ps c = .ok a d) : ∃ p ∈ ps, p c = .ok a d := by
  induction ps generalizing best with
  | nil => cases h
  | cons p ps ih =>
    unfold furthestChoice at h
    cases hp : p c with
    | ok b rest =>
      rw [hp] at h
      exact ⟨p, List.mem_cons_self, hp.trans h⟩
    | error stops =>
      have hrest : ∃ best, furthestChoice best ps c = .ok a d := by
        rw [hp] at h
        cases best with
        | none => exact ⟨_, h⟩
        | some found => exact ⟨_, h⟩
      obtain ⟨_, hrest⟩ := hrest
      obtain ⟨q, hq, hok⟩ := ih hrest
      exact ⟨q, List.mem_cons_of_mem p hq, hok⟩
    | failure stops notice => simp [hp] at h

section BoundValues

variable (hreg : g.registry.Composed) {value : BoundValue}
include hreg

/-- Where a right-hand side is a phrase of one kind, the rules of the other kinds stop. -/
theorem boundAs_stops (h : g.boundAs kind c = .ok value d) {other : SymbolKind}
    (hne : other ≠ kind) : (g.boundAs other).Stops c := by
  obtain ⟨a, mid, hended, -⟩ := ok_of_bind h
  obtain ⟨b, e, hb, hended⟩ := ok_of_bind hended
  obtain ⟨_, _, hsemicolon, -⟩ := ok_of_bind hended
  obtain ⟨he, -⟩ := mark_inv (ok_of_labelled hsemicolon)
  have hcloses : Closes e := ⟨';', by decide, he⟩
  have hopen := separate hreg.unreserved c kind other hne.symm b e hb hcloses
  refine Stops.bind (hopen.bind fun _ f _ hf => ?_)
  exact Stops.bind (Ends.labelled _ (mark_stops fun heq => hf ⟨';', by decide, heq⟩))

/-- In whatever order all kinds are tried, what is read is read as a phrase of some kind. -/
theorem furthestChoice_boundAs {order : List SymbolKind} (hall : ∀ kind, kind ∈ order) :
    furthestChoice none (order.map g.boundAs) c = .ok value d ↔
      ∃ kind, g.boundAs kind c = .ok value d := by
  constructor
  · intro h
    obtain ⟨p, hp, hok⟩ := ok_of_furthestChoice h
    obtain ⟨kind, -, rfl⟩ := List.mem_map.mp hp
    exact ⟨kind, hok⟩
  · rintro ⟨kind, h⟩
    refine furthestChoice_ok h (List.mem_map_of_mem (hall kind)) (fun q hq => ?_) none
    obtain ⟨other, -, rfl⟩ := List.mem_map.mp hq
    by_cases heq : other = kind
    · exact .inl (by rw [heq])
    · exact .inr (boundAs_stops hreg h heq)

/-- The right-hand side of a binding is unambiguous. Where it can be read as a phrase of one kind,
the binding reads just that, and the rules of all other kinds stop without having committed
themselves. In whatever order the kinds are tried, the same is read. -/
theorem boundValue_unambiguous (c : Cursor) :
    (∀ kind value rest, g.boundAs kind c = .ok value rest → boundValue g c = .ok value rest ∧
      ∀ other, other ≠ kind → ∃ stops, g.boundAs other c = .error stops) ∧
    ∀ order : List SymbolKind, (∀ kind, kind ∈ order) → ∀ value rest,
      furthestChoice none (order.map g.boundAs) c = .ok value rest ↔
        boundValue g c = .ok value rest := by
  have hbound : ∀ value rest, boundValue g c = .ok value rest ↔
      ∃ kind, g.boundAs kind c = .ok value rest := fun value rest => by
    rw [boundValue_eq]
    exact furthestChoice_boundAs hreg fun kind => by cases kind <;> decide
  constructor
  · intro kind value rest h
    refine ⟨(hbound value rest).mpr ⟨kind, h⟩, fun other hne => ?_⟩
    exact stops_iff.mp (boundAs_stops hreg h hne)
  · intro order hall value rest
    exact (furthestChoice_boundAs hreg hall).trans (hbound value rest).symm

end BoundValues

/-- An access to a sub-result in parentheses is read as a feature, and as nothing else. -/
theorem boundValue_unambiguous_subResult :
    let g : Grammar := ⟨⟨[Catalog.box]⟩, .empty⟩
    let c := Cursor.ofText "(F!top);"
    ∃ rest, boundValue g c = .ok (.feature (.sub (.named "F") "top")) rest ∧
      ∀ other, other ≠ .feature → ∃ stops, g.boundAs other c = .error stops := by
  have hbox : Registry.empty.register Catalog.box = .ok ⟨[Catalog.box]⟩ := rfl
  have hreg : Registry.Composed ⟨[Catalog.box]⟩ := .register .empty hbox
  exact ⟨_, (boundValue_unambiguous (g := ⟨⟨[Catalog.box]⟩, .empty⟩) hreg
    (Cursor.ofText "(F!top);")).1 .feature _ _ rfl⟩

end Grammar

end PartScript
