/-
  How phrases begin. The first word of a phrase tells its kind: a call by what is called, a name
  by what it is bound to. Only parentheses begin phrases of every kind.
-/
import PartScript.Grammar.Parse
import PartScript.Proofs.Outcomes

namespace PartScript

/-! ## Phrases of a kind -/

/-- The rule for whole phrases of a kind. -/
def SymbolKind.rule : SymbolKind → Grammar.Rule
  | .scalar => .scalar
  | .vector => .vector
  | .datum => .datum
  | .selection => .selection
  | .feature => .feature

/-- A bound value of a kind. -/
def BoundValue.of : (kind : SymbolKind) → kind.rule.Value → BoundValue
  | .scalar => .scalar
  | .vector => .vector
  | .datum => .datum
  | .selection => .selection
  | .feature => .feature

namespace Registry

/-- A registry is composed by registering one type after another. -/
inductive Composed : Registry → Prop where
  | empty : Composed .empty
  | register {registry extended : Registry} {type : FeatureType} :
    Composed registry → registry.register type = .ok extended → Composed extended

/-- No type is named by a word of the language. -/
def Unreserved (registry : Registry) : Prop :=
  ∀ type ∈ registry.types, isReserved type.name = false

theorem Composed.unreserved {registry : Registry} (h : registry.Composed) :
    registry.Unreserved := by
  induction h with
  | empty => exact nofun
  | register _ hok ih =>
    unfold Registry.register at hok
    split at hok
    · cases hok
    · next hfree =>
      split at hok
      · cases hok
      · obtain rfl := Except.ok.inj hok
        intro other hother
        rcases List.mem_append.mp hother with hold | hnew
        · exact ih other hold
        · obtain rfl := List.mem_singleton.mp hnew
          exact Bool.not_eq_true _ ▸ hfree

end Registry

namespace Grammar

open Grammar.Parser

/-- The phrases of a kind that are not read as parts of phrases of another kind. -/
def basics (g : Grammar) : (kind : SymbolKind) → List (Parser kind.rule.Value)
  | .scalar => [
      return ScalarExpr.literal (← number),
      scalarCall g.parse,
      parenthesized g.parse.scalar,
      return ScalarExpr.symbol (← symbol g .scalar)]
  | .vector => [
      vectorLiteral g.parse,
      vectorCall g.parse,
      parenthesized g.parse.vector,
      return VectorExpr.symbol (← symbol g .vector)]
  | .datum => [
      datumCall g.parse,
      parenthesized g.parse.datum,
      return DatumExpr.symbol (← symbol g .datum)]
  | .selection => [
      query g.parse,
      parenthesized g.parse.selection,
      return SelectionExpr.symbol (← symbol g .selection)]
  | .feature => [
      return FeatureRef.inline (← constructor g g.parse),
      do
        let _ ← mark '('
        let feature ← g.parse.feature
        let _ ← mark ')'
        return feature,
      featureName g]

/-- The kind of phrase that a call of a word is, whatever its arguments are. -/
def callKind (name : String) : SymbolKind :=
  if isReserved name = false then .feature
  else if (EntityKind.named.lookup name).isSome then .selection
  else if ["Point", "Axis", "Plane"].contains name then .datum
  else if ["Vector", "cross", "normalize"].contains name then .vector
  else .scalar

/-- The kind of phrase that a name is. A name that is not bound may be one of a feature. -/
def nameKind (g : Grammar) (name : String) : SymbolKind := (g.model.kindOf? name).getD .feature

/-- The kind of phrase that begins at a place, unless it begins with a parenthesis. -/
def kindAt (g : Grammar) (c : Cursor) : SymbolKind :=
  match identifier c.start with
  | .ok name d => if d.head? = some '(' then callKind name else g.nameKind name
  | _ => if c.head? = some '[' then .vector else .scalar

/-- An opening parenthesis stands at a place. -/
def AtParen (c : Cursor) : Prop := c.head? = some '('

/-- No basic phrase of a kind begins at a place. A name may stand there that is bound to a value
of the kind, but then it is called. -/
def Absent (g : Grammar) (c : Cursor) (kind : SymbolKind) : Prop :=
  ∀ p ∈ g.basics kind, p.Ends c AtParen

/-! ## Words -/

variable {g : Grammar} {c d : Cursor} {kind : SymbolKind} {α β : Type} {P : Cursor → Prop}

theorem someOf_ends (p : Char → Bool) (mismatch : Mismatch) (c : Cursor) :
    (someOf p mismatch).Ends c fun _ => ∃ ch, c.rest.head? = some ch ∧ p ch = true := by
  unfold Ends someOf Cursor.takeWhile
  cases hrest : c.rest with
  | nil => exact True.intro
  | cons ch chs =>
    by_cases hch : p ch = true
    · rw [List.takeWhile_cons_of_pos hch]
      exact ⟨ch, rfl, hch⟩
    · rw [List.takeWhile_cons_of_neg hch]
      exact True.intro

/-- A word begins with a letter that can begin it. -/
theorem identifier_ends (c : Cursor) :
    identifier.Ends c fun _ => ∃ ch, c.rest.head? = some ch ∧ isWordStart ch = true :=
  (someOf_ends _ _ c).bind fun _ _ _ h =>
    Ends.bind (P := fun _ => True) (Ends.of_ok rfl True.intro) fun _ _ _ _ => .pure h

theorem not_digit_of_wordStart {ch : Char} (h : isWordStart ch = true) : ch.isDigit = false := by
  unfold isWordStart at h
  rcases Bool.or_eq_true _ _ ▸ h with hunder | halpha
  · rw [eq_of_beq hunder]
    decide
  · have hupper : '9'.val.toNat < 'A'.val.toNat := by decide
    have hlower : '9'.val.toNat < 'a'.val.toNat := by decide
    unfold Char.isAlpha Char.isUpper Char.isLower at halpha
    unfold Char.isDigit
    simp only [Bool.or_eq_true, Bool.and_eq_true, decide_eq_true_eq, Bool.and_eq_false_iff,
      decide_eq_false_iff_not, UInt32.le_iff_toNat_le, ge_iff_le] at halpha ⊢
    omega

/-- What begins a word begins no number. -/
theorem not_number_of_wordStart {ch : Char} (h : isWordStart ch = true) :
    ch.isDigit = false ∧ ch ∉ ['+', '-', '.'] := by
  refine ⟨?_, fun hmem => ?_⟩
  · exact not_digit_of_wordStart h
  · have hall : ['+', '-', '.'].all (isWordStart · = false) = true := by decide
    rw [of_decide_eq_true (List.all_eq_true.mp hall ch hmem)] at h
    cases h

/-- A rule that begins with a word goes on after it. -/
theorem word_bind_ends {f : Cursor → String → Parser α}
    (h : ∀ name d, identifier c.start = .ok name d → (f c.start name).Ends d P) :
    (do
      trivia
      let start ← position
      let name ← identifier
      f start name).Ends c P := by
  show (identifier >>= f c.start).Ends c.start P
  exact (identifier_ends c.start).bind fun name d hname _ => h name d hname

/-- A rule that begins with a call goes on after its parenthesis. -/
theorem call_bind_ends {f : Cursor → String → Parser α}
    (h : ∀ name d, identifier c.start = .ok name d → d.head? = some '(' →
      (f c.start name).Ends d.after P) :
    (do
      trivia
      let start ← position
      let name ← identifier
      let _ ← mark '('
      f start name).Ends c P := by
  refine word_bind_ends fun name d hname => ?_
  refine (mark_ends d).bind fun _ d' hmark hd => ?_
  obtain ⟨-, rfl⟩ := mark_inv hmark
  exact h name d hname hd

theorem head?_of_identifier {name : String} (h : identifier c.start = .ok name d) :
    ∃ ch, c.head? = some ch ∧ isWordStart ch = true := by
  obtain ⟨ch, hch, hstart⟩ := (identifier_ends c.start).place h
  exact ⟨ch, hch, hstart⟩

/-- No word begins with a parenthesis. -/
theorem not_atParen_of_identifier {name : String} (h : identifier c.start = .ok name d) :
    ¬ AtParen c := by
  intro hparen
  obtain ⟨ch, hch, hstart⟩ := head?_of_identifier h
  obtain rfl := Option.some.inj (hparen.symm.trans hch)
  revert hstart
  decide

theorem kindAt_call {name : String} (h : identifier c.start = .ok name d)
    (hd : d.head? = some '(') : g.kindAt c = callKind name := by
  unfold kindAt
  rw [h]
  exact if_pos hd

theorem kindAt_name {name : String} (h : identifier c.start = .ok name d)
    (hd : d.head? ≠ some '(') : g.kindAt c = g.nameKind name := by
  unfold kindAt
  rw [h]
  exact if_neg hd

/-! ## Places where no phrase of a kind begins -/

/-- A parenthesis stands at a place, or a phrase of another kind begins there. -/
def Elsewhere (g : Grammar) (c : Cursor) (kind : SymbolKind) : Prop :=
  AtParen c ∨ g.kindAt c ≠ kind

theorem Elsewhere.callKind_ne (h : g.Elsewhere c kind) {name : String}
    (hname : identifier c.start = .ok name d) (hd : d.head? = some '(') : callKind name ≠ kind := by
  rcases h with hparen | hne
  · exact absurd hparen (not_atParen_of_identifier hname)
  · rwa [kindAt_call hname hd] at hne

theorem Elsewhere.nameKind_ne (h : g.Elsewhere c kind) {name : String}
    (hname : identifier c.start = .ok name d) (hd : d.head? ≠ some '(') :
    g.nameKind name ≠ kind := by
  rcases h with hparen | hne
  · exact absurd hparen (not_atParen_of_identifier hname)
  · rwa [kindAt_name hname hd] at hne

/-- A name of a value of another kind is none of this kind, unless it is called. -/
theorem symbol_ends (h : g.Elsewhere c kind) : (symbol g kind).Ends c AtParen := by
  refine word_bind_ends (f := fun start name => if g.model.kindOf? name = some kind then do
    trivia
    return name
    else reject start) fun name d hname => ?_
  by_cases hd : d.head? = some '('
  · split
    · exact Ends.of_ok (trivia_bind _ d) (d.head?_start.trans hd)
    · exact True.intro
  · rw [if_neg fun hkind => h.nameKind_ne hname hd (by rw [nameKind, hkind]; rfl)]
    exact True.intro

theorem Elsewhere.not_bracket (h : g.Elsewhere c .vector) : c.head? ≠ some '[' := by
  intro hbracket
  rcases h with hparen | hne
  · rw [hparen] at hbracket
    cases hbracket
  · refine hne ?_
    unfold kindAt
    split
    · next name d hname =>
      obtain ⟨ch, hch, hstart⟩ := head?_of_identifier hname
      obtain rfl := Option.some.inj (hbracket.symm.trans hch)
      exact absurd hstart (by decide)
    · exact if_pos hbracket

/-- What begins a word, or a bracket, begins no number. -/
theorem Elsewhere.not_number (h : g.Elsewhere c .scalar) {ch : Char} (hch : c.head? = some ch) :
    ch.isDigit = false ∧ ch ∉ ['+', '-', '.'] := by
  rcases h with hparen | hne
  · obtain rfl := Option.some.inj (hparen.symm.trans hch)
    decide
  · unfold kindAt at hne
    split at hne
    · next name d hname =>
      obtain ⟨ch', hch', hstart⟩ := head?_of_identifier hname
      obtain rfl := Option.some.inj (hch.symm.trans hch')
      exact not_number_of_wordStart hstart
    · split at hne
      · next hbracket =>
        obtain rfl := Option.some.inj (hbracket.symm.trans hch)
        decide
      · exact absurd rfl hne

/-- The words of a table are words of a kind. -/
theorem kind_of_lookup {table : List (String × α)} (hall : ∀ p ∈ table, callKind p.1 = kind)
    {name : String} {a : α} (h : table.lookup name = some a) : callKind name = kind := by
  obtain ⟨p, hp, heq⟩ := List.lookup_isSome_iff.mp (h ▸ rfl : (table.lookup name).isSome = true)
  rw [eq_of_beq heq]
  exact hall p hp

theorem datumCall_stops (h : g.Elsewhere c .datum) : (datumCall g.parse).Stops c := by
  refine call_bind_ends fun name d hname hd => ?_
  have hcall := h.callKind_ne hname hd
  split
  · exact absurd (by decide) hcall
  · exact absurd (by decide) hcall
  · exact absurd (by decide) hcall
  · exact True.intro

theorem vectorCall_stops (h : g.Elsewhere c .vector) : (vectorCall g.parse).Stops c := by
  refine call_bind_ends fun name d hname hd => ?_
  have hcall := h.callKind_ne hname hd
  split
  · exact absurd (by decide) hcall
  · exact absurd (by decide) hcall
  · exact absurd (by decide) hcall
  · exact True.intro

theorem scalarCall_stops (h : g.Elsewhere c .scalar) : (scalarCall g.parse).Stops c := by
  refine call_bind_ends fun name d hname hd => ?_
  have hcall := h.callKind_ne hname hd
  split
  · exact absurd (by decide) hcall
  · exact absurd (by decide) hcall
  · split
    · next fn hlookup =>
      have hall : ∀ p ∈ ScalarFn.named, callKind p.1 = .scalar := by decide
      exact absurd (kind_of_lookup hall hlookup) hcall
    · exact True.intro

theorem query_stops (h : g.Elsewhere c .selection) : (query g.parse).Stops c := by
  refine word_bind_ends fun name d hname => ?_
  split
  · exact True.intro
  · next kind hlookup =>
    refine (mark_ends d).bind fun _ _ _ hd => ?_
    have hall : ∀ p ∈ EntityKind.named, callKind p.1 = .selection := by decide
    exact absurd (kind_of_lookup hall hlookup) (h.callKind_ne hname hd)

/-- A name of a feature of any kind but this is none of a feature, unless it is called. -/
theorem featureName_ends (h : g.Elsewhere c .feature) : (featureName g).Ends c AtParen := by
  refine word_bind_ends fun name d hname => ?_
  have hnone : g.nameKind name = .feature → AtParen d := fun hkind =>
    Classical.byContradiction fun hd => h.nameKind_ne hname hd hkind
  split
  · exact True.intro
  · split
    · next hfree =>
      have hkind : g.nameKind name = .feature := by rw [nameKind, hfree]; rfl
      exact Ends.of_ok (trivia_bind _ d) (d.head?_start.trans (hnone hkind))
    · next hfeature =>
      have hkind : g.nameKind name = .feature := by rw [nameKind, hfeature]; rfl
      exact Ends.of_ok (trivia_bind _ d) (d.head?_start.trans (hnone hkind))
    · exact True.intro

/-- Only words that are not reserved construct features. -/
theorem constructor_stops (hreg : g.registry.Unreserved)
    (h : g.Elsewhere c .feature) : (constructor g g.parse).Stops c := by
  refine word_bind_ends fun name d hname => ?_
  show (mark '(' >>= _).Ends d _
  refine (mark_ends d).bind fun _ _ _ hd => ?_
  have hreserved : isReserved name = true := by
    by_contra hfree
    refine h.callKind_ne hname hd ?_
    rw [callKind, if_pos (Bool.not_eq_true _ ▸ hfree)]
  split
  · rw [if_pos hreserved]
    exact True.intro
  · next type hfind =>
    have hname : type.name = name := by simpa using List.find?_some hfind
    have hfree := hreg type (List.mem_of_find?_eq_some hfind)
    rw [hname, hreserved] at hfree
    cases hfree

/-! ## Places where no number begins -/

/-- A number begins with a digit, a sign or a point. -/
theorem number_stops (h : ∀ {ch}, c.head? = some ch → ch.isDigit = false ∧ ch ∉ ['+', '-', '.']) :
    number.Stops c := by
  have hchar : ∀ ch ∈ ['+', '-', '.'], (char ch).Stops c.start := fun ch hmem =>
    char_stops fun heq => (h heq).2 hmem
  have hdigits : digits.Stops c.start := (someOf_ends _ _ _).stops fun _ _ _ => by
    rintro ⟨ch, hch, hdigit⟩
    exact absurd hdigit (by simp [(h hch).1])
  refine Ends.bind (P := fun d => d = c.start) (Ends.of_ok (trivia_apply c) rfl) ?_
  rintro _ _ - rfl
  refine Stops.bind (Stops.bind ?_)
  have hsign : (choice [char '+', char '-']).Stops c.start := Ends.choice fun p hp => by
    simp only [List.mem_cons, List.not_mem_nil, or_false] at hp
    rcases hp with rfl | rfl
    · exact hchar _ (by decide)
    · exact hchar _ (by decide)
  have hmantissa : mantissa.Stops c.start := Ends.choice fun p hp => by
    simp only [List.mem_cons, List.not_mem_nil, or_false] at hp
    rcases hp with rfl | rfl
    · exact hdigits.bind
    · exact (hchar '.' (by decide)).bind
  refine Ends.bind (P := fun d => d = c.start) ?_ ?_
  · refine Ends.bind (P := fun d => d = c.start) (Ends.of_ok hsign.optional rfl) ?_
    rintro _ _ - rfl
    exact .pure rfl
  · rintro _ _ - rfl
    exact hmantissa.bind

/-! ## Phrases in parentheses -/

/-- A rule reads what another one reads, in parentheses. -/
structure Encloses (p q : Parser α) : Prop where
  ok : ∀ {c e a}, AtParen c → q c.after = .ok a e → e.head? = some ')' → p c = .ok a e.after
  inv : ∀ {c d a}, p c = .ok a d → AtParen c ∧ ∃ e, q c.after = .ok a e ∧ e.head? = some ')'
  stops : ∀ {c}, (AtParen c → q.Ends c.after fun e => e.head? ≠ some ')') → p.Stops c

theorem encloses_of_close {close : Parser Char} (q : Parser α)
    (hclose : ∀ {c}, c.head? = some ')' → close c = .ok ')' c.after)
    (hstops : ∀ {c}, c.head? ≠ some ')' → close.Stops c) :
    Encloses (do let _ ← mark '('; let a ← q; let _ ← close; return a) q where
  ok hc hq he := by
    rw [bind_ok (mark_ok hc), bind_ok hq, bind_ok (hclose he)]
    rfl
  inv h := by
    obtain ⟨_, _, hmark, h⟩ := ok_of_bind h
    obtain ⟨a, e, hq, h⟩ := ok_of_bind h
    obtain ⟨_, _, hlast, h⟩ := ok_of_bind h
    obtain ⟨rfl, -⟩ := Outcome.ok.inj h
    obtain ⟨hparen, rfl⟩ := mark_inv hmark
    refine ⟨hparen, e, hq, ?_⟩
    by_contra he
    obtain ⟨_, herror⟩ := stops_iff.mp (hstops he)
    rw [herror] at hlast
    cases hlast
  stops h := by
    refine (mark_ends _).bind fun _ d hmark hparen => ?_
    obtain ⟨-, rfl⟩ := mark_inv hmark
    exact (h hparen).bind fun a e _ he => (hstops he).bind

theorem parenthesized_encloses (q : Parser α) : Encloses (parenthesized q) q :=
  encloses_of_close q (fun h => labelled_ok _ (mark_ok h)) fun h => Ends.labelled _ (mark_stops h)

/-- A basic phrase stands in parentheses, or what stands at a place tells its kind. -/
theorem basics_cases (hreg : g.registry.Unreserved)
    (kind : SymbolKind) : ∀ p ∈ g.basics kind,
      Encloses p (g.parse kind.rule) ∨ ∀ c, g.Elsewhere c kind → p.Ends c AtParen := by
  cases kind with
  | scalar =>
    refine List.forall_mem_cons.mpr ⟨?_, List.forall_mem_cons.mpr ⟨?_, List.forall_mem_cons.mpr ⟨?_,
      List.forall_mem_singleton.mpr ?_⟩⟩⟩
    · exact .inr fun c h => (number_stops h.not_number).bind.ends
    · exact .inr fun c h => (scalarCall_stops h).ends
    · exact .inl (parenthesized_encloses _)
    · exact .inr fun c h => (symbol_ends h).map
  | vector =>
    refine List.forall_mem_cons.mpr ⟨?_, List.forall_mem_cons.mpr ⟨?_, List.forall_mem_cons.mpr ⟨?_,
      List.forall_mem_singleton.mpr ?_⟩⟩⟩
    · exact .inr fun c h => (mark_stops h.not_bracket).bind.ends
    · exact .inr fun c h => (vectorCall_stops h).ends
    · exact .inl (parenthesized_encloses _)
    · exact .inr fun c h => (symbol_ends h).map
  | datum =>
    refine List.forall_mem_cons.mpr ⟨?_, List.forall_mem_cons.mpr ⟨?_,
      List.forall_mem_singleton.mpr ?_⟩⟩
    · exact .inr fun c h => (datumCall_stops h).ends
    · exact .inl (parenthesized_encloses _)
    · exact .inr fun c h => (symbol_ends h).map
  | selection =>
    refine List.forall_mem_cons.mpr ⟨?_, List.forall_mem_cons.mpr ⟨?_,
      List.forall_mem_singleton.mpr ?_⟩⟩
    · exact .inr fun c h => (query_stops h).ends
    · exact .inl (parenthesized_encloses _)
    · exact .inr fun c h => (symbol_ends h).map
  | feature =>
    refine List.forall_mem_cons.mpr ⟨?_, List.forall_mem_cons.mpr ⟨?_,
      List.forall_mem_singleton.mpr ?_⟩⟩
    · exact .inr fun c h => (constructor_stops hreg h).bind.ends
    · exact .inl (encloses_of_close _ mark_ok mark_stops)
    · exact .inr fun c h => featureName_ends h

theorem basics_skips (g : Grammar) (kind : SymbolKind) : ∀ p ∈ g.basics kind, Skips p := by
  cases kind with
  | scalar =>
    refine List.forall_mem_cons.mpr ⟨?_, List.forall_mem_cons.mpr ⟨?_, List.forall_mem_cons.mpr ⟨?_,
      List.forall_mem_singleton.mpr ?_⟩⟩⟩
    · exact (padded_skips _).bind
    · exact trivia_skips _
    · exact (padded_skips _).bind
    · exact (trivia_skips _).bind
  | vector =>
    refine List.forall_mem_cons.mpr ⟨?_, List.forall_mem_cons.mpr ⟨?_, List.forall_mem_cons.mpr ⟨?_,
      List.forall_mem_singleton.mpr ?_⟩⟩⟩
    · exact (padded_skips _).bind
    · exact trivia_skips _
    · exact (padded_skips _).bind
    · exact (trivia_skips _).bind
  | datum =>
    refine List.forall_mem_cons.mpr ⟨?_, List.forall_mem_cons.mpr ⟨?_,
      List.forall_mem_singleton.mpr ?_⟩⟩
    · exact trivia_skips _
    · exact (padded_skips _).bind
    · exact (trivia_skips _).bind
  | selection =>
    refine List.forall_mem_cons.mpr ⟨?_, List.forall_mem_cons.mpr ⟨?_,
      List.forall_mem_singleton.mpr ?_⟩⟩
    · exact trivia_skips _
    · exact (padded_skips _).bind
    · exact (trivia_skips _).bind
  | feature =>
    refine List.forall_mem_cons.mpr ⟨?_, List.forall_mem_cons.mpr ⟨?_,
      List.forall_mem_singleton.mpr ?_⟩⟩
    · exact (trivia_skips _).bind
    · exact (padded_skips _).bind
    · exact trivia_skips _

/-! ## What begins at a place -/

/-- A phrase of a kind begins at a place. A parenthesis tells its kind by what it encloses. -/
structure Begins (g : Grammar) (c : Cursor) (kind : SymbolKind) : Prop where
  enclosed : AtParen c → ∃ a e, g.parse kind.rule c.after = .ok a e ∧ e.head? = some ')'
  told : ¬ AtParen c → g.kindAt c = kind

theorem begins_of_ok (hreg : g.registry.Unreserved)
    {p : Parser kind.rule.Value} (hp : p ∈ g.basics kind) {a : kind.rule.Value}
    (h : p c = .ok a d) (hd : ¬ AtParen d) : g.Begins c kind := by
  rcases basics_cases hreg kind p hp with hencl | hends
  · obtain ⟨hparen, e, he⟩ := hencl.inv h
    exact ⟨fun _ => ⟨a, e, he⟩, fun hc => absurd hparen hc⟩
  · have helse : ¬ g.Elsewhere c kind := fun helse => hd ((hends c helse).place h)
    refine ⟨fun hparen => absurd (.inl hparen) helse, fun _ => ?_⟩
    by_contra hkind
    exact helse (.inr hkind)

section Others

variable {other : SymbolKind} (h : g.Begins c other) (hne : other ≠ kind)
include h hne

theorem Begins.elsewhere : g.Elsewhere c kind := by
  by_cases hc : AtParen c
  · exact .inl hc
  · exact .inr (h.told hc ▸ hne)

variable (hparen : AtParen c → ∀ a e, g.parse other.rule c.after = .ok a e → e.head? = some ')' →
  (g.parse kind.rule).Ends c.after fun e => e.head? ≠ some ')')
include hparen

omit hne in
/-- What stands in parentheses is of one kind already. -/
theorem Begins.enclosed_stops {p : Parser kind.rule.Value}
    (hp : Encloses p (g.parse kind.rule)) : p.Stops c :=
  hp.stops fun hc => by
    obtain ⟨a, e, he, hclose⟩ := h.enclosed hc
    exact hparen hc a e he hclose

/-- Where a phrase of another kind begins, none of this kind does. -/
theorem absent_of_begins (hreg : g.registry.Unreserved) : g.Absent c kind := by
  intro p hp
  rcases basics_cases hreg kind p hp with hencl | hends
  · exact (h.enclosed_stops hparen hencl).ends
  · exact hends c (h.elsewhere hne)

end Others

/-- A sign begins a scalar, if it begins a phrase of one kind. -/
theorem begins_of_sign (h : c.head? = some '-') : g.Begins c .scalar where
  enclosed hc := by
    rw [AtParen, h] at hc
    cases hc
  told _ := by
    unfold kindAt
    split
    · next name d hname =>
      obtain ⟨ch, hch, hstart⟩ := head?_of_identifier hname
      obtain rfl := Option.some.inj (h.symm.trans hch)
      exact absurd hstart (by decide)
    · rw [if_neg]
      rw [h]
      decide

end Grammar

end PartScript
