/-
  Which failure is reported where no alternative applies. Two kinds of choices stand in the grammar.
  The choice between the kinds of a right-hand side keeps the failure that reaches furthest. The
  choices within a phrase keep the failure of the last alternative, which is a name each time: it
  stops at the first word, however far the other alternatives have come.
-/
import PartScript.Proofs.Lexemes
import PartScript.Proofs.Positions
import PartScript.Proofs.Tiling

namespace PartScript

namespace Grammar

open Grammar.Parser

/-- How far a rule came that does not apply. -/
def Outcome.reach? {α : Type} : Outcome α → Option Nat
  | .error stops => some (reach stops)
  | _ => none

/-- The ordered choices of the grammar. -/
inductive Fork where
  | scalarPrimary
  | vectorPrimary
  | datumPrimary
  | selectionPrimary
  | featurePrimary
  | boundValue
deriving DecidableEq

namespace Fork

/-- What the alternatives of a choice read. -/
def Value : Fork → Type
  | .scalarPrimary => ScalarExpr
  | .vectorPrimary => VectorExpr
  | .datumPrimary => DatumExpr
  | .selectionPrimary => SelectionExpr
  | .featurePrimary => FeatureRef
  | .boundValue => BoundValue

/-- The alternatives of a choice, in the order in which they are tried. -/
def alternatives (g : Grammar) : (fork : Fork) → List (Parser fork.Value)
  | .scalarPrimary => [
      return ScalarExpr.literal (← number),
      scalarCall g.parse,
      component g g.parse,
      parenthesized g.parse.scalar,
      featureValue g g.parse,
      return ScalarExpr.symbol (← symbol g .scalar)]
  | .vectorPrimary => [
      vectorLiteral g.parse,
      vectorCall g.parse,
      datumPart g g.parse,
      featurePoint g g.parse,
      parenthesized g.parse.vector,
      return VectorExpr.symbol (← symbol g .vector)]
  | .datumPrimary => [
      datumCall g.parse,
      parenthesized g.parse.datum,
      return DatumExpr.symbol (← symbol g .datum)]
  | .selectionPrimary => [
      query g.parse,
      parenthesized g.parse.selection,
      return SelectionExpr.symbol (← symbol g .selection)]
  | .featurePrimary => [
      return FeatureRef.inline (← constructor g g.parse),
      do
        let _ ← mark '('
        let feature ← g.parse.feature
        let _ ← mark ')'
        return feature,
      featureName g]
  | .boundValue => [
      return BoundValue.feature (← ended g.parse.feature),
      return BoundValue.selection (← ended g.parse.selection),
      return BoundValue.datum (← ended g.parse.datum),
      return BoundValue.vector (← ended g.parse.vector),
      return BoundValue.scalar (← ended g.parse.scalar)]

/-- The rule that tries the alternatives of a choice. -/
def reader (g : Grammar) : (fork : Fork) → Parser fork.Value
  | .scalarPrimary => Grammar.scalarPrimary g g.parse
  | .vectorPrimary => Grammar.vectorPrimary g g.parse
  | .datumPrimary => datumOver g g.parse
  | .selectionPrimary => Grammar.selectionPrimary g g.parse
  | .featurePrimary => Grammar.featurePrimary g g.parse
  | .boundValue => Grammar.boundValue g

end Fork

/-! ## The last alternative -/

section Last

variable {α : Type} {g : Grammar} {c : Cursor} {p : Parser α} {ps : List (Parser α)}
  {stops : List Stop} {kind : SymbolKind}

theorem reach?_eq_some {o : Outcome α} {n : Nat} :
    o.reach? = some n ↔ ∃ stops, o = .error stops ∧ reach stops = n := by
  cases o with
  | error stops => simp [Outcome.reach?]
  | ok a rest => exact ⟨nofun, fun ⟨_, h, _⟩ => nomatch h⟩
  | failure stops notice => exact ⟨nofun, fun ⟨_, h, _⟩ => nomatch h⟩

theorem Parser.stops_iff_reach? : p.Stops c ↔ ((p c).reach?).isSome := by
  rw [stops_iff, Option.isSome_iff_exists]
  constructor
  · rintro ⟨stops, h⟩
    exact ⟨_, reach?_eq_some.mpr ⟨stops, h, rfl⟩⟩
  · rintro ⟨n, h⟩
    obtain ⟨stops, h, -⟩ := reach?_eq_some.mp h
    exact ⟨stops, h⟩

/-- The stops of the last alternative are kept, and the place of the choice is added. -/
theorem choice_concat (h : ∀ q ∈ ps, q.Stops c) (hp : p c = .error stops) :
    choice (ps ++ [p]) c = .error (stops ++ [⟨c, .alternatives⟩]) := by
  induction ps with
  | nil =>
    show choice [p] c = _
    unfold choice
    rw [hp]
  | cons q ps ih =>
    have hlater := ih fun r hr => h r (List.mem_cons_of_mem q hr)
    obtain ⟨r, rs, hrs⟩ := List.exists_cons_of_ne_nil (List.append_ne_nil_of_right_ne_nil ps
      (List.cons_ne_nil p []))
    rw [List.cons_append, hrs, (h q List.mem_cons_self).choice_cons, ← hrs, hlater]

theorem labelled_error (label : String) (h : p c = .error stops) :
    labelled label p c = .error (stops ++ [⟨c, .phrase label⟩]) := by
  unfold labelled
  rw [h]

theorem map_error {β : Type} {f : α → β} (h : p c = .error stops) :
    (p >>= fun a => Pure.pure (f a)) c = .error stops := by
  rw [bind_apply, h]

/-- Where no word begins, a word stops at once. -/
theorem identifier_error (h : identifier c = .error stops) : stops = [⟨c, .run⟩] := by
  rw [identifier_apply] at h
  split at h
  · cases h
  · exact (Outcome.error.inj h).symm

/-- A rule that reads a word and may reject it stops where the word begins. -/
theorem word_error {f : Cursor → String → Parser α}
    (hf : ∀ start name d stops, f start name d = .error stops → stops = [⟨start, .rejected⟩])
    (h : (do
      trivia
      let start ← position
      let name ← identifier
      f start name) c = .error stops) : ∃ m, stops = [⟨c.start, m⟩] := by
  rw [trivia_bind] at h
  change (identifier >>= f c.start) c.start = .error stops at h
  rw [bind_apply] at h
  cases hname : identifier c.start with
  | ok name d =>
    rw [hname] at h
    exact ⟨_, hf c.start name d stops h⟩
  | error found =>
    rw [hname] at h
    obtain rfl := Outcome.error.inj h
    exact ⟨_, identifier_error hname⟩
  | failure found notice =>
    rw [hname] at h
    cases h

theorem symbol_error (h : symbol g kind c = .error stops) : ∃ m, stops = [⟨c.start, m⟩] := by
  refine word_error (fun start name d stops h => ?_) h
  split at h
  · cases h
  · exact (Outcome.error.inj h).symm

theorem featureName_error (h : featureName g c = .error stops) : ∃ m, stops = [⟨c.start, m⟩] := by
  refine word_error (fun start name d stops h => ?_) h
  split at h
  · exact (Outcome.error.inj h).symm
  · cases hkind : g.model.kindOf? name with
    | none =>
      rw [hkind] at h
      cases h
    | some kind =>
      rw [hkind] at h
      cases kind with
      | feature => cases h
      | _ => exact (Outcome.error.inj h).symm

/-- Stops at a place before the first word add nothing to a stop there. -/
theorem reach_start (c : Cursor) (m m' : Mismatch) :
    reach [⟨c.start, m⟩, ⟨c, m'⟩] = c.start.offset := by
  have hle : c.offset ≤ c.start.offset := Cursor.offset_le_skip _ c
  have hconcat := reach_concat [⟨c.start, m⟩] ⟨c, m'⟩
  have hfirst : reach [⟨c.start, m⟩] = c.start.offset := Nat.zero_max _
  rw [hfirst] at hconcat
  exact hconcat.trans (Nat.max_eq_left hle)

/-- A choice whose last alternative stops at the first word reaches up to there. -/
theorem choice_reach (ps : List (Parser α)) (h : ∀ q ∈ ps ++ [p], q.Stops c)
    (hlast : ∀ stops, p c = .error stops → ∃ m, stops = [⟨c.start, m⟩]) :
    (choice (ps ++ [p]) c).reach? = some c.start.offset := by
  obtain ⟨stops, hp⟩ := stops_iff.mp (h p (List.mem_append_right ps (List.mem_singleton_self p)))
  obtain ⟨m, rfl⟩ := hlast stops hp
  rw [choice_concat (fun q hq => h q (List.mem_append_left _ hq)) hp]
  exact congrArg some (reach_start c m .alternatives)

/-- The name of a phrase is expected where the phrase begins, so it reaches no further. -/
theorem labelled_reach {n : Nat} (label : String) (h : (p c).reach? = some n) (hn : c.offset ≤ n) :
    (labelled label p c).reach? = some n := by
  obtain ⟨stops, hp, rfl⟩ := reach?_eq_some.mp h
  rw [labelled_error label hp]
  refine congrArg some ?_
  rw [reach_concat]
  exact Nat.max_eq_left hn

theorem named_choice_reach (ps : List (Parser α)) (label : String) {f : String → α}
    (h : ∀ q ∈ ps ++ [symbol g kind >>= fun name => Pure.pure (f name)], q.Stops c) :
    (labelled label (choice (ps ++ [symbol g kind >>= fun name => Pure.pure (f name)])) c).reach? =
      some c.start.offset := by
  refine labelled_reach label (choice_reach ps h fun stops hlast => ?_) (Cursor.offset_le_skip _ c)
  obtain ⟨found, hname⟩ : ∃ found, symbol g kind c = .error found := by
    cases hname : symbol g kind c with
    | error found => exact ⟨found, rfl⟩
    | ok name d => simp [bind_apply, hname] at hlast
    | failure found notice => simp [bind_apply, hname] at hlast
  rw [map_error hname] at hlast
  exact Outcome.error.inj hlast ▸ symbol_error hname

end Last

/-! ## The furthest alternative -/

/-- Where no alternative applies, the failure that is kept reaches as far as each of them. -/
theorem furthestChoice_reach {α : Type} {ps : List (Parser α)} {c : Cursor} (found : List Stop)
    (h : ∀ p ∈ ps, p.Stops c) :
    ∃ stops, furthestChoice (some found) ps c = .error stops ∧ reach found ≤ reach stops ∧
      ∀ p ∈ ps, ∀ n, (p c).reach? = some n → n ≤ reach stops := by
  induction ps generalizing found with
  | nil => exact ⟨found, rfl, Nat.le_refl _, nofun⟩
  | cons p ps ih =>
    obtain ⟨first, hp⟩ := stops_iff.mp (h p List.mem_cons_self)
    obtain ⟨stops, hrest, hle, hreach⟩ := ih (if reach found < reach first then first else found)
      fun q hq => h q (List.mem_cons_of_mem p hq)
    have hboth : reach found ≤ reach stops ∧ reach first ≤ reach stops := by
      split at hle <;> omega
    refine ⟨stops, ?_, hboth.1, List.forall_mem_cons.mpr ⟨fun n hn => ?_, hreach⟩⟩
    · rw [furthestChoice, hp]
      exact hrest
    · rw [hp] at hn
      exact Option.some.inj hn ▸ hboth.2

namespace Fork

variable {g : Grammar} {c : Cursor}

theorem boundValue_reach (h : ∀ p ∈ alternatives g .boundValue, p.Stops c) :
    ∃ stops, Grammar.boundValue g c = .error stops ∧
      ∀ p ∈ alternatives g .boundValue, ∀ n, (p c).reach? = some n → n ≤ reach stops := by
  obtain ⟨hfirst, hothers⟩ := List.forall_mem_cons.mp h
  obtain ⟨first, hp⟩ := stops_iff.mp hfirst
  obtain ⟨stops, hrest, hle, hreach⟩ := furthestChoice_reach first hothers
  refine ⟨stops, ?_, List.forall_mem_cons.mpr ⟨fun n hn => ?_, hreach⟩⟩
  · show furthestChoice none (_ :: _) c = _
    rw [furthestChoice, hp]
    exact hrest
  · rw [hp] at hn
    exact Option.some.inj hn ▸ hle

/-- Where no alternative of a choice within a phrase applies, the first word is reported. -/
theorem primary_reach (fork : Fork) (hfork : fork ≠ .boundValue)
    (h : ∀ p ∈ fork.alternatives g, p.Stops c) :
    (fork.reader g c).reach? = some c.start.offset := by
  cases fork with
  | scalarPrimary => exact named_choice_reach [_, _, _, _, _] _ h
  | vectorPrimary => exact named_choice_reach [_, _, _, _, _] _ h
  | datumPrimary => exact named_choice_reach [_, _] _ h
  | selectionPrimary => exact named_choice_reach [_, _] _ h
  | featurePrimary => exact choice_reach [_, _] h fun stops => featureName_error
  | boundValue => exact absurd rfl hfork

end Fork

/-! ## Statements that cannot be read -/

/-- A binding of a free name stands at a place, and its right-hand side at another one. -/
inductive Binds (g : Grammar) (c d : Cursor) : Prop where
  | intro {name mid} : (keyword "export").Stops c → identifier c.start = .ok name mid →
    mid.head? = some '=' → d = mid.after → (isReserved name || g.registry.contains name) = false →
    g.model.binding? name = none → Binds g c d

/-- The first statement that cannot be read may be a binding: its right-hand side is to be read at
`d` with the grammar `g`. -/
inductive Offends (registry : Registry) (file source : String) (g : Grammar) (d : Cursor) :
    Cursor → Model → Prop where
  | here {c M} : g = ⟨registry, M⟩ → Awaits c → g.Binds c.start d →
    Offends registry file source g d c M
  | later {c M parsed rest extended} : Awaits c →
    statement ⟨registry, M⟩ c.start = .ok parsed rest →
    addStatement M parsed (.between c.start rest) file source = .ok extended →
    Offends registry file source g d rest extended → Offends registry file source g d c M

section Statements

variable {g : Grammar} {registry : Registry} {file source : String} {stops : List Stop}
  {M : Model} {c d : Cursor} {n : Nat}

/-- After its equals sign a binding is committed. -/
theorem Binds.failure (h : g.Binds c d) (hvalue : boundValue g d = .error stops) :
    statement g c = .failure stops none := by
  obtain ⟨hexport, hname, hequals, rfl, hfree, hnew⟩ := h
  have hbinding : statement g c = bindingStatement g c := hexport.optional_bind
  rw [hbinding]
  unfold bindingStatement
  rw [trivia_bind]
  refine (bind_ok (d := c.start) rfl).trans ?_
  refine (bind_ok (labelled_ok _ hname)).trans ?_
  refine (bind_ok rfl).trans ?_
  refine (bind_ok (labelled_ok _ (mark_ok hequals))).trans ?_
  rw [hfree, hnew]
  show (committed (boundValue g) >>= _) _ = _
  rw [bind_apply, committed, hvalue]

theorem diagnose_kind (h : stops ≠ []) : (g.diagnose stops none file source).kind = .malformed := by
  obtain ⟨s, hs, -⟩ := exists_furthest h
  unfold diagnose
  dsimp only
  rw [malformedAt, hs]
  split <;> rfl

theorem statementsFrom_awaits (h : Awaits c) :
    statementsFrom registry file source (n + 1) c M =
      match statement ⟨registry, M⟩ c.start with
      | .ok parsed rest =>
        addStatement M parsed (.between c.start rest) file source >>= fun extended =>
          statementsFrom registry file source n rest extended
      | .error stops => .error (diagnose ⟨registry, M⟩ stops none file source)
      | .failure stops notice => .error (diagnose ⟨registry, M⟩ stops notice file source) := by
  have hrest : c.start.rest.isEmpty = false :=
    Bool.eq_false_iff.mpr fun hnil => h.1 (List.isEmpty_iff.mp hnil)
  rw [statementsFrom]
  dsimp only
  rw [show c.skip (triviaLength false c.rest) = c.start from rfl, hrest]
  cases hkeyword : keyword "import" c.start with
  | ok place stop => exact absurd hkeyword (h.2 place stop)
  | _ => rfl

/-- The error is reported where reading the right-hand side stopped, no kind of which came any
further. -/
theorem statementsFrom_reach (hc : c.Sits source) (hn : c.rest.length < n)
    (h : Offends registry file source g d c M)
    (hstops : ∀ p ∈ Fork.alternatives g .boundValue, p.Stops d) :
    ∃ message s, statementsFrom registry file source n c M =
        .error (.atSpan .malformed message file source (.between s s)) ∧
      ∀ p ∈ Fork.alternatives g .boundValue, ∀ m, (p d).reach? = some m → m ≤ s.offset := by
  induction h generalizing n with
  | @here c M hg hawaits hbinds =>
    subst hg
    obtain ⟨n, rfl⟩ := Nat.exists_eq_add_of_lt (Nat.zero_lt_of_lt hn)
    obtain ⟨stops, hvalue, hreach⟩ := Fork.boundValue_reach hstops
    have hfails := hbinds.failure hvalue
    have hfair := Watch.statement (watch_lawful ⟨registry, M⟩ source) c.start hc.start
    change (watch ⟨registry, M⟩ source).Fair _ (statement ⟨registry, M⟩ c.start) at hfair
    rw [hfails] at hfair
    cases hfair with
    | failure hstopped _ =>
      obtain ⟨s, hfurthest, ⟨kind, message, -, he⟩, -⟩ :
          ∃ s, Furthest stops s ∧ Points registry file source
            (diagnose ⟨registry, M⟩ stops none file source) (.between s.cursor s.cursor) :=
        diagnose_points hstopped
      obtain rfl : kind = .malformed :=
        (congrArg CompileError.kind he).symm.trans (diagnose_kind hstopped.1)
      obtain ⟨t, ht, htreach⟩ := exists_reach hstopped.1
      refine ⟨message, s.cursor, ?_, fun p hp m hm => ?_⟩
      · rw [Nat.zero_add, statementsFrom_awaits hawaits, hfails]
        exact congrArg Except.error he
      · exact Nat.le_trans (hreach p hp m hm) (htreach ▸ hfurthest.2 t ht)
  | @later c M parsed rest extended hawaits hparsed hadd _ ih =>
    obtain ⟨n, rfl⟩ := Nat.exists_eq_add_of_lt (Nat.zero_lt_of_lt hn)
    have hshorter := (statement_finishes c.start parsed rest hparsed).1.shorter
    have hstart : c.start.rest.length ≤ c.rest.length := Cursor.skip_length _ c
    have hfair := Watch.statement (watch_lawful ⟨registry, M⟩ source) c.start hc.start
    change (watch ⟨registry, M⟩ source).Fair _ (statement ⟨registry, M⟩ c.start) at hfair
    rw [hparsed] at hfair
    cases hfair with
    | ok _ hrest =>
      obtain ⟨message, s, herror, hreach⟩ := ih hrest (show rest.rest.length < n by omega)
      refine ⟨message, s, ?_, hreach⟩
      rw [Nat.zero_add, statementsFrom_awaits hawaits, hparsed]
      dsimp only
      rw [hadd]
      exact herror

end Statements

/-- Which failure is reported where no alternative of an ordered choice applies. The choice of the
kind of a right-hand side reaches as far as each of its alternatives. A choice within a phrase
reaches up to the first word, so it reaches as far as an alternative exactly if that one got no
further. So a text that cannot be read because of a right-hand side, no kind of which applies, is
reported at a place that no kind of right-hand side came behind. -/
theorem Fork.reach_alternatives (g : Grammar) :
    (∀ (fork : Fork) (c : Cursor), (∀ p ∈ fork.alternatives g, p.Stops c) →
      ∃ n, (fork.reader g c).reach? = some n ∧
        (fork = .boundValue → ∀ p ∈ fork.alternatives g, ∀ m, (p c).reach? = some m → m ≤ n) ∧
        (fork ≠ .boundValue → n = c.start.offset)) ∧
      ∀ (M : Model) (registry : Registry) (file source : String) (imports : List ImportDeclaration)
        (last d : Cursor),
        leadingImports file source = .ok (imports, last) →
        Offends registry file source g d last M →
        (∀ p ∈ Fork.alternatives g .boundValue, p.Stops d) →
        ∃ message s, M.read registry file source =
            .error (.atSpan .malformed message file source (.between s s)) ∧
          ∀ p ∈ Fork.alternatives g .boundValue, ∀ m, (p d).reach? = some m → m ≤ s.offset := by
  constructor
  · intro fork c h
    by_cases hfork : fork = .boundValue
    · subst hfork
      obtain ⟨stops, hvalue, hreach⟩ := boundValue_reach h
      exact ⟨reach stops, reach?_eq_some.mpr ⟨stops, hvalue, rfl⟩, fun _ => hreach,
        fun hne => absurd rfl hne⟩
    · exact ⟨_, primary_reach fork hfork h, fun heq => absurd heq hfork, fun _ => rfl⟩
  · intro M registry file source imports last d himports hoffends hstops
    obtain ⟨hlast, -⟩ := importsFrom_sits (Cursor.sits_ofText source) himports
    obtain ⟨message, s, herror, hreach⟩ :=
      statementsFrom_reach hlast (Nat.lt_succ_self _) hoffends hstops
    refine ⟨message, s, ?_, hreach⟩
    unfold Model.read
    rw [himports]
    show (statementsFrom registry file source (last.rest.length + 1) last M >>= _) = _
    rw [herror]
    rfl

/-- Alternatives that came somewhere do not apply. -/
theorem stops_of_reaches {α : Type} {ps : List (Parser α)} {c : Cursor}
    (h : (ps.map fun p => ((p c).reach?).isSome).all id = true) : ∀ p ∈ ps, p.Stops c := by
  intro p hp
  rw [List.all_map, List.all_eq_true] at h
  exact stops_iff_reach?.mpr (h p hp)

/-- A name is read as a feature, and what follows is no semicolon. -/
theorem Fork.reach_alternatives_name :
    let source := "a = b c;"
    let g : Grammar := ⟨Catalog.registry, .empty⟩
    let d := Cursor.skip 4 (.ofText source)
    (alternatives g .boundValue).map (fun p => (p d).reach?) =
        [some 6, some 4, some 4, some 4, some 4] ∧
      (∃ n, (reader g .boundValue d).reach? = some n ∧ 6 ≤ n) ∧
      (reader g .scalarPrimary d).reach? = some 4 ∧
      ∃ message s, Model.empty.read Catalog.registry "m" source =
          .error (.atSpan .malformed message "m" source (.between s s)) ∧ 6 ≤ s.offset := by
  intro source g d
  have hreaches : (alternatives g .boundValue).map (fun p => (p d).reach?) =
      [some 6, some 4, some 4, some 4, some 4] := by decide +kernel
  obtain ⟨p, hp, hsix⟩ : ∃ p ∈ alternatives g .boundValue, (p d).reach? = some 6 :=
    ⟨_, List.mem_cons_self, (List.cons.inj hreaches).1⟩
  have hvalue : ∀ p ∈ alternatives g .boundValue, p.Stops d := stops_of_reaches (by decide +kernel)
  have hscalar : ∀ p ∈ alternatives g .scalarPrimary, p.Stops d :=
    stops_of_reaches (by decide +kernel)
  have hexport : (keyword "export").Stops (Cursor.ofText source).start :=
    stops_iff_reach?.mpr (by decide +kernel)
  have hname := (identifier_apply (Cursor.ofText source).start.start).trans (if_pos (by decide))
  have hbinds : g.Binds (Cursor.ofText source).start d :=
    .intro hexport hname (by decide) (by decide) (by decide) (by decide)
  have hawaits : Awaits (.ofText source) := ⟨by decide, fun place stop h => by
    obtain ⟨stops, hstops⟩ : ∃ stops, keyword "import" (Cursor.ofText source).start = .error stops :=
      stops_iff.mp (stops_iff_reach?.mpr (by decide +kernel))
    rw [hstops] at h
    cases h⟩
  have himports : leadingImports "m" source = .ok ([], .ofText source) := by
    decide +kernel
  obtain ⟨n, hn, hreach, -⟩ := (reach_alternatives g).1 .boundValue d hvalue
  obtain ⟨m, hm, -, hfirst⟩ := (reach_alternatives g).1 .scalarPrimary d hscalar
  obtain ⟨message, s, hread, hbehind⟩ := (reach_alternatives g).2 .empty Catalog.registry "m" source []
    (.ofText source) d himports (.here rfl hawaits hbinds) hvalue
  refine ⟨hreaches, ⟨n, hn, hreach rfl p hp 6 hsix⟩, ?_, message, s, hread, hbehind p hp 6 hsix⟩
  rw [hm, hfirst nofun]
  decide

/-- In parentheses the operand that is missing after a plus is found to be so, and forgotten: the
error is reported at the parenthesis, five characters before it. -/
theorem Fork.reach_forgotten :
    let source := "a = (1 + ;"
    let g : Grammar := ⟨Catalog.registry, .empty⟩
    let d := Cursor.skip 4 (.ofText source)
    (alternatives g .scalarPrimary).map (fun p => (p d).reach?) =
        [some 4, some 4, some 4, some 9, some 4, some 4] ∧
      (reader g .scalarPrimary d).reach? = some 4 ∧
      ((Workshop.create Catalog.registry (Symbolic.backend []) .session).loadScript 0 source).1 =
        .error ⟨.malformed, "Syntax error: expected feature", "<script>", 1, 5, source, "    ^"⟩ := by
  intro source g d
  exact ⟨by decide +kernel, by decide +kernel, by decide +kernel⟩

end Grammar

end PartScript
