/-
  All sentences of the language are read. By induction on its derivation, a phrase is read as it
  was derived if none of the marks follows with which it could go on: a product goes on after a
  factor, a sum after a term, and an access after whatever has parts. A mark that closes a phrase
  is none of these, so a rule reads just what was derived for it.
-/
import PartScript.Catalog
import PartScript.Proofs.Completeness

namespace PartScript

namespace Grammar

open Grammar.Parser

variable {g : Grammar} {c d e : Cursor} {α : Type}

/-! ## What follows a phrase -/

/-- None of some marks stands at a place. -/
def Free (marks : List Char) (c : Cursor) : Prop := ∀ ch ∈ marks, c.head? ≠ some ch

section Marks

variable {marks others : List Char}

theorem Free.of_head {ch : Char} (h : c.head? = some ch) (hch : ch ∉ marks) : Free marks c := by
  intro other hmem heq
  exact hch (Option.some.inj (h.symm.trans heq) ▸ hmem)

/-- An operator of a table stands where none of some other marks does. -/
theorem Free.of_mem {β : Type} {table : List (Char × β)} {ch : Char} {op : β}
    (hmem : (ch, op) ∈ table) (h : c.head? = some ch) (htable : ∀ p ∈ table, p.1 ∉ marks) :
    Free marks c := .of_head h (htable _ hmem)

theorem Free.mono (h : Free marks c) (hsub : others ⊆ marks) : Free others c :=
  fun ch hch => h ch (hsub hch)

theorem Free.not_atParen (h : Free ('(' :: marks) c) : ¬ AtParen c := h '(' List.mem_cons_self

theorem closes_of_paren (h : c.head? = some ')') : Closes c := ⟨')', by decide, h⟩

theorem closes_of_comma (h : c.head? = some ',') : Closes c := ⟨',', by decide, h⟩

theorem Closes.free (h : Closes c) (hmarks : marks.all (· ∉ [';', ',', ')', ']']) = true) :
    Free marks c := fun ch hch =>
  h.head?_ne (of_decide_eq_true (List.all_eq_true.mp hmarks ch hch))

end Marks

/-! ## Phrases that are read -/

/-- The arguments of a variadic parameter are of its kind, and are read after those before them. -/
def ParsesOperands (g : Grammar) (kind : ParamKind) (first : Bool) (c : Cursor)
    (as : List Argument) (d : Cursor) : Prop :=
  (∀ a ∈ as, kind.accepts a = true) ∧ ∀ typeName (param : Param) least n count read,
    param.kind = kind → read.isEmpty = first → least ≤ count + as.length → c.rest.length ≤ n →
    variadicArguments g.parse typeName param least n count read c = .ok (read ++ as) d

/-- Arguments are read after those before them, and are the ones that a signature binds. -/
def ParsesArguments (g : Grammar) (signature : Signature) (first : Bool) (c : Cursor)
    (as : List Argument) (d : Cursor) : Prop :=
  ∃ written, signature.bindFrom written = .ok (as, []) ∧
    ∀ typeName read, read.isEmpty = first →
      argumentsFrom g.parse typeName signature read c = .ok (read ++ written) d

/-- A phrase is read between two places, unless it goes on at the second one. What a chain of
operands has read so far is what its loop goes on with. -/
def Parses (g : Grammar) : (sort : Nonterminal) → Cursor → sort.Value → Cursor → Prop
  | .rule .scalar, c, x, d => Free ['(', '^', '*', '/'] d →
    Reaches (scalarOver g g.parse) (scalarLoop g) c x d
  | .rule .scalarUnary, c, x, d => Free ['(', '^'] d → scalarUnaryOver g g.parse c = .ok x d
  | .rule .vector, c, x, d => Free ['(', '^', '.', '*', '/'] d →
    Reaches (vectorOver g g.parse) (vectorLoop g) c x d
  | .rule .vectorFactor, c, x, d => Free ['(', '.'] d → vectorFactorOver g g.parse c = .ok x d
  | .rule .vectorUnary, c, x, d => Free ['('] d → vectorUnaryOver g g.parse c = .ok x d
  | .rule .datum, c, x, d => Free ['('] d → datumOver g g.parse c = .ok x d
  | .rule .selection, c, x, d => Free ['('] d →
    Reaches (selectionOver g g.parse) (selectionLoop g) c x d
  | .rule .feature, c, x, d => Free ['('] d →
    Reaches (featureOver g g.parse) (extend subResult) c x d
  | .scalarTerm, c, x, d => Free ['(', '^'] d →
    Reaches (scalarTerm g g.parse) (scalarTermLoop g) c x d
  | .scalarPrimary, c, x, d => Free ['('] d →
    c.head? ≠ some '-' ∧ scalarPrimary g g.parse c = .ok x d
  | .vectorTerm, c, x, d => Free ['(', '^', '.'] d →
    Reaches (vectorTerm g g.parse) (vectorTermLoop g) c x d
  | .vectorPrimary, c, x, d => Free ['('] d → vectorPrimary g g.parse c = .ok x d
  | .selectionPrimary, c, x, d => Free ['('] d → selectionPrimary g g.parse c = .ok x d
  | .featurePrimary, c, x, d => Free ['('] d → featurePrimary g g.parse c = .ok x d
  | .argument kind, c, a, d => Closes d → argument g.parse kind c = .ok a d ∧
    kind.accepts a = true ∧ d.rest.length < c.rest.length
  | .operands kind first, c, as, d => d.head? = some ')' → (first = false → Closes c) ∧
    ParsesOperands g kind first c as d
  | .arguments signature first, c, as, d => d.head? = some ')' → (first = false → Closes c) ∧
    ParsesArguments g signature first c as d

section Whole

theorem Parses.scalarTerm_ok {x : ScalarExpr} (h : g.Parses .scalarTerm c x d)
    (hd : Free ['(', '^', '*', '/'] d) : scalarTerm g g.parse c = .ok x d :=
  (Reaches.ok (h (hd.mono (by decide)))) fun _ =>
    chainLoop_stops (operator_stops (hd '*' (by decide)) (hd '/' (by decide)))

theorem Parses.vectorTerm_ok {x : VectorExpr} (h : g.Parses .vectorTerm c x d)
    (hd : Free ['(', '^', '.', '*', '/'] d) : vectorTerm g g.parse c = .ok x d :=
  (Reaches.ok (h (hd.mono (by decide)))) fun _ =>
    chainLoop_stops (operator_stops (hd '*' (by decide)) (hd '/' (by decide)))

theorem Parses.feature_ok {x : FeatureRef} (h : g.Parses (.rule .feature) c x d)
    (hd : Free ['(', '!'] d) : featureOver g g.parse c = .ok x d :=
  (Reaches.ok (h (hd.mono (by decide)))) fun _ =>
    extend_stops (subResult_stops (hd '!' (by decide)))

/-- Before a mark that closes it, the whole phrase of a rule is read. -/
theorem Parses.parse {rule : Rule} {x : rule.Value} (h : g.Parses (.rule rule) c x d)
    (hd : Closes d) : g.parse rule c = .ok x d := by
  rw [parse_apply]
  cases rule with
  | scalar =>
    exact (Reaches.ok (h (hd.free (by decide)))) fun _ =>
      chainLoop_stops (operator_stops (hd.head?_ne (by decide)) (hd.head?_ne (by decide)))
  | scalarUnary => exact h (hd.free (by decide))
  | vector =>
    exact (Reaches.ok (h (hd.free (by decide)))) fun _ =>
      chainLoop_stops (operator_stops (hd.head?_ne (by decide)) (hd.head?_ne (by decide)))
  | vectorFactor => exact h (hd.free (by decide))
  | vectorUnary => exact h (hd.free (by decide))
  | datum => exact h (hd.free (by decide))
  | selection =>
    exact (Reaches.ok (h (hd.free (by decide)))) fun _ =>
      chainLoop_stops (operator_stops (hd.head?_ne (by decide)) (hd.head?_ne (by decide)))
  | feature => exact h.feature_ok (hd.free (by decide))

theorem Parses.shortens {rule : Rule} {x : rule.Value} (h : g.Parses (.rule rule) c x d)
    (hd : Closes d) : d.rest.length < c.rest.length := parse_shortens g rule c x d (h.parse hd)

end Whole

/-! ## Arguments one after another -/

section Arguments

variable {f : Cursor} {first : Bool} {a : Argument} {as : List Argument}

theorem operand_step {kind : ParamKind} (hsep : Separated first c d)
    (ha : g.Parses (.argument kind) d a e) (has : g.Parses (.operands kind false) e as f) :
    g.Parses (.operands kind first) c (a :: as : List Argument) f := by
  intro hf
  obtain ⟨hcloses, haccepts, hread⟩ := has hf
  obtain ⟨hok, haccept, hlength⟩ := ha (hcloses rfl)
  refine ⟨?_, List.forall_mem_cons.mpr ⟨haccept, haccepts⟩, ?_⟩
  · rintro rfl
    exact hsep.closes
  · rintro typeName param least n count read rfl hfirst hleast hn
    have hle := hsep.length
    obtain ⟨n, rfl⟩ := Nat.exists_eq_add_of_le' (show 1 ≤ n by omega)
    rw [List.length_cons] at hleast
    have hrest := hread typeName param least n (count + 1) (read ++ [a]) rfl (by simp) (by omega)
      (by omega)
    rw [List.append_assoc] at hrest
    exact (variadicArguments_step (hfirst ▸ hsep) hok).trans hrest

theorem argument_step {param : Param} {params : Signature} (hparam : param.isVariadic = false)
    (hsep : Separated first c d) (ha : g.Parses (.argument param.kind) d a e)
    (has : g.Parses (.arguments params false) e as f) :
    g.Parses (.arguments (param :: params) first) c (a :: as : List Argument) f := by
  intro hf
  obtain ⟨hcloses, written, hbind, hread⟩ := has hf
  obtain ⟨hok, haccept, -⟩ := ha (hcloses rfl)
  refine ⟨?_, a :: written, bindFrom_step hparam haccept hbind, fun typeName read hfirst => ?_⟩
  · rintro rfl
    exact hsep.closes
  · have hrest := hread typeName (read ++ [a]) (by simp)
    rw [List.append_assoc] at hrest
    exact (argumentsFrom_step hparam (hfirst ▸ hsep) hok).trans hrest

end Arguments

/-! ## What is derived is read -/

section Derived

variable (hreg : g.registry.Unreserved)
include hreg

/-- What can be derived is read, unless it goes on. -/
theorem Derives.parses {sort : Nonterminal} {x : sort.Value} (h : g.Derives sort c x d) :
    g.Parses sort c x d := by
  -- By induction on the derivation. Within a phrase, the marks between its parts say that each
  -- part ends; what follows the phrase is what follows its last part.
  induction h with
  -- Scalars
  | scalarTerm _ ih => exact fun hd => .first (ih.scalarTerm_ok hd)
  | scalarSum _ hmem hop _ ihx ihy =>
    intro he
    have hy := ihy.scalarTerm_ok he
    exact (ihx (.of_mem hmem hop (by decide))).step (scalarLoop_step hmem hop hy) hop
      (scalarTerm_shortens hy)
  | scalarUnary _ ih => exact fun hd => .first (ih hd)
  | scalarProduct _ hmem hop _ ihx ihy =>
    intro he
    have hy := ihy he
    exact (ihx (.of_mem hmem hop (by decide))).step (scalarTermLoop_step hmem hop hy) hop
      (scalarUnary_shortens hy)
  | scalarNeg hsign _ ih => exact fun hd => scalarUnary_neg hsign (ih hd)
  | scalarPrimary _ ih =>
    intro hd
    obtain ⟨hsign, hx⟩ := ih (hd.mono (by decide))
    exact scalarUnary_primary hsign hx (hd '^' (by decide))
  | power _ hop _ ihx ihy =>
    intro he
    obtain ⟨hsign, hx⟩ := ihx (.of_head hop (by decide))
    exact scalarUnary_power hsign hx hop (ihy he)
  | number hsign hnumber => exact fun _ => ⟨hsign, scalarPrimary_number hnumber⟩
  | call hcall hmem _ hclose ih =>
    have hx := ih.parse (closes_of_paren hclose)
    exact fun _ => ⟨hcall.not_sign, scalarPrimary_call hcall (scalarCall_call hcall hmem hx hclose)⟩
  | dot hcall _ hcomma _ hclose ihx ihy =>
    have hx := ihx.parse (closes_of_comma hcomma)
    have hy := ihy.parse (closes_of_paren hclose)
    exact fun _ =>
      ⟨hcall.not_sign, scalarPrimary_call hcall (scalarCall_dot hcall hx hcomma hy hclose)⟩
  | magnitude hcall _ hclose ih =>
    have hx := ih.parse (closes_of_paren hclose)
    exact fun _ => ⟨hcall.not_sign, scalarPrimary_call hcall (scalarCall_magnitude hcall hx hclose)⟩
  | component _ hdot hword hmem ih =>
    have hx := ih (.of_head hdot (by decide))
    have hsign := vectorPrimary_not_sign hreg hx (not_atParen hdot (by decide))
    exact fun _ => ⟨hsign, scalarPrimary_component hreg hx hdot hword hmem⟩
  | scalarEnclosed hopen _ hclose ih =>
    have hx := ih.parse (closes_of_paren hclose)
    exact fun _ => ⟨AtParen.head?_ne hopen (by decide), scalarPrimary_enclosed hreg hopen hx hclose⟩
  | value _ hdollar hword ih =>
    have hx := ih.feature_ok (.of_head hdollar (by decide))
    have hb := begins_of_feature hreg hx (not_atParen hdollar (by decide))
    exact fun _ => ⟨hb.not_sign nofun, scalarPrimary_value hreg hx hdollar hword⟩
  | scalarName hword hkind =>
    exact fun hd => ⟨Word.not_head? hword (by decide),
      scalarPrimary_symbol hreg hword hkind hd.not_atParen⟩
  -- Vectors
  | vectorTerm _ ih => exact fun hd => .first (ih.vectorTerm_ok hd)
  | vectorSum _ hmem hop _ ihx ihy =>
    intro he
    have hy := ihy.vectorTerm_ok he
    exact (ihx (.of_mem hmem hop (by decide))).step (vectorLoop_step hmem hop hy) hop
      (vectorTerm_shortens hy)
  | vectorFactor _ ih => exact fun hd => .first (ih (hd.mono (by decide)))
  | vectorProduct _ hmem hop _ ihx ihy =>
    intro he
    have hy := ihy (he.mono (by decide))
    exact (ihx (.of_mem hmem hop (by decide))).step (vectorTermLoop_step hmem hop hy) hop
      (scalarUnary_shortens hy)
  | scaled _ hop _ ihy ihx =>
    exact fun he => vectorFactor_scaled (ihy (.of_head hop (by decide))) hop (ihx he)
  | vectorUnary _ ih =>
    intro hd
    have hpart : ¬ AtPart _ := fun hpart => hpart.elim hd.not_atParen (hd '.' (by decide))
    exact vectorFactor_unary hreg (ih (hd.mono (by decide))) hpart
  | vectorNeg hsign _ ih => exact fun hd => vectorUnary_neg hsign (ih hd)
  | vectorPrimary _ ih => exact fun hd => vectorUnary_primary hreg (ih hd) hd.not_atParen
  | bracketed hopen _ hcomma _ hcomma' _ hclose ihx ihy ihz =>
    have hx := ihx.parse (closes_of_comma hcomma)
    have hy := ihy.parse (closes_of_comma hcomma')
    have hz := ihz.parse ⟨']', by decide, hclose⟩
    have hcomponents := components_ok hx hcomma hy hcomma' hz hclose
    exact fun _ => vectorPrimary_bracketed ((bind_ok (mark_ok hopen)).trans hcomponents)
  | components hcall _ hcomma _ hcomma' _ hclose ihx ihy ihz =>
    have hx := ihx.parse (closes_of_comma hcomma)
    have hy := ihy.parse (closes_of_comma hcomma')
    have hz := ihz.parse (closes_of_paren hclose)
    have hcomponents := components_ok hx hcomma hy hcomma' hz hclose
    exact fun _ => vectorPrimary_call hcall (hcall.goes_on.trans hcomponents)
  | cross hcall _ hcomma _ hclose ihx ihy =>
    have hx := ihx.parse (closes_of_comma hcomma)
    have hy := ihy.parse (closes_of_paren hclose)
    exact fun _ => vectorPrimary_call hcall (vectorCall_cross hcall hx hcomma hy hclose)
  | normalize hcall _ hclose ih =>
    have hx := ih.parse (closes_of_paren hclose)
    exact fun _ => vectorPrimary_call hcall (vectorCall_normalize hcall hx hclose)
  | part _ hdot hword hmem ih =>
    exact fun _ => vectorPrimary_part hreg (ih (.of_head hdot (by decide))) hdot hword hmem
  | point _ hat hword ih =>
    exact fun _ => vectorPrimary_point hreg (ih.feature_ok (.of_head hat (by decide))) hat hword
  | vectorEnclosed hopen _ hclose ih =>
    exact fun _ => vectorPrimary_enclosed hreg hopen (ih.parse (closes_of_paren hclose)) hclose
  | vectorName hword hkind =>
    exact fun hd => vectorPrimary_symbol hreg hword hkind hd.not_atParen
  -- Datums
  | datumPoint hcall _ hclose ih =>
    exact fun _ => datum_call (datumCall_point hcall (ih.parse (closes_of_paren hclose)) hclose)
  | axis hcall _ hcomma _ hclose ihx ihy =>
    have hx := ihx.parse (closes_of_comma hcomma)
    have hy := ihy.parse (closes_of_paren hclose)
    exact fun _ => datum_call (datumCall_axis hcall hx hcomma hy hclose)
  | plane hcall _ hcomma _ hclose ihx ihy =>
    have hx := ihx.parse (closes_of_comma hcomma)
    have hy := ihy.parse (closes_of_paren hclose)
    exact fun _ => datum_call (datumCall_plane hcall hx hcomma hy hclose)
  | datumEnclosed hopen _ hclose ih =>
    exact fun _ => datum_enclosed hopen (ih.parse (closes_of_paren hclose)) hclose
  | datumName hword hkind => exact fun hd => datum_symbol hword hkind hd.not_atParen
  -- Selections
  | selectionPrimary _ ih => exact fun hd => .first (ih hd)
  | selectionSum _ hmem hop _ ihx ihy =>
    intro he
    have hy := ihy he
    exact (ihx (.of_mem hmem hop (by decide))).step (selectionLoop_step hmem hop hy) hop
      (selectionPrimary_shortens hy)
  | query hcall hmem _ hclose ih =>
    have hx := ih.parse (closes_of_paren hclose)
    have hcomma : (mark ',').Stops _ := mark_stops (by rw [hclose]; decide)
    exact fun _ => selectionPrimary_query (query_ok hcall hmem hx hcomma.bind.optional hclose)
  | filtered hcall hmem _ hcomma hfilter hclose ih =>
    have hx := ih.parse (closes_of_comma hcomma)
    have hfilter := committed_ok (labelled_ok "filter string" hfilter)
    refine fun _ => selectionPrimary_query (query_ok hcall hmem hx (optional_ok ?_) hclose)
    exact (bind_ok (mark_ok hcomma)).trans hfilter
  | selectionEnclosed hopen _ hclose ih =>
    exact fun _ => selectionPrimary_enclosed hopen (ih.parse (closes_of_paren hclose)) hclose
  | selectionName hword hkind => exact fun hd => selectionPrimary_symbol hword hkind hd.not_atParen
  -- Features
  | featurePrimary _ ih =>
    exact fun hd => ⟨_, Nat.le_refl _, bind_ok (labelled_ok "feature" (ih hd))⟩
  | subResult _ hop hword ih =>
    exact fun _ => (ih (.of_head hop (by decide))).step (subResult_step hop hword) hop
      (Word.shortens hword)
  | constructor hcall hfind hwritten hchecked _ hclose ih =>
    obtain ⟨-, written, hbind, hread⟩ := ih hclose
    have hx := constructor_ok hcall hfind hwritten hchecked (hread _ [] rfl) hbind hclose
    exact fun _ => featurePrimary_constructor hx
  | featureEnclosed hopen _ hclose ih =>
    exact fun _ => featurePrimary_enclosed hreg hopen (ih.parse (closes_of_paren hclose)) hclose
  | featureName hword hfree hregistry hkind =>
    exact fun hd => featurePrimary_name hword hfree hregistry hkind hd.not_atParen
  -- Arguments
  | scalarArgument _ ih => exact fun hd => ⟨bind_ok (ih.parse hd), rfl, ih.shortens hd⟩
  | vectorArgument _ ih => exact fun hd => ⟨bind_ok (ih.parse hd), rfl, ih.shortens hd⟩
  | datumArgument _ ih => exact fun hd => ⟨bind_ok (ih.parse hd), rfl, ih.shortens hd⟩
  | featureArgument _ ih => exact fun hd => ⟨bind_ok (ih.parse hd), rfl, ih.shortens hd⟩
  | selectionArgument _ ih => exact fun hd => ⟨bind_ok (ih.parse hd), rfl, ih.shortens hd⟩
  | optionWord hword hmem =>
    refine fun _ => ⟨bind_ok (optionWord_ok hword hmem), ?_, hword.shortens⟩
    exact List.contains_iff_mem.mpr hmem
  | noOperand =>
    refine fun hd => ⟨fun _ => closes_of_paren hd, nofun, fun typeName param least n count read _ _
      hleast _ => ?_⟩
    rw [List.append_nil]
    exact variadicArguments_end hd hleast
  | operand hsep _ _ iha ihas => exact operand_step hsep iha ihas
  | noArgument hdefaults =>
    refine fun hd => ⟨fun _ => closes_of_paren hd, [], bindFrom_defaults hdefaults, ?_⟩
    intro typeName read _
    rw [List.append_nil]
    exact argumentsFrom_defaults hdefaults hd read
  | argument hparam hsep _ _ iha ihas => exact argument_step hparam hsep iha ihas
  | operands _ hleast hdefaults ih =>
    intro hd
    obtain ⟨hcloses, haccepts, hread⟩ := ih hd
    refine ⟨hcloses, _, bindFrom_operands haccepts hleast hdefaults, fun typeName read hfirst => ?_⟩
    exact hread typeName _ _ _ 0 read rfl hfirst (by omega) (Nat.le_succ _)

end Derived

/-- Every sentence of the language is read. Where a phrase of a rule can be derived and a mark that
closes it follows, the rule reads just that phrase with the blanks and comments after it, and
gives the tree of the derivation. -/
theorem parse_of_derives (hreg : g.registry.Composed) {rule : Rule} {x : rule.Value}
    (h : g.Derives (.rule rule) c x d) (hd : Closes d) : g.parse rule c = .ok x d :=
  (h.parses hreg.unreserved).parse hd

/-- A power with a sign before it, closed by a semicolon. -/
def signedPower : Cursor := .ofText "-(F!top@tip).x ^ cos(F$angle) ;"

/-- A power of a component with a sign before it is read as derived: the sign applies last, and
the vector in parentheses is no scalar. -/
theorem parse_of_derives_power :
    let g : Grammar := ⟨⟨[Catalog.box]⟩, .empty⟩
    let x : ScalarExpr := .neg (.binary .pow
      (.component (.point (.sub (.named "F") "top") "tip") .x)
      (.call .cos (.value (.named "F") "angle")))
    g.Derives (.rule .scalar) signedPower x (signedPower.skip 30) ∧
      Closes (signedPower.skip 30) ∧
      g.parse .scalar signedPower = .ok x (signedPower.skip 30) := by
  intro g x
  have hbox : Registry.empty.register Catalog.box = .ok g.registry := rfl
  have hreg : g.registry.Composed := .register .empty hbox
  have hname : g.Derives .featurePrimary (signedPower.skip 2)
      (.named "F" : FeatureRef) (signedPower.skip 3) := .featureName rfl rfl rfl (.inl rfl)
  have hpoint : g.Derives .vectorPrimary (signedPower.skip 2)
      (.point (.sub (.named "F") "top") "tip" : VectorExpr) (signedPower.skip 11) :=
    .point (d := signedPower.skip 7) (.subResult (.featurePrimary hname) rfl rfl) rfl rfl
  have hbase : g.Derives .scalarPrimary (signedPower.skip 1)
      (.component (.point (.sub (.named "F") "top") "tip") .x : ScalarExpr) (signedPower.skip 15) :=
    .component (d := signedPower.skip 12) (.vectorEnclosed (d := signedPower.skip 11) rfl
      (.vectorTerm (.vectorFactor (.vectorUnary (.vectorPrimary hpoint)))) rfl) rfl rfl (by decide)
  have hname : g.Derives .featurePrimary (signedPower.skip 21)
      (.named "F" : FeatureRef) (signedPower.skip 22) := .featureName rfl rfl rfl (.inl rfl)
  have hvalue : g.Derives .scalarPrimary (signedPower.skip 21)
      (.value (.named "F") "angle" : ScalarExpr) (signedPower.skip 28) :=
    .value (.featurePrimary hname) rfl rfl
  have hexponent : g.Derives .scalarPrimary (signedPower.skip 17)
      (.call .cos (.value (.named "F") "angle") : ScalarExpr) (signedPower.skip 30) :=
    .call (d := signedPower.skip 21) (e := signedPower.skip 28)
      ⟨signedPower.skip 20, rfl, rfl, rfl⟩ (by decide)
      (.scalarTerm (.scalarUnary (.scalarPrimary hvalue))) rfl
  have hderives : g.Derives (.rule .scalar) signedPower x (signedPower.skip 30) :=
    .scalarTerm (.scalarUnary (.scalarNeg rfl (.power hbase rfl (.scalarPrimary hexponent))))
  have hcloses : Closes (signedPower.skip 30) := ⟨';', by decide, rfl⟩
  exact ⟨hderives, hcloses, parse_of_derives hreg hderives hcloses⟩

end Grammar

end PartScript
