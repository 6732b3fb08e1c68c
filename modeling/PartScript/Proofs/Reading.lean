/-
  What the rules of the grammar read. Each rule gives a phrase that is written between the
  places where it starts and stops, if the rules for its parts do.
-/
import PartScript.Grammar.Statement
import PartScript.Proofs.Written

namespace PartScript.Grammar

open Grammar.Parser

/-! ## Phrases -/

/-- What is written with constructions and uses names. -/
class Phrase (α : Type) where
  constructions : α → List Feature
  symbols : α → Symbols

instance : Phrase ScalarExpr := ⟨ScalarExpr.constructions, ScalarExpr.symbols⟩

instance : Phrase VectorExpr := ⟨VectorExpr.constructions, VectorExpr.symbols⟩

instance : Phrase DatumExpr := ⟨DatumExpr.constructions, DatumExpr.symbols⟩

instance : Phrase SelectionExpr := ⟨SelectionExpr.constructions, SelectionExpr.symbols⟩

instance : Phrase FeatureRef := ⟨FeatureRef.constructions, FeatureRef.symbols⟩

instance : Phrase Feature := ⟨Feature.constructions, Feature.symbols⟩

instance : Phrase Argument := ⟨Argument.constructions, Argument.symbols⟩

instance : Phrase (List Argument) := ⟨Argument.constructionsIn, Argument.symbolsIn⟩

instance : Phrase BoundValue := ⟨BoundValue.constructions, BoundValue.symbols⟩

instance {α β : Type} [Phrase α] [Phrase β] : Phrase (α × β) :=
  ⟨fun a => Phrase.constructions a.1 ++ Phrase.constructions a.2,
    fun a => Phrase.symbols a.1 ++ Phrase.symbols a.2⟩

instance {α : Type} [Phrase α] : Phrase (Option α) :=
  ⟨fun a => (a.map Phrase.constructions).getD [], fun a => (a.map Phrase.symbols).getD []⟩

instance : (rule : Rule) → Phrase rule.Value
  | .scalar => inferInstanceAs (Phrase ScalarExpr)
  | .scalarUnary => inferInstanceAs (Phrase ScalarExpr)
  | .vector => inferInstanceAs (Phrase VectorExpr)
  | .vectorFactor => inferInstanceAs (Phrase VectorExpr)
  | .vectorUnary => inferInstanceAs (Phrase VectorExpr)
  | .datum => inferInstanceAs (Phrase DatumExpr)
  | .selection => inferInstanceAs (Phrase SelectionExpr)
  | .feature => inferInstanceAs (Phrase FeatureRef)

variable {α β : Type} [Phrase α] [Phrase β] {g : Grammar}

/-- A phrase is written between two places. -/
def Writes (g : Grammar) (c : Cursor) (a : α) (rest : Cursor) : Prop :=
  Written g c.offset rest.offset (Phrase.constructions a) (Phrase.symbols a)

/-- A rule gives what is written from where it starts to where it stops. -/
def Reads (g : Grammar) (p : Parser α) : Prop := ∀ c, p.At c (Writes g c)

namespace Writes

variable {c c' rest rest' : Cursor} {a : α}

theorem widen (h : Writes g c a rest) (hc : c'.offset ≤ c.offset)
    (hrest : rest.offset ≤ rest'.offset) : Writes g c' a rest' := Written.widen h hc hrest

theorem before (h : Writes g c a rest) (hc : c'.offset ≤ c.offset) : Writes g c' a rest :=
  h.widen hc (Nat.le_refl _)

theorem after (h : Writes g c a rest) (hrest : rest.offset ≤ rest'.offset) :
    Writes g c a rest' := h.widen (Nat.le_refl _) hrest

theorem append {b : β} (h : Writes g c a rest) (hrest : rest.offset ≤ c'.offset)
    (h' : Writes g c' b rest') : Writes g c (a, b) rest' := Written.append h hrest h'

end Writes

namespace Reads

variable {p : Parser α}

theorem labelled (label : String) (h : Reads g p) : Reads g (labelled label p) :=
  fun c => .labelled label (h c)

theorem committed (h : Reads g p) : Reads g (committed p) := fun c => .committed (h c)

theorem choice {ps : List (Parser α)} (h : ∀ p ∈ ps, Reads g p) : Reads g (choice ps) :=
  fun c => .choice fun p hp => h p hp c

theorem optional (h : Reads g p) : Reads g (optional p) := fun c =>
  .optional (h c) (Written.nothing (Nat.le_refl c.offset))

theorem skip {γ : Type} {q : Parser γ} {f : γ → Parser α} (hq : Moves q)
    (hf : ∀ a, Reads g (f a)) : Reads g (q >>= f) := fun c =>
  .bind (hq c) fun a rest hrest => (hf a rest).imp fun _ _ hb => hb.before hrest

theorem then_skip {γ : Type} {f : α → Parser γ} {b : α → γ → β} (h : Reads g p)
    (hf : ∀ a, Moves (f a)) (hb : ∀ c a x rest, Writes g c a rest → Writes g c (b a x) rest) :
    Reads g (p >>= fun a => f a >>= fun x => Pure.pure (b a x)) := fun c =>
  .bind (h c) fun a rest ha => .bind (hf a rest) fun x last hlast =>
    .pure (hb c a x last (ha.after hlast))

/-- One phrase after another, with something skipped between them. -/
theorem pair {γ : Type} {q : Parser β} {between : α → Parser γ} (h : Reads g p)
    (hbetween : ∀ a, Moves (between a)) (hq : Reads g q) :
    ∀ c, (p >>= fun a => between a >>= fun _ => q >>= fun b => Pure.pure (a, b)).At c
      (Writes g c) := fun c =>
  .bind (h c) fun a rest ha => .bind (hbetween a rest) fun _ last hlast =>
    .bind (hq last) fun _ _ hb => .pure (ha.append hlast hb)

end Reads

/-! ## Names and punctuation -/

/-- A name that is read as one of a kind is bound to a value of that kind. -/
theorem symbol_at (kind : SymbolKind) (c : Cursor) :
    (symbol g kind).At c fun name rest =>
      c.offset ≤ rest.offset ∧ g.model.kindOf? name = some kind := by
  refine .bind (trivia_moves c) fun _ start hstart => .here ?_
  refine .bind (identifier_moves start) fun name rest hname => ?_
  split
  · next hkind =>
    exact .bind (trivia_moves rest) fun _ last hlast =>
      .pure ⟨Nat.le_trans hstart (Nat.le_trans (Nat.le_of_lt hname) hlast), hkind⟩
  · exact .reject start

theorem comma_moves : Moves comma := .labelled _ (mark_moves ',')

theorem closing_moves (bracket : Char) : Moves (closing bracket) := .labelled _ (mark_moves bracket)

theorem operator_moves (a b : Char) : Moves (operator a b) :=
  .choice (List.forall_mem_cons.mpr ⟨mark_moves a, List.forall_mem_singleton.mpr (mark_moves b)⟩)

theorem pairOf_reads {p : Parser α} (h : Reads g p) : Reads g (pairOf p) :=
  Reads.pair h (fun _ => comma_moves) h

theorem parenthesized_reads {p : Parser α} (h : Reads g p) : Reads g (parenthesized p) :=
  .skip (mark_moves '(') fun _ =>
    .then_skip h (fun _ => closing_moves ')') fun _ _ _ _ ha => ha

/-! ## Arguments -/

theorem optionWord_moves (choices : List String) : Moves (optionWord choices) := by
  refine .bind trivia_moves fun _ => .bind .position fun start => ?_
  have hmissing : Moves fun _ : Cursor =>
      (.error [⟨start, .word⟩, ⟨start, .phrase "option word"⟩] : Outcome String) := by
    intro c a rest ha
    cases ha
  refine .bind (.optional word_moves) fun word => ?_
  cases word with
  | none => exact hmissing
  | some word =>
    by_cases hword : choices.contains word = true
    · simp only [hword]
      exact .bind trivia_moves fun _ => .pure word
    · simp only [hword]
      exact hmissing

/-- The arguments read so far, and the next one. -/
theorem arguments_snoc {lo : Nat} {c rest : Cursor} {read : List Argument} {a : Argument}
    (hread : Written g lo c.offset (Argument.constructionsIn read) (Argument.symbolsIn read))
    (ha : Writes g c (some a) rest) :
    Written g lo rest.offset (Argument.constructionsIn (read ++ [a]))
      (Argument.symbolsIn (read ++ [a])) := by
  have hboth := hread.append (Nat.le_refl _) ha
  simp only [Argument.constructionsIn_eq, Argument.symbolsIn_eq] at hboth ⊢
  rwa [List.flatMap_append, List.flatMap_append, List.flatMap_singleton, List.flatMap_singleton]

section Rules

variable {ask : Rules} (hask : ∀ rule, Reads g (ask rule))
include hask

theorem argument_reads (kind : ParamKind) : Reads g (argument ask kind) := by
  intro c
  cases kind with
  | scalar => exact .bind (hask .scalar c) fun _ _ ha => .pure ha
  | vector => exact .bind (hask .vector c) fun _ _ ha => .pure ha
  | datum => exact .bind (hask .datum c) fun _ _ ha => .pure ha
  | feature => exact .bind (hask .feature c) fun _ _ ha => .pure ha
  | selection => exact .bind (hask .selection c) fun _ _ ha => .pure ha
  | keyword choices =>
    exact .bind (optionWord_moves choices c) fun _ _ hrest => .pure (.nothing hrest)

theorem nextArgument_reads (typeName : String) (param : Param) (mandatory first : Bool) :
    Reads g (nextArgument ask typeName param mandatory first) := by
  intro c
  have hsome : ∀ c, (do return some (← argument ask param.kind)).At c (Writes g c) := fun c =>
    .bind (argument_reads hask param.kind c) fun _ _ ha => .pure ha
  unfold nextArgument
  cases first with
  | true =>
    cases mandatory with
    | true => exact hsome c
    | false => exact (argument_reads hask param.kind).optional c
  | false =>
    refine .here ?_
    have hcomma : Moves (optional (mark ',')) := .optional (mark_moves ',')
    refine .bind (hcomma c) fun found rest hrest => ?_
    cases found with
    | some _ => exact (hsome rest).imp fun _ _ ha => ha.before hrest
    | none =>
      cases mandatory with
      | true => exact .refuse _ _ _ _
      | false => exact .pure (.nothing hrest)

theorem variadicArguments_at (typeName : String) (param : Param) (least n : Nat) {lo : Nat} :
    ∀ (count : Nat) (read : List Argument) (c : Cursor),
      Written g lo c.offset (Argument.constructionsIn read) (Argument.symbolsIn read) →
      (variadicArguments ask typeName param least n count read).At c fun as rest =>
        Written g lo rest.offset (Argument.constructionsIn as) (Argument.symbolsIn as) := by
  induction n with
  | zero => exact fun _ _ _ hread => .pure hread
  | succ n ih =>
    intro count read c hread
    refine .bind (nextArgument_reads hask typeName param _ _ c) fun next rest hnext => ?_
    cases next with
    | none => exact .pure (hread.widen (Nat.le_refl _) hnext.le)
    | some a => exact ih _ _ _ (arguments_snoc hread hnext)

theorem argumentsFrom_at (typeName : String) (signature : Signature) {lo : Nat} :
    ∀ (read : List Argument) (c : Cursor),
      Written g lo c.offset (Argument.constructionsIn read) (Argument.symbolsIn read) →
      (argumentsFrom ask typeName signature read).At c fun as rest =>
        Written g lo rest.offset (Argument.constructionsIn as) (Argument.symbolsIn as) := by
  induction signature with
  | nil => exact fun _ _ hread => .pure hread
  | cons param params ih =>
    intro read c hread
    unfold argumentsFrom
    split
    case h_1 => exact variadicArguments_at hask typeName param _ _ 0 read c hread
    -- A required and an optional parameter read at most one argument each.
    all_goals
      refine .bind (nextArgument_reads hask typeName param _ _ c) fun next rest hnext => ?_
      cases next with
      | none => exact .pure (hread.widen (Nat.le_refl _) hnext.le)
      | some a => exact ih _ _ (arguments_snoc hread hnext)

theorem placementPlane_reads : Reads g (placementPlane ask) := fun c =>
  .bind (hask .datum c) fun _ rest ha =>
    .bind (At.ahead (P := fun last => last = rest) rfl) fun _ _ hlast => .pure (hlast ▸ ha)

theorem placementArguments_reads : Reads g (placementArguments g ask) := by
  intro c
  refine .bind ((hask .feature).labelled "feature" c) fun base r₁ hbase => ?_
  refine .bind (comma_moves r₁) fun _ r₂ h₂ => .here ?_
  refine .bind ((placementPlane_reads hask).optional r₂) fun plane r₃ hplane => ?_
  cases plane with
  | some plane =>
    refine .here ?_
    split
    · exact .refuse _ _ _ _
    · exact .refuse _ _ _ _
    · have hlast := Written.append hplane (Nat.le_refl _) (.nothing (Nat.le_refl _))
      exact .pure (Written.append hbase h₂ hlast)
  | none =>
    refine .bind ((hask .vector).labelled "origin vector" r₃) fun origin r₄ horigin => ?_
    refine .bind (comma_moves r₄) fun _ r₅ h₅ => ?_
    refine .bind ((hask .vector).labelled "x direction" r₅) fun ex r₆ hex => ?_
    refine .bind (comma_moves r₆) fun _ r₇ h₇ => ?_
    refine .bind ((hask .vector).labelled "z direction" r₇) fun ez r₈ hez => .pure ?_
    have hlast := Written.append hez (Nat.le_refl _) (.nothing (Nat.le_refl _))
    have hframe := Written.append (horigin.before hplane.le) h₅ (Written.append hex h₇ hlast)
    exact Written.append hbase h₂ hframe

theorem callArguments_reads (type : FeatureType) : Reads g (callArguments g ask type) := by
  intro c
  unfold callArguments
  cases type.written with
  | declared => exact argumentsFrom_at hask _ _ [] c (.nothing (Nat.le_refl _))
  | placement => exact placementArguments_reads hask c

/-! ## Constructions and references -/

theorem constructor_reads : Reads g (constructor g ask) := by
  intro c
  refine .bind (trivia_moves c) fun _ start hstart => .here ?_
  refine .bind (identifier_moves start) fun name afterName hname => .here ?_
  refine .bind (mark_moves '(' afterName) fun _ r₁ h₁ => ?_
  cases hfind : g.registry.find? name with
  | none =>
    simp only
    split
    · exact .reject start
    · exact .refuse _ _ _ _
  | some type =>
    refine .bind ((callArguments_reads hask type).committed r₁) fun as r₂ has => ?_
    refine .bind ((Moves.committed (closing_moves ')')) r₂) fun _ stop hstop => .here ?_
    cases hconstruct : type.construct as (.text g.model.sources (.between start stop)) with
    | error cause => exact .refuse _ _ _ _
    | ok f =>
      refine .pure ?_
      obtain ⟨htype, horigin, hsignature, hfs, hsymbols⟩ := FeatureType.construct_eq hconstruct
      have hname' : type.name = name := by simpa using List.find?_some hfind
      have hregistered : f.Registered g.registry :=
        ⟨type, by rw [htype, hname']; exact hfind, hsignature⟩
      have hf := Written.construct (has.after hstop) horigin hstart
        (Nat.lt_of_lt_of_le hname h₁) hregistered
      show Written g c.offset stop.offset f.constructions f.symbols
      rw [hfs, hsymbols]
      exact hf

omit hask in
theorem featureName_reads : Reads g (featureName g) := by
  intro c
  refine .bind (trivia_moves c) fun _ start hstart => .here ?_
  refine .bind (identifier_moves start) fun name rest hname => ?_
  have hmoved := Nat.le_trans hstart (Nat.le_of_lt hname)
  have hnamed : (do trivia; return FeatureRef.named name).At rest (Writes g c) :=
    .bind (trivia_moves rest) fun _ last hlast => .pure (.nothing (Nat.le_trans hmoved hlast))
  split
  · exact .reject start
  · split
    · exact hnamed
    · exact hnamed
    · exact .reject start

theorem featurePrimary_reads : Reads g (featurePrimary g ask) := by
  refine .choice (List.forall_mem_cons.mpr ⟨?_, List.forall_mem_cons.mpr ⟨?_,
    List.forall_mem_singleton.mpr featureName_reads⟩⟩)
  · exact fun c => .bind (constructor_reads hask c) fun _ _ ha => .pure ha
  · exact .skip (mark_moves '(') fun _ =>
      .then_skip (hask .feature) (fun _ => mark_moves ')') fun _ _ _ _ ha => ha

omit hask in
theorem subResult_at (base : FeatureRef) (c start : Cursor) (h : Writes g start base c) :
    (subResult base).At c (Writes g start) :=
  .bind (mark_moves '!' c) fun _ rest hrest =>
    .bind (padded_moves word_moves rest) fun _ _ hlast =>
      .pure (h.after (Nat.le_trans hrest hlast))

theorem featureOver_reads : Reads g (featureOver g ask) := fun c =>
  .bind ((featurePrimary_reads hask).labelled "feature" c) fun _ _ hprimary =>
    At.extend hprimary fun base last hbase => subResult_at base last c hbase

end Rules

end PartScript.Grammar
