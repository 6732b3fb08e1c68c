/-
  Every rule of the grammar keeps to places that are watched. There is one lemma for every rule, over
  the rules for its parts; the rules themselves follow by induction on the depth to which they are
  tied together. A rule that is tied together less deep than a phrase is nested would fail without
  naming a place, so the induction is over rules that do not apply there; at the depth of `parse`
  they do the same.
-/
import PartScript.Proofs.Loading
import PartScript.Proofs.Watch

namespace PartScript

open Grammar Grammar.Parser

namespace Watch

variable {W : Watch} (hW : W.Lawful)

section Brackets

variable {α : Type} {R : α → Prop} {p : Parser α}
include hW

theorem pairOf [Phrase α] (h : W.Orderly W.Made p) : W.Orderly W.Made (pairOf p) :=
  h.bind fun _ ha => hW.comma.bind fun _ _ => h.map fun _ hb => ha.append hb

theorem parenthesized (h : W.Orderly R p) : W.Orderly R (parenthesized p) :=
  (hW.mark (by decide)).bind fun _ _ => h.bind fun _ ha =>
    (hW.closing (by decide)).map fun _ _ => ha

/-- A closing bracket to which a rule has committed itself. -/
theorem closed {a : α} (ha : R a) {bracket : Char} (h : bracket ≠ '\r') :
    W.Orderly R (do let _ ← committed (closing bracket); return a) :=
  (hW.closing h).committed.map fun _ _ => ha

/-- A reference name after its mark. -/
theorem referenceName (label : String) :
    W.Passes (committed (labelled label (padded identifier))) := (hW.name.labelled label).committed

end Brackets

/-- What is made of a phrase without further constructions. -/
theorem madeOf {α β : Type} [Phrase α] [Phrase β] {p : Parser α} {f : α → β}
    (h : W.Orderly W.Made p) (hf : ∀ a, Phrase.constructions (f a) = Phrase.constructions a) :
    W.Orderly W.Made (f <$> p) :=
  Orderly.map h fun a ha => show W.AllMade (Phrase.constructions (f a)) from (hf a).symm ▸ ha

/-- A name stands for what is made elsewhere. -/
theorem named {α : Type} [Phrase α] {f : String → α} (hf : ∀ name, Phrase.constructions (f name) = [])
    (hW : W.Lawful) (kind : SymbolKind) :
    W.Orderly W.Made (do return f (← symbol W.grammar kind)) :=
  (hW.symbol kind).map fun name _ =>
    show W.AllMade (Phrase.constructions (f name)) from (hf name).symm ▸ AllMade.nil

section Rules

variable {ask : Rules} (hask : ∀ rule, W.Orderly W.Made (ask rule))
include hW hask

/-! ## Arguments -/

theorem argument (kind : ParamKind) : W.Orderly W.Made (argument ask kind) := by
  cases kind with
  | scalar => exact (hask .scalar).map fun _ h => h
  | vector => exact (hask .vector).map fun _ h => h
  | datum => exact (hask .datum).map fun _ h => h
  | feature => exact (hask .feature).map fun _ h => h
  | selection => exact (hask .selection).map fun _ h => h
  | keyword choices => exact (hW.optionWord choices).map fun _ _ => AllMade.nil

theorem nextArgument {typeName : String} {param : Param}
    (hwords : W.grammar.Words .malformed
      s!"Syntax error: {typeName} expects argument '{param.usage}'") (mandatory first : Bool) :
    W.Orderly (fun found => ∀ a ∈ found, W.Made a)
      (nextArgument ask typeName param mandatory first) := by
  have hargument := argument hW hask param.kind
  have hsome : W.Orderly (fun found => ∀ a ∈ found, W.Made a)
      (do return some (← Grammar.argument ask param.kind)) :=
    hargument.map fun _ ha a h => Option.some.inj h ▸ ha
  unfold Grammar.nextArgument
  cases first with
  | true =>
    cases mandatory with
    | true => exact hsome
    | false => exact hargument.optional
  | false =>
    refine .here fun here hhere => .optional_bind (hW.mark (by decide)) (fun _ _ => hsome) ?_
    cases mandatory with
    | true => exact .refuse hhere hhere hwords
    | false => exact .pure nofun

omit hW hask in
/-- The arguments read so far, and the next one. -/
theorem Made.concat {read : List Argument} {a : Argument} (hread : W.Made read) (ha : W.Made a) :
    W.Made (read ++ [a]) := by
  show W.AllMade (Argument.constructionsIn (read ++ [a]))
  have hboth : W.AllMade (Argument.constructionsIn read ++ a.constructions) := hread.append ha
  rwa [Argument.constructionsIn_eq, List.flatMap_append, List.flatMap_singleton,
    ← Argument.constructionsIn_eq]

/-- An argument of a list and the rest of it. -/
theorem argument_bind {typeName : String} {param : Param} {mandatory : Bool}
    (hwords : W.grammar.Words .malformed
      s!"Syntax error: {typeName} expects argument '{param.usage}'")
    {read : List Argument} (hread : W.Made read) {f : List Argument → Parser (List Argument)}
    (hf : ∀ as, W.Made as → W.Orderly W.Made (f as)) :
    W.Orderly W.Made
      (Grammar.nextArgument ask typeName param mandatory read.isEmpty >>= fun next =>
        match next with
        | some a => f (read ++ [a])
        | none => Pure.pure read) := by
  refine (nextArgument hW hask hwords mandatory read.isEmpty).bind fun next hnext => ?_
  cases next with
  | some a => exact hf _ (hread.concat (hnext a rfl))
  | none => exact .pure hread

theorem variadicArguments {typeName : String} {param : Param} (least n : Nat)
    (hwords : W.grammar.Words .malformed
      s!"Syntax error: {typeName} expects argument '{param.usage}'") :
    ∀ (count : Nat) (read : List Argument), W.Made read →
      W.Orderly W.Made (variadicArguments ask typeName param least n count read) := by
  induction n with
  | zero => exact fun _ _ hread => .pure hread
  | succ n ih => exact fun count read hread =>
      argument_bind hW hask hwords hread fun as has => ih (count + 1) as has

theorem argumentsFrom {typeName : String} {signature : Signature}
    (hwords : ∀ param ∈ signature, W.grammar.Words .malformed
      s!"Syntax error: {typeName} expects argument '{param.usage}'") :
    ∀ read, W.Made read → W.Orderly W.Made (argumentsFrom ask typeName signature read) := by
  induction signature with
  | nil => exact fun _ hread => .pure hread
  | cons param params ih =>
    intro read hread
    obtain ⟨hparam, hparams⟩ := List.forall_mem_cons.mp hwords
    unfold Grammar.argumentsFrom
    cases param.arity with
    | variadic least => exact fun c hc =>
        variadicArguments hW hask least _ hparam 0 read hread c hc
    | required => exact argument_bind hW hask hparam hread fun as has => ih hparams as has
    | optional _ => exact argument_bind hW hask hparam hread fun as has => ih hparams as has

theorem placementPlane : W.Orderly W.Made (placementPlane ask) :=
  Orderly.bind (hask .datum) fun _ hplane =>
    (Orderly.ahead (hW.mark (by decide))).map fun _ _ => hplane

theorem placementArguments : W.Orderly W.Made (placementArguments W.grammar ask) := by
  have hvector : ∀ label, W.Orderly W.Made (labelled label ask.vector) := fun label =>
    .labelled label (hask .vector)
  refine Orderly.bind (.labelled "feature" (hask .feature)) fun base hbase =>
    hW.comma.bind fun _ _ => .here fun start hstart => ?_
  refine .optional_bind (placementPlane hW hask) (fun plane hplane => .here fun stop hstop => ?_) ?_
  · split
    · exact .refuse hstart hstop .foundPoint
    · exact .refuse hstart hstop .foundAxis
    · exact .pure (hbase.append (hplane.append AllMade.nil))
  · refine (hvector _).bind fun origin horigin => hW.comma.bind fun _ _ => ?_
    refine (hvector _).bind fun ex hex => hW.comma.bind fun _ _ => (hvector _).map fun ez hez => ?_
    exact hbase.append (horigin.append (hex.append (hez.append AllMade.nil)))

theorem callArguments {name : String} {type : FeatureType}
    (hfind : W.grammar.registry.find? name = some type) :
    W.Orderly W.Made (callArguments W.grammar ask type) := by
  unfold Grammar.callArguments
  cases type.written with
  | declared =>
    exact argumentsFrom hW hask (fun _ hparam => .expects hfind hparam) [] AllMade.nil
  | placement => exact placementArguments hW hask

/-! ## Constructions and references -/

/-- A construction is made of the arguments that are read for it. -/
theorem constructor (hreads : ∀ rule n, Parser.Agree n 1 (ask rule) (ask rule)) :
    W.Orderly W.Made (constructor W.grammar ask) := by
  refine hW.word_bind fun start name hstart => .here fun afterName hafter =>
    (hW.mark (by decide)).bind fun _ _ => ?_
  cases hfind : W.grammar.registry.find? name with
  | none =>
    dsimp only
    split
    · exact .reject hstart
    · next hfree => exact .refuse hstart hafter (.unknownType (by simpa using hfree) hfind)
  | some type =>
    have harguments := (callArguments hW hask hfind).noted
    refine harguments.committed.bind fun args hargs => ?_
    obtain ⟨hmade, c, rest, hread⟩ := hargs
    have hargs : W.grammar.ReadsArguments type args := ⟨ask, hreads, c, rest, hread⟩
    refine (hW.closing (by decide)).committed.bind fun _ _ => .here fun stop hstop => ?_
    generalize horigin : Origin.text W.grammar.model.sources (.between start stop) = origin
    cases hconstruct : type.construct args origin with
    | error cause => exact .refuse hstart hstop (.invalid hfind hargs hconstruct)
    | ok f =>
      refine .pure ?_
      obtain ⟨-, -, -, hfs, -⟩ := FeatureType.construct_eq hconstruct
      show W.AllMade f.constructions
      rw [hfs]
      exact List.forall_mem_cons.mpr ⟨⟨name, type, args, origin, hfind, hargs, hconstruct⟩, hmade⟩

omit hask in
theorem featureName : W.Orderly W.Made (featureName W.grammar) := by
  refine hW.word_bind fun e name he => ?_
  have hnamed : W.Orderly W.Made (do trivia; return FeatureRef.named name) :=
    hW.trailing AllMade.nil
  split
  · exact .reject he
  · split
    · exact hnamed
    · exact hnamed
    · exact .reject he

theorem featureOver (hreads : ∀ rule n, Parser.Agree n 1 (ask rule) (ask rule)) :
    W.Orderly W.Made (featureOver W.grammar ask) := by
  have hprimary : W.Orderly W.Made (featurePrimary W.grammar ask) := by
    refine .choice (List.forall_mem_cons.mpr ⟨?_, List.forall_mem_cons.mpr ⟨?_,
      List.forall_mem_singleton.mpr (featureName hW)⟩⟩)
    · exact (constructor hW hask hreads).map fun _ h => h
    · refine (hW.mark (by decide)).bind fun _ _ => Orderly.bind (hask .feature) fun _ h => ?_
      exact (hW.mark (by decide)).map fun _ _ => h
  have hsub : ∀ base : FeatureRef, W.Made base → W.Orderly W.Made (subResult base) :=
    fun _ hbase => (hW.mark (by decide)).bind fun _ _ => hW.name.map fun _ _ => hbase
  exact (hprimary.labelled _).bind fun primary h c hc =>
    Orderly.extend hsub c.rest.length h c hc

/-! ## Datums -/

theorem datumCall : W.Orderly W.Made (datumCall ask) := by
  have hvector : W.Orderly W.Made (committed ask.vector) := (hask .vector).committed
  have hpair : W.Orderly W.Made (committed (Grammar.pairOf ask.vector)) :=
    (pairOf hW (hask .vector)).committed
  have hclosed : ∀ datum : DatumExpr, W.Made datum →
      W.Orderly W.Made (do let _ ← committed (closing ')'); return datum) :=
    fun _ h => closed hW h (by decide)
  refine hW.word_bind fun start name hstart => (hW.mark (by decide)).bind fun _ _ => ?_
  split
  · exact (madeOf (f := DatumExpr.point) hvector fun _ => rfl).bind hclosed
  · exact (madeOf (f := fun p => DatumExpr.axis p.1 p.2) hpair fun _ => rfl).bind hclosed
  · exact (madeOf (f := fun p => DatumExpr.plane p.1 p.2) hpair fun _ => rfl).bind hclosed
  · exact (Orderly.reject hstart).bind hclosed

theorem datumOver : W.Orderly W.Made (datumOver W.grammar ask) := by
  refine .labelled _ <| .choice <| List.forall_mem_cons.mpr ⟨datumCall hW hask,
    List.forall_mem_cons.mpr ⟨?_, List.forall_mem_singleton.mpr ?_⟩⟩
  · exact parenthesized hW (hask .datum)
  · exact named (fun _ => rfl) hW .datum

/-! ## Vectors -/

theorem components {bracket : Char} (h : bracket ≠ '\r') :
    W.Orderly W.Made (components ask bracket) := by
  have hscalar : W.Orderly W.Made ask.scalar := hask .scalar
  refine Orderly.bind (R := W.Made) (.committed ?_) fun _ hv => closed hW hv h
  refine hscalar.bind fun x hx => hW.comma.bind fun _ _ => ?_
  refine hscalar.bind fun y hy => hW.comma.bind fun _ _ => ?_
  exact hscalar.map fun z hz => hx.append (hy.append hz)

theorem vectorCall : W.Orderly W.Made (vectorCall ask) := by
  have hvector : W.Orderly W.Made (committed ask.vector) := (hask .vector).committed
  refine hW.word_bind fun start name hstart => (hW.mark (by decide)).bind fun _ _ => ?_
  split
  · exact components hW hask (by decide)
  · refine hvector.bind fun left hleft => hW.comma.committed.bind fun _ _ => ?_
    refine hvector.bind fun right hright => ?_
    have h : W.Made (left.cross right) := hleft.append hright
    exact closed hW h (by decide)
  · refine hvector.bind fun operand hoperand => ?_
    have h : W.Made operand.normalize := hoperand
    exact closed hW h (by decide)
  · exact .reject hstart

theorem datumPart : W.Orderly W.Made (datumPart W.grammar ask) := by
  refine hW.opened fun start hstart => (datumOver hW hask).bind fun datum hdatum => ?_
  refine (Orderly.orReject hstart (hW.mark (by decide))).bind fun _ _ => ?_
  refine (Orderly.orReject hstart hW.name).bind fun word _ => ?_
  split
  · exact .pure hdatum
  · exact .reject hstart

variable (hreads : ∀ rule n, Parser.Agree n 1 (ask rule) (ask rule))
include hreads

theorem featurePoint : W.Orderly W.Made (featurePoint W.grammar ask) := by
  refine hW.opened fun start hstart => (featureOver hW hask hreads).bind fun feature h => ?_
  refine (Orderly.orReject hstart (hW.mark (by decide))).bind fun _ _ => ?_
  exact (referenceName hW _).map fun _ _ => h

theorem vectorPrimary : W.Orderly W.Made (vectorPrimary W.grammar ask) := by
  have hliteral : W.Orderly W.Made (vectorLiteral ask) :=
    (hW.mark (by decide)).bind fun _ _ => components hW hask (by decide)
  exact .labelled _ <| .choice <| List.forall_mem_cons.mpr ⟨hliteral,
    List.forall_mem_cons.mpr ⟨vectorCall hW hask,
    List.forall_mem_cons.mpr ⟨datumPart hW hask,
    List.forall_mem_cons.mpr ⟨featurePoint hW hask hreads,
    List.forall_mem_cons.mpr ⟨parenthesized hW (hask .vector),
    List.forall_mem_singleton.mpr (named (fun _ => rfl) hW .vector)⟩⟩⟩⟩⟩

/-! ## Scalars -/

omit hreads in
theorem scalarCall : W.Orderly W.Made (scalarCall ask) := by
  have hvector : W.Orderly W.Made (committed ask.vector) := (hask .vector).committed
  have hpair : W.Orderly W.Made (committed (Grammar.pairOf ask.vector)) :=
    (pairOf hW (hask .vector)).committed
  have hscalar : W.Orderly W.Made (committed ask.scalar) := (hask .scalar).committed
  have hclosed : ∀ call : ScalarExpr, W.Made call →
      W.Orderly W.Made (do let _ ← committed (closing ')'); return call) :=
    fun _ h => closed hW h (by decide)
  refine hW.word_bind fun start name hstart => (hW.mark (by decide)).bind fun _ _ => ?_
  split
  · exact (madeOf (f := fun p => ScalarExpr.dot p.1 p.2) hpair fun _ => rfl).bind hclosed
  · exact (madeOf (f := ScalarExpr.magnitude) hvector fun _ => rfl).bind hclosed
  · split
    · next fn _ => exact (madeOf (f := ScalarExpr.call fn) hscalar fun _ => rfl).bind hclosed
    · exact (Orderly.reject hstart).bind hclosed

theorem component : W.Orderly W.Made (component W.grammar ask) := by
  refine hW.opened fun start hstart => (vectorPrimary hW hask hreads).bind fun operand h => ?_
  refine (Orderly.orReject hstart (hW.mark (by decide))).bind fun _ _ => hW.name.bind fun _ _ => ?_
  split
  · exact .pure h
  · exact .reject hstart

theorem featureValue : W.Orderly W.Made (featureValue W.grammar ask) := by
  refine hW.opened fun start hstart => (featureOver hW hask hreads).bind fun feature h => ?_
  refine (Orderly.orReject hstart (hW.mark (by decide))).bind fun _ _ => ?_
  exact (referenceName hW _).map fun _ _ => h

theorem scalarPrimary : W.Orderly W.Made (scalarPrimary W.grammar ask) := by
  have hliteral : W.Orderly W.Made (do return ScalarExpr.literal (← number)) :=
    hW.number.map fun _ _ => AllMade.nil
  exact .labelled _ <| .choice <| List.forall_mem_cons.mpr ⟨hliteral,
    List.forall_mem_cons.mpr ⟨scalarCall hW hask,
    List.forall_mem_cons.mpr ⟨component hW hask hreads,
    List.forall_mem_cons.mpr ⟨parenthesized hW (hask .scalar),
    List.forall_mem_cons.mpr ⟨featureValue hW hask hreads,
    List.forall_mem_singleton.mpr (named (fun _ => rfl) hW .scalar)⟩⟩⟩⟩⟩

theorem scalarUnaryOver : W.Orderly W.Made (scalarUnaryOver W.grammar ask) := by
  have hunary : W.Orderly W.Made ask.scalarUnary := hask .scalarUnary
  refine .optional_bind (hW.mark (by decide)) (fun _ _ => hunary.map fun _ h => h) ?_
  refine (scalarPrimary hW hask hreads).bind fun base hbase => ?_
  refine .optional_bind (hW.mark (by decide)) (fun _ _ => ?_) (.pure hbase)
  exact hunary.map fun _ h => hbase.append h

/-! ## Chains -/

omit hask hreads in
/-- Operands and the operators between them. -/
theorem operands {α β : Type} [Phrase α] [Phrase β] {first : Parser α} {p : Parser β}
    {combine : Char → α → β → α} {a b : Char} (ha : a ≠ '\r') (hb : b ≠ '\r')
    (hfirst : W.Orderly W.Made first) (hp : W.Orderly W.Made p)
    (hcombine : ∀ op x y, W.Made x → W.Made y → W.Made (combine op x y)) :
    W.Orderly W.Made
      (chain first (operator a b) fun op left => do
        let right ← p
        return combine op left right) :=
  .chain hfirst (hW.operator ha hb) fun op x hx => hp.map fun y hy => hcombine op x y hx hy

theorem scalarTerm : W.Orderly W.Made (scalarTerm W.grammar ask) :=
  operands hW (by decide) (by decide) (scalarUnaryOver hW hask hreads)
    (scalarUnaryOver hW hask hreads) fun _ _ _ hx hy => hx.append hy

theorem vectorUnaryOver : W.Orderly W.Made (vectorUnaryOver W.grammar ask) :=
  .optional_bind (hW.mark (by decide)) (fun _ _ => Orderly.map (hask .vectorUnary) fun _ h => h)
    (vectorPrimary hW hask hreads)

theorem vectorFactorOver : W.Orderly W.Made (vectorFactorOver W.grammar ask) := by
  have hscaled : W.Orderly W.Made (scaledVector W.grammar ask) := by
    refine (scalarUnaryOver hW hask hreads).bind fun factor hfactor => ?_
    refine (hW.mark (by decide)).bind fun _ _ => ?_
    exact Orderly.map (hask .vectorFactor) fun _ h => AllMade.append h hfactor
  exact .optional_bind hscaled (fun _ h => .pure h) (vectorUnaryOver hW hask hreads)

theorem vectorTerm : W.Orderly W.Made (vectorTerm W.grammar ask) :=
  operands hW (by decide) (by decide) (vectorFactorOver hW hask hreads)
    (scalarUnaryOver hW hask hreads) fun op _ _ hx hy => by
      split
      · exact hx.append hy
      · exact hx.append hy

/-! ## Selections -/

omit hreads in
theorem query : W.Orderly W.Made (query ask) := by
  refine hW.word_bind fun start name hstart => ?_
  split
  · exact .reject hstart
  · next kind _ =>
    refine (hW.mark (by decide)).bind fun _ _ => ?_
    refine Orderly.bind (hask .feature).committed fun feature hfeature => ?_
    have hfilter : W.Passes
        (do let _ ← mark ','; committed (labelled "filter string" (padded stringLiteral))) :=
      (hW.mark (by decide)).bind fun _ _ => (hW.string.labelled _).committed
    have hquery : ∀ filter, W.Made (SelectionExpr.query kind feature filter) := fun _ => hfeature
    exact hfilter.optional.bind fun _ _ => closed hW (hquery _) (by decide)

omit hreads in
theorem selectionPrimary : W.Orderly W.Made (selectionPrimary W.grammar ask) :=
  .labelled _ <| .choice <| List.forall_mem_cons.mpr ⟨query hW hask,
    List.forall_mem_cons.mpr ⟨parenthesized hW (hask .selection),
    List.forall_mem_singleton.mpr (named (fun _ => rfl) hW .selection)⟩⟩

/-! ## The grammar as a whole -/

/-- Every rule over orderly rules is orderly. -/
theorem ruleOver (rule : Rule) : W.Orderly W.Made (ruleOver W.grammar ask rule) := by
  cases rule with
  | scalar =>
    exact operands hW (by decide) (by decide) (scalarTerm hW hask hreads)
      (scalarTerm hW hask hreads) fun _ _ _ hx hy => AllMade.append hx hy
  | scalarUnary => exact scalarUnaryOver hW hask hreads
  | vector =>
    refine operands hW (by decide) (by decide) (vectorTerm hW hask hreads)
      (vectorTerm hW hask hreads) fun op _ _ hx hy => ?_
    split
    · exact AllMade.append hx hy
    · exact AllMade.append hx hy
  | vectorFactor => exact vectorFactorOver hW hask hreads
  | vectorUnary => exact vectorUnaryOver hW hask hreads
  | datum => exact datumOver hW hask
  | selection =>
    refine operands hW (by decide) (by decide) (selectionPrimary hW hask)
      (selectionPrimary hW hask) fun op _ _ hx hy => ?_
    split
    · exact AllMade.append hx hy
    · exact AllMade.append hx hy
  | feature => exact featureOver hW hask hreads

end Rules

end Watch

/-- Every rule, where phrases nested `depth` deep or deeper are not read. -/
def Grammar.nested (g : Grammar) : (depth : Nat) → Rules
  | 0, _, c => .error [⟨c, .rejected⟩]
  | depth + 1, rule, c => ruleOver g (nested g depth) rule c

theorem Grammar.nested_agree (g : Grammar) (depth : Nat) (rule : Rule) :
    Parser.Agree depth 1 (g.nested depth rule) (g.parse rule) := by
  induction depth generalizing rule with
  | zero => exact fun c hc => absurd hc (Nat.not_lt_zero _)
  | succ depth ih =>
    rw [parse_eq]
    exact ruleOver_agree (fun rule => (ih rule).weaken) rule

theorem Grammar.nested_onward (g : Grammar) (depth : Nat) (rule : Rule) (n : Nat) :
    Parser.Agree n 1 (g.nested depth rule) (g.nested depth rule) := by
  induction depth generalizing rule n with
  | zero => exact .of_never nofun
  | succ depth ih =>
    exact (ruleOver_agree (n := n) (fun rule => (ih rule n).weaken) rule).mono (Nat.le_succ n)
      (Nat.le_refl 1)

namespace Watch

variable {W : Watch} (hW : W.Lawful)
include hW

theorem nested (depth : Nat) (rule : Rule) : W.Orderly W.Made (W.grammar.nested depth rule) := by
  induction depth generalizing rule with
  | zero => exact fun _ hc => .error (.single hc _)
  | succ depth ih => exact ruleOver hW ih (W.grammar.nested_onward depth) rule

theorem parse (rule : Rule) : W.Orderly W.Made (W.grammar.parse rule) := fun c hc => by
  rw [← (W.grammar.nested_agree (c.rest.length + 1) rule c (Nat.lt_succ_self _)).1]
  exact nested hW _ rule c hc

/-! ## Statements -/

theorem semicolon : W.Passes semicolon := .labelled _ (hW.mark (by decide))

/-- A phrase that a semicolon ends. -/
theorem ended {rule : Rule} {β : Type} {S : β → Prop} {b : rule.Value → β}
    (hb : ∀ a, W.Made a → S (b a)) :
    W.Orderly S (do return b (← ended (W.grammar.parse rule))) := by
  have hended : W.Orderly W.Made (Grammar.ended (W.grammar.parse rule)) :=
    (parse hW rule).bind fun _ h => (semicolon hW).map fun _ _ => h
  exact hended.map hb

/-- A path after a word of the language. -/
theorem path (label : String) : W.Passes (committed (labelled label (padded stringLiteral))) :=
  (hW.string.labelled label).committed

/-- A declaration spans from one place that is watched to another. -/
theorem importDeclaration :
    W.Orderly (fun d => ∃ start stop, W.place start ∧ W.place stop ∧ d.span = .between start stop)
      importDeclaration := by
  refine hW.opened fun start hstart => (hW.keyword (by decide)).bind fun _ _ => ?_
  refine (path hW _).bind fun _ _ => (semicolon hW).committed.bind fun _ _ => ?_
  exact .here fun stop hstop => .pure ⟨start, stop, hstart, hstop, rfl⟩

theorem outputBody : W.Orderly W.Made (outputBody W.grammar) := by
  refine Orderly.bind (parse hW .feature) fun feature hfeature => ?_
  have hpath : W.Passes (do
      let _ ← keyword "as"
      committed (labelled "output path" (padded stringLiteral))) :=
    (hW.keyword (by decide)).bind fun _ _ => path hW _
  exact hpath.optional.bind fun _ _ => (semicolon hW).map fun _ _ => hfeature

theorem boundValue : W.Orderly W.Made (boundValue W.grammar) :=
  .furthestChoice nofun <| List.forall_mem_cons.mpr ⟨ended hW fun _ h => h,
    List.forall_mem_cons.mpr ⟨ended hW fun _ h => h,
    List.forall_mem_cons.mpr ⟨ended hW fun _ h => h,
    List.forall_mem_cons.mpr ⟨ended hW fun _ h => h,
    List.forall_mem_singleton.mpr (ended hW fun _ h => h)⟩⟩⟩⟩

theorem bindingStatement : W.Orderly W.Made (bindingStatement W.grammar) := by
  refine hW.opened fun start hstart => (hW.identifier.labelled _).bind fun name _ => ?_
  refine .here fun afterName hafter => (Orderly.labelled _ (hW.mark (by decide))).bind fun _ _ => ?_
  split
  · next htaken => exact .refuse hstart hafter (.reserved htaken)
  · split
    · next previous hprevious => exact .refuse hstart hafter (.duplicate hprevious)
    · exact (boundValue hW).committed.map fun _ h => h

theorem statement : W.Orderly W.Made (statement W.grammar) :=
  .optional_bind (hW.keyword (by decide)) (fun _ _ => (outputBody hW).committed)
    (bindingStatement hW)

end Watch

end PartScript
