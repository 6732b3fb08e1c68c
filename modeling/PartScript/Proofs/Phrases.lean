/-
  The phrases of two readings. If two readings agree in words, numbers, strings and marks, they agree
  in every phrase of the grammar and in every statement. There is one lemma for every rule, over the
  rules for its parts; the rules themselves follow by induction on the depth to which they are tied
  together.
-/
import PartScript.Proofs.Tandem

namespace PartScript.Tandem

open Grammar Grammar.Parser

variable {T : Tandem} (hT : T.Lawful) {s : Stage}

section Brackets

variable {α : Type} {R : α → α → Prop} {p p' : Parser α}
include hT

theorem pairOf (h : T.Agrees .operand R (T.near .mark) p p') :
    T.Agrees .operand (fun x x' => R x.1 x'.1 ∧ R x.2 x'.2) (T.near .mark) (pairOf p) (pairOf p') :=
  h.bind fun _ _ ha => hT.comma.bind fun _ _ _ => h.map fun _ _ hb => ⟨ha, hb⟩

theorem parenthesized (h : T.Agrees .operand R (T.near .mark) p p') :
    T.Agrees s R (T.near .mark) (parenthesized p) (parenthesized p') :=
  (hT.operandMark (by decide) (by decide)).bind fun _ _ _ => h.bind fun _ _ ha =>
    (hT.closing (.inl rfl)).map fun _ _ _ => ha

/-- A closing bracket to which a rule has committed itself. -/
theorem closed {a a' : α} (ha : R a a') {bracket : Char} (h : bracket = ')' ∨ bracket = ']') :
    T.Agrees .mark R (T.near .mark)
      (do let _ ← committed (closing bracket); return a)
      (do let _ ← committed (closing bracket); return a') :=
  (hT.closing h).committed.map fun _ _ _ => ha

/-- A reference name after its mark. -/
theorem referenceName {label : String} (hlabel : label ∉ explainedPhrases) :
    T.Agrees .operand Eq (T.near .mark) (committed (labelled label (padded identifier)))
      (committed (labelled label (padded identifier))) :=
  ((hT.name.of_word hT).labelled hT fun h => absurd h hlabel).committed

end Brackets

namespace Arguments

variable {as as' : List PartScript.Argument} {a a' : PartScript.Argument}

theorem isEmpty (h : T.Arguments as as') : as.isEmpty = as'.isEmpty := by
  have hlength : as.length = as'.length := by simpa using congrArg List.length h
  rw [Bool.eq_iff_iff, List.isEmpty_iff_length_eq_zero, List.isEmpty_iff_length_eq_zero, hlength]

theorem cons (ha : T.Argument a a') (h : T.Arguments as as') : T.Arguments (a :: as) (a' :: as') :=
  congrArg₂ List.cons ha h

theorem concat (h : T.Arguments as as') (ha : T.Argument a a') :
    T.Arguments (as ++ [a]) (as' ++ [a']) := by
  simpa [Arguments, Argument] using ⟨h, ha⟩

end Arguments

section Rules

variable {ask ask' : Rules}
  (hask : ∀ rule, T.Agrees .operand (T.Value rule) (T.near .mark) (ask rule) (ask' rule))

include hT hask

/-! ## Arguments -/

theorem argument (kind : ParamKind) :
    T.Agrees .operand T.Argument (T.near .mark) (argument ask kind) (argument ask' kind) := by
  cases kind with
  | scalar => exact (hask .scalar).map fun _ _ h => congrArg Argument.scalar h
  | vector => exact (hask .vector).map fun _ _ h => congrArg Argument.vector h
  | datum => exact (hask .datum).map fun _ _ h => congrArg Argument.datum h
  | feature => exact (hask .feature).map fun _ _ h => congrArg Argument.feature h
  | selection => exact (hask .selection).map fun _ _ h => congrArg Argument.selection h
  | keyword choices => exact (hT.optionWord choices).map fun _ _ h => congrArg _ (congrArg _ h)

/-- Where an argument list goes on: a phrase may begin right after the opening parenthesis. -/
def listStage (read : List PartScript.Argument) : Stage := if read.isEmpty then .operand else .mark

theorem nextArgument (typeName : String) (param : Param) (mandatory : Bool)
    (read : List PartScript.Argument) :
    T.Agrees (listStage read) (Option.Rel T.Argument) (T.near .mark)
      (nextArgument ask typeName param mandatory read.isEmpty)
      (nextArgument ask' typeName param mandatory read.isEmpty) := by
  have hargument := argument hT hask param.kind
  have hsome : T.Agrees .operand (Option.Rel T.Argument) (T.near .mark)
      (do return some (← Grammar.argument ask param.kind))
      (do return some (← Grammar.argument ask' param.kind)) :=
    hargument.map fun _ _ h => .some h
  unfold Grammar.nextArgument listStage
  cases read.isEmpty with
  | true =>
    cases mandatory with
    | true => exact hsome
    | false => exact fun c c' hc => (hargument c c' hc).optional (hT.below hc)
  | false =>
    refine .here fun here here' hhere => ?_
    refine .optional_bind (hT.operandMark (by decide) (by decide)) (fun _ _ _ => hsome) ?_
    cases mandatory with
    | true => exact .refuse hT hhere hhere fun _ => rfl
    | false => exact .pure .none fun _ _ => id

/-- An argument of a list and the rest of it. -/
theorem argument_bind {typeName : String} {param : Param} {mandatory : Bool}
    {read read' : List PartScript.Argument} (hread : T.Arguments read read')
    {f f' : List PartScript.Argument → Parser (List PartScript.Argument)}
    (hf : ∀ as as', as ≠ [] → T.Arguments as as' →
      T.Agrees .mark T.Arguments (T.near .mark) (f as) (f' as')) :
    T.Agrees (listStage read) T.Arguments (T.near .mark)
      (Grammar.nextArgument ask typeName param mandatory read.isEmpty >>= fun next =>
        match next with
        | some a => f (read ++ [a])
        | none => Pure.pure read)
      (Grammar.nextArgument ask' typeName param mandatory read'.isEmpty >>= fun next =>
        match next with
        | some a => f' (read' ++ [a])
        | none => Pure.pure read') := by
  rw [← Arguments.isEmpty hread]
  refine (nextArgument hT hask typeName param mandatory read).bind fun next next' hnext => ?_
  cases hnext with
  | some ha => exact hf _ _ (by simp) (hread.concat ha)
  | none => exact .pure hread fun _ _ => id

theorem variadicArguments (typeName : String) (param : Param) (least n : Nat) :
    ∀ (count : Nat) (read read' : List PartScript.Argument), T.Arguments read read' →
      T.Agrees (listStage read) T.Arguments (T.near .mark)
        (variadicArguments ask typeName param least n count read)
        (variadicArguments ask' typeName param least n count read') := by
  induction n with
  | zero => exact fun _ read read' hread => .pure hread fun _ _ hc => hT.below hc
  | succ n ih =>
    refine fun count read read' hread => argument_bind hT hask hread fun as as' has h => ?_
    have hstage : listStage as = .mark := by simp [listStage, has]
    exact hstage ▸ ih (count + 1) as as' h

theorem placementArguments : T.Agrees .operand T.Arguments (T.near .mark)
    (placementArguments T.first ask) (placementArguments T.second ask') := by
  have hvector : ∀ {label}, label ∉ explainedPhrases → T.Agrees .operand T.Vector (T.near .mark)
      (labelled label ask.vector) (labelled label ask'.vector) :=
    fun hlabel => .labelled hT (fun h => absurd h hlabel) (hask .vector)
  have hplane : T.Agrees .operand T.Datum (T.near .mark) (placementPlane ask)
      (placementPlane ask') := by
    have hmark : T.Agrees .mark Eq (T.near .mark) (mark ')') (mark ')') :=
      hT.closingMark (by decide) (by decide)
    exact Agrees.bind (hask .datum) fun _ _ hplane => .bind
      (fun c c' hc => (hmark c c' hc).ahead hc) fun _ _ _ => .pure hplane fun _ _ => id
  have hfeature : T.Agrees .operand T.Feature (T.near .mark) (labelled "feature" ask.feature)
      (labelled "feature" ask'.feature) := .labelled hT (by decide) (hask .feature)
  refine hfeature.bind fun base base' hbase => hT.comma.bind fun _ _ _ => ?_
  refine .here fun start start' hstart => .optional_bind hplane (fun plane plane' hplane => ?_) ?_
  · refine .here fun stop stop' hstop => ?_
    rw [hT.alike.datumKind? _ hplane, hT.alike.length]
    split
    · exact .refuse hT hstart hstop fun _ => rfl
    · exact .refuse hT hstart hstop fun _ => rfl
    · exact .pure (.cons (congrArg Argument.feature hbase) (.cons (congrArg Argument.datum hplane)
        rfl)) fun _ _ => id
  · refine (hvector (by decide)).bind fun origin origin' horigin => hT.comma.bind fun _ _ _ => ?_
    refine (hvector (by decide)).bind fun ex ex' hex => hT.comma.bind fun _ _ _ => ?_
    refine (hvector (by decide)).map fun ez ez' hez => ?_
    exact .cons (congrArg Argument.feature hbase) <| .cons (congrArg Argument.vector horigin) <|
      .cons (congrArg Argument.vector hex) <| .cons (congrArg Argument.vector hez) rfl

/-! ## Phrases without features in front -/

theorem datumCall : T.Agrees .operand T.Datum (T.near .mark) (datumCall ask) (datumCall ask') := by
  have hvector := (hask .vector).committed
  have hpair := (pairOf hT (hask .vector)).committed
  refine .of_word hT <| hT.word_bind fun start start' name hstart _ => ?_
  refine (hT.operandMark (by decide) (by decide)).bind fun _ _ _ => ?_
  split
  · refine Agrees.bind (R := T.Datum) (hvector.map fun _ _ h => congrArg DatumExpr.point h) ?_
    exact fun _ _ h => closed hT h (.inl rfl)
  · refine Agrees.bind (R := T.Datum) (hpair.map fun _ _ h => congrArg₂ DatumExpr.axis h.1 h.2) ?_
    exact fun _ _ h => closed hT h (.inl rfl)
  · refine Agrees.bind (R := T.Datum) (hpair.map fun _ _ h => congrArg₂ DatumExpr.plane h.1 h.2) ?_
    exact fun _ _ h => closed hT h (.inl rfl)
  · exact Agrees.bind (R := T.Datum) (.reject hT hstart) fun _ _ h => closed hT h (.inl rfl)

theorem datumOver : T.Agrees .operand T.Datum (T.near .mark) (datumOver T.first ask)
    (datumOver T.second ask') := by
  refine .labelled hT (fun _ => rfl) <| .choice hT (.cons (datumCall hT hask) (.cons ?_ (.cons ?_ .nil)))
  · exact parenthesized hT (hask .datum)
  · exact ((hT.symbol .datum).of_word hT).map fun _ _ h => congrArg _ (congrArg DatumExpr.symbol h)

theorem components {bracket : Char} (h : bracket = ')' ∨ bracket = ']') :
    T.Agrees .operand T.Vector (T.near .mark) (components ask bracket) (components ask' bracket) := by
  have hscalar : T.Agrees .operand T.Scalar (T.near .mark) ask.scalar ask'.scalar := hask .scalar
  refine Agrees.bind (R := T.Vector) (.committed ?_) fun _ _ hv => closed hT hv h
  refine hscalar.bind fun x x' hx => hT.comma.bind fun _ _ _ => ?_
  refine hscalar.bind fun y y' hy => hT.comma.bind fun _ _ _ => ?_
  refine hscalar.map fun z z' hz => ?_
  show VectorExpr.literal _ _ _ = VectorExpr.literal _ _ _
  rw [show ScalarExpr.moved _ x = ScalarExpr.moved _ x' from hx,
    show ScalarExpr.moved _ y = ScalarExpr.moved _ y' from hy,
    show ScalarExpr.moved _ z = ScalarExpr.moved _ z' from hz]

theorem vectorCall : T.Agrees .operand T.Vector (T.near .mark) (vectorCall ask) (vectorCall ask') := by
  have hvector : T.Agrees .operand T.Vector (T.near .mark) (committed ask.vector)
      (committed ask'.vector) := (hask .vector).committed
  refine .of_word hT <| hT.word_bind fun start start' name hstart _ => ?_
  refine (hT.operandMark (by decide) (by decide)).bind fun _ _ _ => ?_
  split
  · exact components hT hask (.inl rfl)
  · refine hvector.bind fun left left' hleft => hT.comma.committed.bind fun _ _ _ => ?_
    refine hvector.bind fun right right' hright => ?_
    have h : T.Vector (left.cross right) (left'.cross right') :=
      congrArg₂ VectorExpr.cross hleft hright
    exact closed hT h (.inl rfl)
  · refine hvector.bind fun operand operand' hoperand => ?_
    have h : T.Vector operand.normalize operand'.normalize :=
      congrArg VectorExpr.normalize hoperand
    exact closed hT h (.inl rfl)
  · exact .reject hT hstart

theorem datumPart : T.Agrees .operand T.Vector (T.near .mark) (datumPart T.first ask)
    (datumPart T.second ask') := by
  refine .opened hT fun start start' hstart => (datumOver hT hask).bind fun datum datum' hdatum => ?_
  refine ((hT.operandMark (by decide) (by decide)).orReject hT hstart).bind fun _ _ _ => ?_
  refine ((hT.name.of_word hT).orReject hT hstart).bind fun word word' hword => ?_
  subst hword
  split
  · exact .pure (congrArg (VectorExpr.part · _) hdatum) fun _ _ => id
  · exact .reject hT hstart

theorem scalarCall : T.Agrees .operand T.Scalar (T.near .mark) (scalarCall ask) (scalarCall ask') := by
  have hvector := (hask .vector).committed
  have hpair := (pairOf hT (hask .vector)).committed
  have hscalar := (hask .scalar).committed
  refine .of_word hT <| hT.word_bind fun start start' name hstart _ => ?_
  refine (hT.operandMark (by decide) (by decide)).bind fun _ _ _ => ?_
  split
  · refine Agrees.bind (R := T.Scalar) (hpair.map fun _ _ h => congrArg₂ ScalarExpr.dot h.1 h.2) ?_
    exact fun _ _ h => closed hT h (.inl rfl)
  · refine Agrees.bind (R := T.Scalar) (hvector.map fun _ _ h => congrArg ScalarExpr.magnitude h) ?_
    exact fun _ _ h => closed hT h (.inl rfl)
  · split
    · refine Agrees.bind (R := T.Scalar) (hscalar.map fun _ _ h =>
        congrArg (ScalarExpr.call _) h) ?_
      exact fun _ _ h => closed hT h (.inl rfl)
    · exact Agrees.bind (R := T.Scalar) (.reject hT hstart) fun _ _ h => closed hT h (.inl rfl)

/-! ## Calls -/

variable (hreads : ∀ rule n, Parser.Agree n 1 (ask rule) (ask rule))
  (hreads' : ∀ rule n, Parser.Agree n 1 (ask' rule) (ask' rule))
include hreads hreads'

theorem argumentsFrom (typeName : String) (signature : Signature) :
    ∀ read read', T.Arguments read read' →
      T.Agrees (listStage read) T.Arguments (T.near .mark)
        (argumentsFrom ask typeName signature read)
        (argumentsFrom ask' typeName signature read') := by
  induction signature with
  | nil => exact fun read read' hread => .pure hread fun _ _ hc => hT.below hc
  | cons param params ih =>
    intro read read' hread
    have hnext : ∀ mandatory, T.Agrees (listStage read) T.Arguments (T.near .mark)
        (do match ← Grammar.nextArgument ask typeName param mandatory read.isEmpty with
            | some a => Grammar.argumentsFrom ask typeName params (read ++ [a])
            | none => return read)
        (do match ← Grammar.nextArgument ask' typeName param mandatory read'.isEmpty with
            | some a => Grammar.argumentsFrom ask' typeName params (read' ++ [a])
            | none => return read') := fun mandatory =>
      argument_bind hT hask hread fun as as' has h => by
        have hstage : listStage as = .mark := by simp [listStage, has]
        exact hstage ▸ ih as as' h
    unfold Grammar.argumentsFrom
    cases param.arity with
    | variadic least =>
      intro c c' hc
      have hbound := variadicArguments_bound hreads (c := c) typeName param least 0 read
        (Nat.lt_succ_self _) (Nat.lt_succ_of_le (Nat.le_max_left c.rest.length c'.rest.length))
      have hbound' := variadicArguments_bound hreads' (c := c') typeName param least 0 read'
        (Nat.lt_succ_self _) (Nat.lt_succ_of_le (Nat.le_max_right c.rest.length c'.rest.length))
      dsimp only
      rw [hbound, hbound']
      exact variadicArguments hT hask typeName param least _ 0 read read' hread c c' hc
    | required => exact hnext true
    | optional _ => exact hnext false

theorem callArguments (type : FeatureType) : T.Agrees .operand T.Arguments (T.near .mark)
    (callArguments T.first ask type) (callArguments T.second ask' type) := by
  unfold Grammar.callArguments
  cases type.written with
  | declared => exact argumentsFrom hT hask hreads hreads' type.name type.signature [] [] rfl
  | placement => exact placementArguments hT hask

/-- A construction, or the refusal of one. -/
theorem constructor : T.Agrees .word T.Construction (T.near .mark) (constructor T.first ask)
    (constructor T.second ask') := by
  refine hT.word_bind fun start start' name hstart hknows => ?_
  refine .here fun after after' hafter => (hT.operandMark (by decide) (by decide)).bind fun _ _ _ => ?_
  rw [hknows]
  cases T.second.registry.find? name with
  | none =>
    dsimp only
    split
    · exact .reject hT hstart
    · exact .refuse hT hstart hafter fun _ => rfl
  | some type =>
    have harguments := callArguments hT hask hreads hreads' type
    refine harguments.committed.bind fun as as' has => ?_
    refine (hT.closing (.inl rfl)).committed.bind fun _ _ _ => .here fun stop stop' hstop => ?_
    have hmade := type.construct_alike (hT.origin hstart hstop) has
    revert hmade
    generalize type.construct as _ = made, type.construct as' _ = made'
    intro hmade
    cases made <;> cases made'
    · refine .refuse hT hstart hstop fun _ => ?_
      rw [show ArgumentError.message _ = ArgumentError.message _ from hmade]
    · exact hmade.elim
    · exact hmade.elim
    · exact .pure hmade fun _ _ => id

/-! ## Features -/

theorem featureOver : T.Agrees .word T.Feature (T.near .mark) (featureOver T.first ask)
    (featureOver T.second ask') := by
  have hprimary : T.Agrees .word T.Feature (T.near .mark) (featurePrimary T.first ask)
      (featurePrimary T.second ask') := by
    refine .choice hT (.cons ?_ (.cons ?_ (.cons hT.featureName .nil)))
    · exact (constructor hT hask hreads hreads').map fun _ _ h => congrArg FeatureRef.inline h
    · refine (hT.operandMark (by decide) (by decide)).bind fun _ _ _ => ?_
      exact Agrees.bind (hask .feature) fun _ _ h =>
        (hT.closingMark (by decide) (by decide)).map fun _ _ _ => h
  have hsub : ∀ base base', T.Feature base base' →
      T.Agrees .mark T.Feature (T.near .mark) (subResult base) (subResult base') := by
    intro base base' hbase
    refine (hT.operandMark (by decide) (by decide)).bind fun _ _ _ => ?_
    refine (hT.name.of_word hT).map fun name name' hname => ?_
    subst hname
    exact congrArg (FeatureRef.sub · name) hbase
  refine (hprimary.labelled hT (by decide)).bind fun primary primary' h => ?_
  exact .extend hsub subResult_agree subResult_agree (fun _ _ => subResult_end _)
    (fun _ _ => subResult_end _) h

/-! ## Vectors -/

theorem featurePoint : T.Agrees .operand T.Vector (T.near .mark) (featurePoint T.first ask)
    (featurePoint T.second ask') := by
  refine .opened hT fun start start' hstart => ?_
  refine ((featureOver hT hask hreads hreads').of_word hT).bind fun feature feature' hfeature => ?_
  refine ((hT.operandMark (by decide) (by decide)).orReject hT hstart).bind fun _ _ _ => ?_
  refine (referenceName hT (by decide)).map fun name name' hname => ?_
  subst hname
  exact congrArg (VectorExpr.point · name) hfeature

theorem vectorPrimary : T.Agrees .operand T.Vector (T.near .mark) (vectorPrimary T.first ask)
    (vectorPrimary T.second ask') := by
  have hliteral : T.Agrees .operand T.Vector (T.near .mark) (vectorLiteral ask)
      (vectorLiteral ask') :=
    (hT.operandMark (by decide) (by decide)).bind fun _ _ _ => components hT hask (.inr rfl)
  have hsymbol : T.Agrees .operand T.Vector (T.near .mark)
      (do return VectorExpr.symbol (← T.first.symbol .vector))
      (do return VectorExpr.symbol (← T.second.symbol .vector)) :=
    ((hT.symbol .vector).of_word hT).map fun _ _ h => congrArg _ (congrArg VectorExpr.symbol h)
  exact .labelled hT (fun _ => rfl) <| .choice hT <| .cons hliteral <| .cons (vectorCall hT hask) <|
    .cons (datumPart hT hask) <| .cons (featurePoint hT hask hreads hreads') <|
    .cons (parenthesized hT (hask .vector)) <| .cons hsymbol .nil

/-! ## Scalars -/

theorem component : T.Agrees .operand T.Scalar (T.near .mark) (component T.first ask)
    (component T.second ask') := by
  refine .opened hT fun start start' hstart => ?_
  refine (vectorPrimary hT hask hreads hreads').bind fun operand operand' hoperand => ?_
  refine ((hT.operandMark (by decide) (by decide)).orReject hT hstart).bind fun _ _ _ => ?_
  refine (hT.name.of_word hT).bind fun word word' hword => ?_
  subst hword
  split
  · exact .pure (congrArg (ScalarExpr.component · _) hoperand) fun _ _ => id
  · exact .reject hT hstart

theorem featureValue : T.Agrees .operand T.Scalar (T.near .mark) (featureValue T.first ask)
    (featureValue T.second ask') := by
  refine .opened hT fun start start' hstart => ?_
  refine ((featureOver hT hask hreads hreads').of_word hT).bind fun feature feature' hfeature => ?_
  refine ((hT.operandMark (by decide) (by decide)).orReject hT hstart).bind fun _ _ _ => ?_
  refine (referenceName hT (by decide)).map fun name name' hname => ?_
  subst hname
  exact congrArg (ScalarExpr.value · name) hfeature

/-- A scalar that does not begin with a minus sign. -/
theorem scalarPrimary {c c' : Cursor} (hc : T.near .operand c c') (hsign : c.head? ≠ some '-') :
    T.Paired (T.near .mark) T.Scalar (scalarPrimary T.first ask c) (scalarPrimary T.second ask' c') := by
  have hnumber : T.Paired (T.near .mark) T.Scalar
      ((do return ScalarExpr.literal (← number) : Parser ScalarExpr) c)
      ((do return ScalarExpr.literal (← number) : Parser ScalarExpr) c') :=
    (hT.number hc hsign).bind fun _ _ _ _ h hd => .ok (congrArg _ (congrArg ScalarExpr.literal h)) hd
  have hsymbol : T.Agrees .operand T.Scalar (T.near .mark)
      (do return ScalarExpr.symbol (← T.first.symbol .scalar))
      (do return ScalarExpr.symbol (← T.second.symbol .scalar)) :=
    ((hT.symbol .scalar).of_word hT).map fun _ _ h => congrArg _ (congrArg ScalarExpr.symbol h)
  refine .labelled hT hc (fun _ => rfl) <| .choice hT hc <| .cons hnumber <|
    .cons (scalarCall hT hask c c' hc) <| .cons (component hT hask hreads hreads' c c' hc) <|
    .cons (parenthesized hT (hask .scalar) c c' hc) <|
    .cons (featureValue hT hask hreads hreads' c c' hc) <| .cons (hsymbol c c' hc) .nil

theorem scalarUnaryOver : T.Agrees .operand T.Scalar (T.near .mark) (scalarUnaryOver T.first ask)
    (scalarUnaryOver T.second ask') := by
  have hunary : T.Agrees .operand T.Scalar (T.near .mark) ask.scalarUnary ask'.scalarUnary :=
    hask .scalarUnary
  intro c c' hc
  have hminus : T.Agrees .operand Eq (T.near .operand) (mark '-') (mark '-') :=
    hT.operandMark (by decide) (by decide)
  refine (hminus c c' hc).optional_bind (fun _ _ d d' _ hd => ?_) fun hstops => ?_
  · exact (hunary d d' hd).bind fun _ _ _ _ h hrest => .ok (congrArg ScalarExpr.neg h) hrest
  · have hsign : c.head? ≠ some '-' := fun hhead => by
      obtain ⟨stops, h⟩ := stops_iff.mp hstops
      rw [mark_ok hhead] at h
      cases h
    refine (scalarPrimary hT hask hreads hreads' hc hsign).bind fun base base' d d' hbase hd => ?_
    have hcaret : T.Agrees .mark Eq (T.near .operand) (mark '^') (mark '^') :=
      hT.operandMark (by decide) (by decide)
    refine (hcaret d d' hd).optional_bind (fun _ _ e e' _ he => ?_) fun _ => .ok hbase hd
    exact (hunary e e' he).bind fun _ _ _ _ h hrest =>
      .ok (congrArg₂ (ScalarExpr.binary .pow) hbase h) hrest

/-! ## Chains -/

omit hT hask hreads hreads' in
/-- Both sides read the same operators and operands. -/
theorem operands {α β : Type} {R : α → α → Prop} {S : β → β → Prop} {first first' : Parser α}
    {p p' : Parser β} {combine : Char → α → β → α} {a b : Char} (hT : T.Lawful)
    (ha : a ∈ marks ∧ Stage.after a = .operand) (hb : b ∈ marks ∧ Stage.after b = .operand)
    (hfirst : T.Agrees .operand R (T.near .mark) first first')
    (hp : T.Agrees .operand S (T.near .mark) p p')
    (honward : ∀ n, Parser.Agree n 1 p p) (honward' : ∀ n, Parser.Agree n 1 p' p')
    (hcombine : ∀ op x x' y y', R x x' → S y y' → R (combine op x y) (combine op x' y')) :
    T.Agrees .operand R (T.near .mark)
      (chain first (operator a b) fun op left => do
        let right ← p
        return combine op left right)
      (chain first' (operator a b) fun op left => do
        let right ← p'
        return combine op left right) :=
  .chain hfirst (hT.operator ha hb) (fun op x x' hx => hp.map fun y y' => hcombine op x x' y y' hx)
    (fun _ => operator_agree a b) (fun _ => operator_end a b)
    (fun _ _ n => (honward n).weaken.then_ fun _ => .pure _)
    fun _ _ n => (honward' n).weaken.then_ fun _ => .pure _

theorem scalarTerm : T.Agrees .operand T.Scalar (T.near .mark) (scalarTerm T.first ask)
    (scalarTerm T.second ask') :=
  operands hT (by decide) (by decide) (scalarUnaryOver hT hask hreads hreads')
    (scalarUnaryOver hT hask hreads hreads') (scalarUnaryOver_onward hreads T.first)
    (scalarUnaryOver_onward hreads' T.second)
    fun _ _ _ _ _ hx hy => congrArg₂ (ScalarExpr.binary _) hx hy

theorem scalarOver : T.Agrees .operand T.Scalar (T.near .mark) (scalarOver T.first ask)
    (scalarOver T.second ask') :=
  operands hT (by decide) (by decide) (scalarTerm hT hask hreads hreads')
    (scalarTerm hT hask hreads hreads') (scalarTerm_onward hreads T.first)
    (scalarTerm_onward hreads' T.second)
    fun _ _ _ _ _ hx hy => congrArg₂ (ScalarExpr.binary _) hx hy

theorem vectorUnaryOver : T.Agrees .operand T.Vector (T.near .mark) (vectorUnaryOver T.first ask)
    (vectorUnaryOver T.second ask') :=
  .optional_bind (hT.operandMark (by decide) (by decide))
    (fun _ _ _ => Agrees.map (hask .vectorUnary) fun _ _ h => congrArg VectorExpr.neg h)
    (vectorPrimary hT hask hreads hreads')

theorem vectorFactorOver : T.Agrees .operand T.Vector (T.near .mark) (vectorFactorOver T.first ask)
    (vectorFactorOver T.second ask') := by
  have hscaled : T.Agrees .operand T.Vector (T.near .mark) (scaledVector T.first ask)
      (scaledVector T.second ask') := by
    refine (scalarUnaryOver hT hask hreads hreads').bind fun factor factor' hfactor => ?_
    refine (hT.operandMark (by decide) (by decide)).bind fun _ _ _ => ?_
    exact Agrees.map (hask .vectorFactor) fun _ _ h => congrArg₂ VectorExpr.scale h hfactor
  exact .optional_bind hscaled (fun _ _ h => .pure h fun _ _ => id)
    (vectorUnaryOver hT hask hreads hreads')

theorem vectorTerm : T.Agrees .operand T.Vector (T.near .mark) (vectorTerm T.first ask)
    (vectorTerm T.second ask') :=
  operands hT (by decide) (by decide) (vectorFactorOver hT hask hreads hreads')
    (scalarUnaryOver hT hask hreads hreads') (scalarUnaryOver_onward hreads T.first)
    (scalarUnaryOver_onward hreads' T.second) fun op x x' y y' hx hy => by
      split
      · exact congrArg₂ VectorExpr.scale hx hy
      · exact congrArg₂ VectorExpr.divide hx hy

theorem vectorOver : T.Agrees .operand T.Vector (T.near .mark) (vectorOver T.first ask)
    (vectorOver T.second ask') :=
  operands hT (by decide) (by decide) (vectorTerm hT hask hreads hreads')
    (vectorTerm hT hask hreads hreads') (vectorTerm_onward hreads T.first)
    (vectorTerm_onward hreads' T.second) fun op x x' y y' hx hy => by
      split
      · exact congrArg₂ VectorExpr.add hx hy
      · exact congrArg₂ VectorExpr.sub hx hy

/-! ## Selections -/

omit hreads hreads' in
theorem query : T.Agrees .operand T.Selection (T.near .mark) (query ask) (query ask') := by
  refine .of_word hT <| hT.word_bind fun start start' name hstart _ => ?_
  split
  · exact .reject hT hstart
  · next kind _ =>
    refine (hT.operandMark (by decide) (by decide)).bind fun _ _ _ => ?_
    refine Agrees.bind (hask .feature).committed fun feature feature' hfeature => ?_
    have hquery : ∀ filter, T.Selection (.query kind feature filter) (.query kind feature' filter) :=
      fun filter => congrArg (SelectionExpr.query kind · filter) hfeature
    have hfilter : T.Agrees .mark Eq (T.near .mark)
        (do let _ ← mark ','; committed (labelled "filter string" (padded stringLiteral)))
        (do let _ ← mark ','; committed (labelled "filter string" (padded stringLiteral))) :=
      (hT.operandMark (by decide) (by decide)).bind fun _ _ _ =>
        ((hT.string.of_word hT).labelled hT (by decide)).committed
    refine .optional_bind hfilter (fun filter filter' h => ?_) ?_
    · subst h
      exact closed hT (hquery _) (.inl rfl)
    · exact closed hT (hquery _) (.inl rfl)

omit hreads hreads' in
theorem selectionPrimary : T.Agrees .operand T.Selection (T.near .mark)
    (selectionPrimary T.first ask) (selectionPrimary T.second ask') := by
  have hsymbol : T.Agrees .operand T.Selection (T.near .mark)
      (do return SelectionExpr.symbol (← T.first.symbol .selection))
      (do return SelectionExpr.symbol (← T.second.symbol .selection)) :=
    ((hT.symbol .selection).of_word hT).map fun _ _ h => congrArg _ (congrArg SelectionExpr.symbol h)
  exact .labelled hT (fun _ => rfl) <| .choice hT <| .cons (query hT hask) <|
    .cons (parenthesized hT (hask .selection)) <| .cons hsymbol .nil

theorem selectionOver : T.Agrees .operand T.Selection (T.near .mark) (selectionOver T.first ask)
    (selectionOver T.second ask') :=
  operands hT (by decide) (by decide) (selectionPrimary hT hask) (selectionPrimary hT hask)
    (selectionPrimary_onward hreads T.first) (selectionPrimary_onward hreads' T.second)
    fun op x x' y y' hx hy => by
      split
      · exact congrArg₂ SelectionExpr.union hx hy
      · exact congrArg₂ SelectionExpr.difference hx hy

/-! ## The grammar as a whole -/

/-- Every rule over rules that agree agrees. -/
theorem ruleOver (rule : Rule) :
    T.Agrees .operand (T.Value rule) (T.near .mark) (ruleOver T.first ask rule)
      (ruleOver T.second ask' rule) := by
  cases rule with
  | scalar => exact scalarOver hT hask hreads hreads'
  | scalarUnary => exact scalarUnaryOver hT hask hreads hreads'
  | vector => exact vectorOver hT hask hreads hreads'
  | vectorFactor => exact vectorFactorOver hT hask hreads hreads'
  | vectorUnary => exact vectorUnaryOver hT hask hreads hreads'
  | datum => exact datumOver hT hask
  | selection => exact selectionOver hT hask hreads hreads'
  | feature => exact (featureOver hT hask hreads hreads').of_word hT

end Rules

include hT

theorem within (depth : Nat) (rule : Rule) :
    T.Agrees .operand (T.Value rule) (T.near .mark) (within T.first depth rule)
      (within T.second depth rule) := by
  induction depth generalizing rule with
  | zero => exact fun _ _ _ => .failure .nil fun _ => rfl
  | succ depth ih =>
    exact ruleOver hT ih (within_onward T.first depth) (within_onward T.second depth) rule

theorem parse (rule : Rule) :
    T.Agrees .operand (T.Value rule) (T.near .mark) (T.first.parse rule) (T.second.parse rule) := by
  intro c c' hc
  have hfirst := (parse_agree T.first _ rule c
    (Nat.lt_succ_of_le (Nat.le_max_left c.rest.length c'.rest.length))).1
  have hsecond := (parse_agree T.second _ rule c'
    (Nat.lt_succ_of_le (Nat.le_max_right c.rest.length c'.rest.length))).1
  rw [← hfirst, ← hsecond]
  exact within hT _ rule c c' hc

/-- A feature may also stand where only a word may begin. -/
theorem parse_feature :
    T.Agrees .word T.Feature (T.near .mark) T.first.parse.feature T.second.parse.feature := by
  have hreads : ∀ (g : Grammar) rule n, Parser.Agree n 1 (g.parse rule) (g.parse rule) :=
    fun g rule n => .of_at (parse_onward g rule)
  have hover : ∀ g : Grammar, g.parse.feature = Grammar.featureOver g g.parse :=
    fun g => parse_eq g .feature
  rw [hover, hover]
  exact featureOver hT (parse hT) (hreads T.first) (hreads T.second)

/-! ## Statements -/

theorem semicolon : T.Agrees .mark Eq T.past semicolon semicolon :=
  .labelled hT (by decide) fun _ _ hc => hT.semicolon hc

theorem ended (rule : Rule) : T.Agrees .operand (T.Value rule) T.past (ended (T.first.parse rule))
    (ended (T.second.parse rule)) :=
  (parse hT rule).bind fun _ _ h => (semicolon hT).map fun _ _ _ => h

/-- A path after a word of the language. -/
theorem path {label : String} (hlabel : label ∉ explainedPhrases) :
    T.Agrees .word Eq (T.near .mark) (committed (labelled label (padded stringLiteral)))
      (committed (labelled label (padded stringLiteral))) :=
  (hT.string.labelled hT fun h => absurd h hlabel).committed

theorem importDeclaration :
    T.Agrees .operand (fun d d' => d.path = d'.path) T.past importDeclaration importDeclaration := by
  refine .opened hT fun start start' _ => ?_
  have hkeyword : T.Agrees .operand (fun _ _ => True) (T.near .word) (keyword "import")
      (keyword "import") := fun _ _ hc => hT.keyword (by decide) (hT.below hc)
  refine hkeyword.bind fun _ _ _ => (path hT (by decide)).bind fun _ _ hpath => ?_
  intro c c' hc
  exact ((semicolon hT).committed c c' hc).bind fun _ _ _ _ _ hd => .ok hpath hd

theorem outputBody : T.Agrees .word T.Statement T.past (outputBody T.first) (outputBody T.second) := by
  refine (parse_feature hT).bind fun feature feature' hfeature => ?_
  have hpath : T.Agrees .mark Eq (T.near .mark)
      (do let _ ← keyword "as"; committed (labelled "output path" (padded stringLiteral)))
      (do let _ ← keyword "as"; committed (labelled "output path" (padded stringLiteral))) := by
    have hkeyword : T.Agrees .mark (fun _ _ => True) (T.near .word) (keyword "as") (keyword "as") :=
      fun _ _ hc => hT.keyword (by decide) hc
    exact hkeyword.bind fun _ _ _ => path hT (by decide)
  have hend : ∀ path : Option String, T.Agrees .mark T.Statement T.past
      (do let _ ← Grammar.semicolon; return .output feature path)
      (do let _ ← Grammar.semicolon; return .output feature' path) := fun path =>
    (semicolon hT).map fun _ _ _ => congrArg (Statement.output · path) hfeature
  refine .optional_bind hpath (fun path path' h => ?_) (hend none)
  subst h
  exact hend (some path)

theorem boundValue : T.Agrees .operand T.Bound T.past (boundValue T.first) (boundValue T.second) := by
  intro c c' hc
  have hvalue : ∀ (rule : Rule) {b : rule.Value → BoundValue},
      (∀ a a', T.Value rule a a' → T.Bound (b a) (b a')) →
      T.Paired T.past T.Bound ((do return b (← Grammar.ended (T.first.parse rule))) c)
        ((do return b (← Grammar.ended (T.second.parse rule))) c') :=
    fun rule _ hb => (ended hT rule).map hb c c' hc
  exact .furthestChoice hT hc .none <|
    .cons (hvalue .feature fun _ _ h => congrArg BoundValue.feature h) <|
    .cons (hvalue .selection fun _ _ h => congrArg BoundValue.selection h) <|
    .cons (hvalue .datum fun _ _ h => congrArg BoundValue.datum h) <|
    .cons (hvalue .vector fun _ _ h => congrArg BoundValue.vector h) <|
    .cons (hvalue .scalar fun _ _ h => congrArg BoundValue.scalar h) .nil

theorem bindingStatement : T.Agrees .operand T.Statement T.past (bindingStatement T.first)
    (bindingStatement T.second) := by
  intro c c' hc
  have hstart := hT.start (hT.word hc)
  refine ((hT.identifier hstart c.start_start c'.start_start).labelled hT hstart
    fun h => absurd h (by decide)).bind ?_
  rintro name _ d d' ⟨rfl, hknows⟩ hd
  have hequals : T.Agrees .mark Eq (T.near .operand) (labelled "'='" (mark '='))
      (labelled "'='" (mark '=')) :=
    .labelled hT (by decide) (hT.operandMark (by decide) (by decide))
  have hcontains : T.first.registry.contains name = T.second.registry.contains name := by
    rw [Registry.contains, hknows, Registry.contains]
  have hvalue : T.Agrees .operand T.Statement T.past
      (do return Statement.binding name (← committed (Grammar.boundValue T.first)))
      (do return Statement.binding name (← committed (Grammar.boundValue T.second))) :=
    (boundValue hT).committed.map fun _ _ h => congrArg (Statement.binding name) h
  refine (hequals d d' hd).bind fun _ _ e e' _ he => ?_
  rw [hcontains]
  have hbound := hT.alike.binding? name
  split
  · exact .refuse hT hstart hd fun _ => rfl
  · cases hb : T.first.model.binding? name <;> cases hb' : T.second.model.binding? name <;>
      simp only [hb, hb', Option.map_none, Option.map_some, reduceCtorEq] at hbound
    · exact hvalue e e' he
    · next previous previous' =>
      refine .refuse hT hstart hd fun hexact => ?_
      rw [hT.model hexact, hb'] at hb
      rw [Option.some.inj hb]

theorem statement : T.Agrees .operand T.Statement T.past (statement T.first)
    (statement T.second) := by
  have hkeyword : T.Agrees .operand (fun _ _ => True) (T.near .word) (keyword "export")
      (keyword "export") := fun _ _ hc => hT.keyword (by decide) (hT.below hc)
  exact .optional_bind hkeyword (fun _ _ _ => (outputBody hT).committed) (bindingStatement hT)

end PartScript.Tandem
