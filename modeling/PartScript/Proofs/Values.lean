/-
  What the rules for datums, vectors, scalars, selections and statements read, and so every
  rule of the grammar.
-/
import PartScript.Proofs.Reading

namespace PartScript.Grammar

open Grammar.Parser

variable {g : Grammar} {ask : Rules}

/-- A word, and the mark after it, that tell which phrase begins. -/
theorem headed_at {β : Type} {c : Cursor} {f : Cursor → String → Parser β}
    {Q : β → Cursor → Prop}
    (hf : ∀ start name rest, c.offset ≤ rest.offset → (f start name).At rest Q) :
    (do
      trivia
      let start ← position
      let name ← identifier
      let _ ← mark '('
      f start name).At c Q :=
  .bind (trivia_moves c) fun _ start hstart => .here <|
    .bind (word_moves start) fun name r₁ h₁ => .bind (mark_moves '(' r₁) fun _ r₂ h₂ =>
      hf start name r₂ (Nat.le_trans hstart (Nat.le_trans h₁ h₂))

/-- A chain of operands with operators between them. -/
theorem chain_reads {α β : Type} [Phrase α] [Phrase β] {first : Parser α} {operand : Parser β}
    {a b : Char} {combine : Char → α → β → α} (hfirst : Reads g first) (hoperand : Reads g operand)
    (hcombine : ∀ op left right c c' rest rest', Writes g c left rest →
      rest.offset ≤ c'.offset → Writes g c' right rest' → Writes g c (combine op left right) rest') :
    Reads g (chain first (operator a b) fun op left => do
      let right ← operand
      return combine op left right) := fun c =>
  .chain (operator_moves a b) (hfirst c) fun left rest hleft op last hlast =>
    .bind (hoperand last) fun right _ hright =>
      .pure (hcombine op left right c last rest _ hleft hlast hright)

section Rules

variable (hask : ∀ rule, Reads g (ask rule))
include hask

/-! ## Datums -/

theorem datumCall_reads : Reads g (datumCall ask) := by
  refine fun c => headed_at fun start name rest hrest => ?_
  have hclosing := Moves.committed (closing_moves ')')
  have hvector : Reads g (committed ask.vector) := (hask .vector).committed
  have hpair : Reads g (committed (pairOf ask.vector)) := (pairOf_reads (hask .vector)).committed
  have hclosed : ∀ {p : Parser DatumExpr}, p.At rest (Writes g c) →
      (do
        let datum ← p
        let _ ← committed (closing ')')
        return datum).At rest (Writes g c) := fun hp =>
    .bind hp fun _ last hdatum => .bind (hclosing last) fun _ _ hlast => .pure (hdatum.after hlast)
  split
  · exact hclosed (.map ((hvector rest).imp fun _ _ ha => ha.before hrest))
  · exact hclosed (.map ((hpair rest).imp fun _ _ ha => ha.before hrest))
  · exact hclosed (.map ((hpair rest).imp fun _ _ ha => ha.before hrest))
  · exact hclosed (.reject start)

theorem datumOver_reads : Reads g (datumOver g ask) := by
  refine .labelled _ (.choice (List.forall_mem_cons.mpr ⟨datumCall_reads hask,
    List.forall_mem_cons.mpr ⟨parenthesized_reads (hask .datum),
      List.forall_mem_singleton.mpr ?_⟩⟩))
  exact fun c => .bind (symbol_at .datum c) fun _ _ h => .pure (.symbol h.1 h.2)

/-! ## Vectors -/

theorem components_reads (bracket : Char) : Reads g (components ask bracket) := by
  intro c
  have hscalar : Reads g ask.scalar := hask .scalar
  refine .bind (P := fun (v : VectorExpr) last => Writes g c v last) (.committed ?_)
    fun v last hv => .bind (Moves.committed (closing_moves bracket) last) fun _ _ hlast =>
      .pure (hv.after hlast)
  exact .bind (hscalar c) fun x r₁ hx => .bind (comma_moves r₁) fun _ r₂ h₂ =>
    .bind (hscalar r₂) fun y r₃ hy => .bind (comma_moves r₃) fun _ r₄ h₄ =>
      .bind (hscalar r₄) fun z r₅ hz => .pure (Written.append hx h₂ (Written.append hy h₄ hz))

theorem vectorLiteral_reads : Reads g (vectorLiteral ask) :=
  .skip (mark_moves '[') fun _ => components_reads hask ']'

theorem vectorCall_reads : Reads g (vectorCall ask) := by
  refine fun c => headed_at fun start name rest hrest => ?_
  have hclosing := Moves.committed (closing_moves ')')
  have hvector : Reads g (committed ask.vector) := (hask .vector).committed
  split
  · exact (components_reads hask ')' rest).imp fun _ _ ha => ha.before hrest
  · refine .bind (hvector rest) fun left r₁ hleft => ?_
    refine .bind (Moves.committed comma_moves r₁) fun _ r₂ h₂ => ?_
    refine .bind (hvector r₂) fun right r₃ hright => ?_
    refine .bind (hclosing r₃) fun _ r₄ h₄ => .pure ?_
    exact Writes.widen (a := VectorExpr.cross left right) (Written.append hleft h₂ hright) hrest h₄
  · refine .bind (hvector rest) fun operand r₁ hoperand => ?_
    exact .bind (hclosing r₁) fun _ r₂ h₂ => .pure (hoperand.widen hrest h₂)
  · exact .reject start

theorem datumPart_reads : Reads g (datumPart g ask) := by
  intro c
  refine .bind (trivia_moves c) fun _ start hstart => .here ?_
  refine .bind (datumOver_reads hask start) fun datum r₁ hdatum => ?_
  refine .bind (.orReject start (mark_moves '.' r₁)) fun _ r₂ h₂ => ?_
  refine .bind (.orReject start (padded_moves word_moves r₂)) fun word r₃ h₃ => ?_
  split
  · exact .pure (hdatum.widen hstart (Nat.le_trans h₂ h₃))
  · exact .reject start

theorem featurePoint_reads : Reads g (featurePoint g ask) := by
  intro c
  have hname := Moves.committed (.labelled "reference point name" (padded_moves word_moves))
  refine .bind (trivia_moves c) fun _ start hstart => .here ?_
  refine .bind (featureOver_reads hask start) fun feature r₁ hfeature => ?_
  refine .bind (.orReject start (mark_moves '@' r₁)) fun _ r₂ h₂ => ?_
  refine .bind (hname r₂) fun name r₃ h₃ => .pure ?_
  exact hfeature.widen hstart (Nat.le_trans h₂ h₃)

theorem vectorPrimary_reads : Reads g (vectorPrimary g ask) := by
  refine .labelled _ (.choice (List.forall_mem_cons.mpr ⟨vectorLiteral_reads hask,
    List.forall_mem_cons.mpr ⟨vectorCall_reads hask,
      List.forall_mem_cons.mpr ⟨datumPart_reads hask,
        List.forall_mem_cons.mpr ⟨featurePoint_reads hask,
          List.forall_mem_cons.mpr ⟨parenthesized_reads (hask .vector),
            List.forall_mem_singleton.mpr ?_⟩⟩⟩⟩⟩))
  exact fun c => .bind (symbol_at .vector c) fun _ _ h => .pure (.symbol h.1 h.2)

/-! ## Scalars -/

theorem scalarCall_reads : Reads g (scalarCall ask) := by
  refine fun c => headed_at fun start name rest hrest => ?_
  have hclosing := Moves.committed (closing_moves ')')
  have hvector : Reads g (committed ask.vector) := (hask .vector).committed
  have hscalar : Reads g (committed ask.scalar) := (hask .scalar).committed
  have hpair : Reads g (committed (pairOf ask.vector)) := (pairOf_reads (hask .vector)).committed
  have hclosed : ∀ {p : Parser ScalarExpr}, p.At rest (Writes g c) →
      (do
        let call ← p
        let _ ← committed (closing ')')
        return call).At rest (Writes g c) := fun hp =>
    .bind hp fun _ last hcall => .bind (hclosing last) fun _ _ hlast => .pure (hcall.after hlast)
  split
  · exact hclosed (.map ((hpair rest).imp fun _ _ ha => ha.before hrest))
  · exact hclosed (.map ((hvector rest).imp fun _ _ ha => ha.before hrest))
  · split
    · exact hclosed (.map ((hscalar rest).imp fun _ _ ha => ha.before hrest))
    · exact hclosed (.reject start)

theorem component_reads : Reads g (component g ask) := by
  intro c
  refine .bind (trivia_moves c) fun _ start hstart => .here ?_
  refine .bind (vectorPrimary_reads hask start) fun operand r₁ hoperand => ?_
  refine .bind (.orReject start (mark_moves '.' r₁)) fun _ r₂ h₂ => ?_
  refine .bind (padded_moves word_moves r₂) fun word r₃ h₃ => ?_
  split
  · exact .pure (hoperand.widen hstart (Nat.le_trans h₂ h₃))
  · exact .reject start

theorem featureValue_reads : Reads g (featureValue g ask) := by
  intro c
  have hname := Moves.committed (.labelled "reference value name" (padded_moves word_moves))
  refine .bind (trivia_moves c) fun _ start hstart => .here ?_
  refine .bind (featureOver_reads hask start) fun feature r₁ hfeature => ?_
  refine .bind (.orReject start (mark_moves '$' r₁)) fun _ r₂ h₂ => ?_
  refine .bind (hname r₂) fun name r₃ h₃ => .pure ?_
  exact hfeature.widen hstart (Nat.le_trans h₂ h₃)

theorem scalarPrimary_reads : Reads g (scalarPrimary g ask) := by
  refine .labelled _ (.choice (List.forall_mem_cons.mpr ⟨?_,
    List.forall_mem_cons.mpr ⟨scalarCall_reads hask,
      List.forall_mem_cons.mpr ⟨component_reads hask,
        List.forall_mem_cons.mpr ⟨parenthesized_reads (hask .scalar),
          List.forall_mem_cons.mpr ⟨featureValue_reads hask,
            List.forall_mem_singleton.mpr ?_⟩⟩⟩⟩⟩))
  · exact fun c => .bind (number_moves c) fun _ _ h => .pure (.nothing h)
  · exact fun c => .bind (symbol_at .scalar c) fun _ _ h => .pure (.symbol h.1 h.2)

theorem scalarUnaryOver_reads : Reads g (scalarUnaryOver g ask) := by
  intro c
  have hunary : Reads g ask.scalarUnary := hask .scalarUnary
  refine .bind (Moves.optional (mark_moves '-') c) fun sign r₁ h₁ => ?_
  cases sign with
  | some _ => exact .bind (hunary r₁) fun operand _ ha => .pure (ha.before h₁)
  | none =>
    refine .bind (scalarPrimary_reads hask r₁) fun base r₂ hbase => ?_
    refine .bind (Moves.optional (mark_moves '^') r₂) fun caret r₃ h₃ => ?_
    cases caret with
    | none => exact .pure (hbase.widen h₁ h₃)
    | some _ =>
      exact .bind (hunary r₃) fun power _ hpower =>
        .pure (Written.append (hbase.before h₁) h₃ hpower)

theorem scalarTerm_reads : Reads g (scalarTerm g ask) :=
  chain_reads (scalarUnaryOver_reads hask) (scalarUnaryOver_reads hask)
    fun _ _ _ _ _ _ _ hleft hlast hright => Written.append hleft hlast hright

theorem scalarOver_reads : Reads g (scalarOver g ask) :=
  chain_reads (scalarTerm_reads hask) (scalarTerm_reads hask)
    fun _ _ _ _ _ _ _ hleft hlast hright => Written.append hleft hlast hright

/-! ## Sums and products of vectors -/

theorem vectorUnaryOver_reads : Reads g (vectorUnaryOver g ask) := by
  intro c
  have hunary : Reads g ask.vectorUnary := hask .vectorUnary
  refine .bind (Moves.optional (mark_moves '-') c) fun sign r₁ h₁ => ?_
  cases sign with
  | some _ => exact .bind (hunary r₁) fun operand _ ha => .pure (ha.before h₁)
  | none => exact (vectorPrimary_reads hask r₁).imp fun _ _ ha => ha.before h₁

/-- The factor is written before the vector and listed after it. -/
theorem scaledVector_reads : Reads g (scaledVector g ask) := fun c =>
  .bind (scalarUnaryOver_reads hask c) fun _ r₁ hfactor => .bind (mark_moves '*' r₁) fun _ r₂ h₂ =>
    .bind ((hask .vectorFactor : Reads g ask.vectorFactor) r₂) fun _ _ hoperand =>
      .pure (Written.swap (Written.append hfactor h₂ hoperand))

theorem vectorFactorOver_reads : Reads g (vectorFactorOver g ask) := by
  intro c
  refine .bind ((scaledVector_reads hask).optional c) fun scaled r₁ hscaled => ?_
  cases scaled with
  | some scaled => exact .pure hscaled
  | none => exact (vectorUnaryOver_reads hask r₁).imp fun _ _ ha => ha.before hscaled.le

theorem vectorTerm_reads : Reads g (vectorTerm g ask) := by
  refine chain_reads (vectorFactorOver_reads hask) (scalarUnaryOver_reads hask)
    fun op _ _ _ _ _ _ hleft hlast hright => ?_
  split
  · exact Written.append hleft hlast hright
  · exact Written.append hleft hlast hright

theorem vectorOver_reads : Reads g (vectorOver g ask) := by
  refine chain_reads (vectorTerm_reads hask) (vectorTerm_reads hask)
    fun op _ _ _ _ _ _ hleft hlast hright => ?_
  split
  · exact Written.append hleft hlast hright
  · exact Written.append hleft hlast hright

/-! ## Selections -/

theorem query_reads : Reads g (query ask) := by
  intro c
  refine .bind (trivia_moves c) fun _ start hstart => .here ?_
  refine .bind (word_moves start) fun name r₁ h₁ => ?_
  split
  · exact .reject start
  · have hfilter := Moves.optional (.bind (mark_moves ',') fun _ =>
      .committed (.labelled "filter string" (padded_moves stringLiteral_moves)))
    refine .bind (mark_moves '(' r₁) fun _ r₂ h₂ => ?_
    refine .bind ((hask .feature).committed r₂) fun feature r₃ hfeature => ?_
    refine .bind (hfilter r₃) fun filter r₄ h₄ => ?_
    refine .bind (Moves.committed (closing_moves ')') r₄) fun _ r₅ h₅ => .pure ?_
    have hstart₂ := Nat.le_trans hstart (Nat.le_trans h₁ h₂)
    exact hfeature.widen hstart₂ (Nat.le_trans h₄ h₅)

theorem selectionPrimary_reads : Reads g (selectionPrimary g ask) := by
  refine .labelled _ (.choice (List.forall_mem_cons.mpr ⟨query_reads hask,
    List.forall_mem_cons.mpr ⟨parenthesized_reads (hask .selection),
      List.forall_mem_singleton.mpr ?_⟩⟩))
  exact fun c => .bind (symbol_at .selection c) fun _ _ h => .pure (.symbol h.1 h.2)

theorem selectionOver_reads : Reads g (selectionOver g ask) := by
  refine chain_reads (selectionPrimary_reads hask) (selectionPrimary_reads hask)
    fun op _ _ _ _ _ _ hleft hlast hright => ?_
  split
  · exact Written.append hleft hlast hright
  · exact Written.append hleft hlast hright

/-! ## The grammar as a whole -/

theorem ruleOver_reads (rule : Rule) : Reads g (ruleOver g ask rule) := by
  cases rule with
  | scalar => exact scalarOver_reads hask
  | scalarUnary => exact scalarUnaryOver_reads hask
  | vector => exact vectorOver_reads hask
  | vectorFactor => exact vectorFactorOver_reads hask
  | vectorUnary => exact vectorUnaryOver_reads hask
  | datum => exact datumOver_reads hask
  | selection => exact selectionOver_reads hask
  | feature => exact featureOver_reads hask

end Rules

theorem within_reads (depth : Nat) (rule : Rule) : Reads g (within g depth rule) := by
  induction depth generalizing rule with
  | zero =>
    intro c a rest ha
    cases ha
  | succ depth ih => exact ruleOver_reads ih rule

/-- Every rule reads a phrase that is written where it is read. -/
theorem parse_reads (rule : Rule) : Reads g (g.parse rule) := fun c =>
  within_reads (c.rest.length + 1) rule c

end PartScript.Grammar
