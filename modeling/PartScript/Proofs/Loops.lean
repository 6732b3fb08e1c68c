/-
  The bounds of loops. Every turn of a loop of the grammar takes a character of the text at least, so
  a bound of as many turns as there are characters left is never reached, and a larger one changes
  nothing.
-/
import PartScript.Proofs.Tiling

namespace PartScript.Grammar

namespace Parser

variable {α β : Type} {operator : Parser β} {operand : β → α → Parser α} {more : α → Parser α}
  {n m : Nat} {c : Cursor}

/-- What follows a rule matters only where it goes on from what the rule has read. -/
theorem bind_congr {p : Parser α} {f f' : α → Parser β}
    (h : ∀ a rest, p c = .ok a rest → f a rest = f' a rest) : (p >>= f) c = (p >>= f') c := by
  rw [bind_apply, bind_apply]
  cases hp : p c with
  | ok a rest => exact h a rest hp
  | _ => rfl

/-! ## Accesses and operators -/

/-- Once all extensions have been read, a larger bound changes nothing. -/
theorem extend_bound (hmore : ∀ a n, Agree n 1 (more a) (more a))
    (hend : ∀ a c, c.rest = [] → (more a).Stops c) (a : α) (hn : c.rest.length ≤ n)
    (hm : c.rest.length ≤ m) : extend more n a c = extend more m a c := by
  induction n generalizing m a c with
  | zero =>
    have hstops := hend a c (List.length_eq_zero_iff.mp (Nat.le_zero.mp hn))
    cases m with
    | zero => rfl
    | succ m =>
      symm
      exact hstops.optional_bind
  | succ n ih =>
    cases m with
    | zero => exact (hend a c (List.length_eq_zero_iff.mp (Nat.le_zero.mp hm))).optional_bind
    | succ m =>
      unfold extend
      refine bind_congr fun longer rest h => ?_
      rcases ok_of_optional h with ⟨b, rfl, hb⟩ | ⟨rfl, rfl, -⟩
      · have hlt := ((hmore a _ c (Nat.lt_succ_self _)).2 b rest hb).shorter
        exact ih b (by omega) (by omega)
      · rfl

/-- Once all operators have been read, a larger bound changes nothing. -/
theorem chainLoop_bound (hoperator : ∀ n, Agree n 1 operator operator)
    (hend : ∀ c, c.rest = [] → operator.Stops c)
    (hoperand : ∀ op a n, Agree n 0 (operand op a) (operand op a)) (a : α)
    (hn : c.rest.length ≤ n) (hm : c.rest.length ≤ m) :
    chainLoop operator operand n a c = chainLoop operator operand m a c := by
  induction n generalizing m a c with
  | zero =>
    have hstops := hend c (List.length_eq_zero_iff.mp (Nat.le_zero.mp hn))
    cases m with
    | zero => rfl
    | succ m =>
      symm
      exact hstops.optional_bind
  | succ n ih =>
    cases m with
    | zero => exact (hend c (List.length_eq_zero_iff.mp (Nat.le_zero.mp hm))).optional_bind
    | succ m =>
      unfold chainLoop
      refine bind_congr fun op rest h => ?_
      rcases ok_of_optional h with ⟨op, rfl, hop⟩ | ⟨rfl, rfl, -⟩
      · refine bind_congr fun b last hb => ?_
        have hlt := ((hoperator _ c (Nat.lt_succ_self _)).2 op rest hop).shorter
        have hle := ((hoperand op a _ rest (Nat.lt_succ_self _)).2 b last hb).2
        exact ih b (by omega) (by omega)
      · rfl

end Parser

open Grammar.Parser

/-! ## Marks at the end of a text -/

variable {c : Cursor}

theorem head?_of_rest_nil (h : c.rest = []) : c.head? = none := by
  rw [Cursor.head?, Cursor.start, Cursor.skip_rest, h, List.drop_nil]
  rfl

theorem operator_end (a b : Char) (h : c.rest = []) : (operator a b).Stops c :=
  operator_stops (by rw [head?_of_rest_nil h]; nofun) (by rw [head?_of_rest_nil h]; nofun)

theorem subResult_end (base : FeatureRef) (h : c.rest = []) : (subResult base).Stops c :=
  (mark_stops (by rw [head?_of_rest_nil h]; nofun)).bind

/-! ## Arguments -/

theorem optionWord_onward (choices : List String) (n : Nat) :
    Parser.Agree n 1 (optionWord choices) (optionWord choices) := by
  refine trivia_agree.then_ fun _ => Agree.position.then_ fun start => .of_at fun c => ?_
  have hword := (identifier_agree c (Nat.lt_succ_self _)).2
  refine .bind (P := fun word d => word.isSome → c.Onward 1 d) (.optional (hword.imp
    fun _ _ hrest _ => hrest) nofun) fun word d hd => ?_
  cases word with
  | none => exact fun _ _ => nofun
  | some word =>
    by_cases hmem : choices.contains word = true
    · simp only [hmem]
      refine .bind (trivia_agree d (Nat.lt_succ_self _)).2 fun _ rest hrest => .pure ?_
      exact (hd rfl).trans hrest
    · simp only [hmem]
      exact fun _ _ => nofun

section Rules

variable {ask : Rules} (hask : ∀ rule n, Parser.Agree n 1 (ask rule) (ask rule))
include hask

/-- An argument of any kind takes a character at least. -/
theorem argument_onward (kind : ParamKind) (n : Nat) :
    Parser.Agree n 1 (argument ask kind) (argument ask kind) := by
  cases kind with
  | scalar => exact (hask .scalar n).bind fun _ => .pure _
  | vector => exact (hask .vector n).bind fun _ => .pure _
  | datum => exact (hask .datum n).bind fun _ => .pure _
  | feature => exact (hask .feature n).bind fun _ => .pure _
  | selection => exact (hask .selection n).bind fun _ => .pure _
  | keyword choices => exact (optionWord_onward choices n).bind fun _ => .pure _

/-- Where a further argument has been read, so has a character. -/
theorem nextArgument_shortens {typeName : String} {param : Param} {mandatory first : Bool}
    {a : Argument} {rest : Cursor}
    (h : nextArgument ask typeName param mandatory first c = .ok (some a) rest) :
    rest.rest.length < c.rest.length := by
  have hargument : ∀ d : Cursor, (argument ask param.kind).At d fun _ rest => d.Onward 1 rest :=
    fun d => (argument_onward hask param.kind _ d (Nat.lt_succ_self _)).2
  exact (following_at (fun d _ => hargument d) typeName param mandatory first _ rest h).shorter

/-- Once all arguments have been read, a larger bound changes nothing. -/
theorem variadicArguments_bound (typeName : String) (param : Param) (least : Nat) {n m : Nat}
    (count : Nat) (read : List Argument) (hn : c.rest.length < n) (hm : c.rest.length < m) :
    variadicArguments ask typeName param least n count read c =
      variadicArguments ask typeName param least m count read c := by
  induction n generalizing m count read c with
  | zero => exact absurd hn (Nat.not_lt_zero _)
  | succ n ih =>
    obtain ⟨m, rfl⟩ := Nat.exists_eq_add_of_le' (Nat.lt_of_le_of_lt (Nat.zero_le _) hm)
    unfold variadicArguments
    refine bind_congr fun next rest h => ?_
    cases next with
    | none => rfl
    | some a =>
      have hlt := nextArgument_shortens hask h
      exact ih _ _ (by omega) (by omega)

variable (g : Grammar) (n : Nat)

theorem scalarUnaryOver_onward :
    Parser.Agree n 1 (scalarUnaryOver g ask) (scalarUnaryOver g ask) :=
  (scalarUnaryOver_agree fun rule => (hask rule n).weaken).mono (Nat.le_succ n) (Nat.le_refl 1)

theorem scalarTerm_onward : Parser.Agree n 1 (scalarTerm g ask) (scalarTerm g ask) :=
  (scalarTerm_agree fun rule => (hask rule n).weaken).mono (Nat.le_succ n) (Nat.le_refl 1)

theorem vectorTerm_onward : Parser.Agree n 1 (vectorTerm g ask) (vectorTerm g ask) :=
  (vectorTerm_agree fun rule => (hask rule n).weaken).mono (Nat.le_succ n) (Nat.le_refl 1)

theorem selectionPrimary_onward :
    Parser.Agree n 1 (selectionPrimary g ask) (selectionPrimary g ask) :=
  (selectionPrimary_agree fun rule => (hask rule n).weaken).mono (Nat.le_succ n) (Nat.le_refl 1)

end Rules

/-- Every rule, tied together to any depth, takes a character at least. -/
theorem within_onward (g : Grammar) (depth : Nat) (rule : Rule) (n : Nat) :
    Parser.Agree n 1 (within g depth rule) (within g depth rule) := by
  induction depth generalizing rule n with
  | zero => exact .of_never nofun
  | succ depth ih =>
    have hrules := ruleOver_agree (g := g) (n := n) (fun rule => (ih rule n).weaken) rule
    exact hrules.mono (Nat.le_succ n) (Nat.le_refl 1)

/-! ## Imports and statements -/

variable {file source : String} {n m : Nat}

/-- Once all import declarations have been read, a larger bound changes nothing. -/
theorem importsFrom_bound (hn : c.rest.length < n) (hm : c.rest.length < m) :
    importsFrom file source n c = importsFrom file source m c := by
  induction n generalizing m c with
  | zero => exact absurd hn (Nat.not_lt_zero _)
  | succ n ih =>
    obtain ⟨m, rfl⟩ := Nat.exists_eq_add_of_le' (Nat.lt_of_le_of_lt (Nat.zero_le _) hm)
    unfold importsFrom
    cases h : importDeclaration c with
    | error stops => rfl
    | failure stops notice => rfl
    | ok declaration rest =>
      have hshort := (importDeclaration_at c declaration rest h).2.1.shorter
      have hstart := Cursor.skip_length (triviaLength false c.rest) c
      have hlt : rest.rest.length < c.rest.length := Nat.lt_of_lt_of_le hshort hstart
      dsimp only
      rw [ih (m := m) (by omega) (by omega)]

/-- Once all statements have been read, a larger bound changes nothing. -/
theorem statementsFrom_bound (registry : Registry) (M : Model) (hn : c.rest.length < n)
    (hm : c.rest.length < m) :
    statementsFrom registry file source n c M = statementsFrom registry file source m c M := by
  induction n generalizing m c M with
  | zero => exact absurd hn (Nat.not_lt_zero _)
  | succ n ih =>
    obtain ⟨m, rfl⟩ := Nat.exists_eq_add_of_le' (Nat.lt_of_le_of_lt (Nat.zero_le _) hm)
    unfold statementsFrom
    dsimp only
    split
    · rfl
    · split
      · rfl
      · split
        · next parsed rest h =>
          have hshort := (statement_finishes _ parsed rest h).1.shorter
          have hstart := Cursor.skip_length (triviaLength false c.rest) c
          have hlt : rest.rest.length < c.rest.length := Nat.lt_of_lt_of_le hshort hstart
          cases addStatement M parsed _ file source with
          | error e => rfl
          | ok extended => exact ih extended (by omega) (by omega)
        · rfl
        · rfl

end PartScript.Grammar
