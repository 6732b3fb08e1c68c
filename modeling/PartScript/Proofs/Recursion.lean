/-
  Rules that call each other.

  `Production` names the rules of the grammar, with a rule of its own for each loop after its first
  turns, and `step` writes each over a family `call` of rules to call, nowhere with a bound on the
  depth or on the turns. `Enters` relates a rule at a place to those that it calls there or later.
  Along a call characters of the text are taken or the `rank` falls, so no chain of calls goes on for
  ever or comes back to a rule at the same place, and the rules of the grammar are the one family
  that is its own step.
-/
import Mathlib.Data.Prod.Lex
import Mathlib.Logic.Relation
import PartScript.Proofs.Loops

namespace PartScript.Grammar

open Grammar.Parser

/-! ## The rules and what they call -/

/-- The rules of the grammar. A rule that only one other rule tries is part of that one. -/
inductive Production where
  | scalar
  /-- The sums that begin with `left`. -/
  | scalarSum (left : ScalarExpr)
  | scalarTerm
  /-- The products that begin with `left`. -/
  | scalarProduct (left : ScalarExpr)
  | scalarUnary
  | scalarPrimary
  | component
  | featureValue
  | vector
  | vectorSum (left : VectorExpr)
  | vectorTerm
  | vectorProduct (left : VectorExpr)
  | vectorFactor
  | vectorUnary
  | vectorPrimary
  | datumPart
  | featurePoint
  | datum
  | selection
  /-- The unions and differences that begin with `left`. -/
  | selectionUnion (left : SelectionExpr)
  | selectionPrimary
  | feature
  /-- The accesses to sub-results of `base`. -/
  | subResults (base : FeatureRef)
  | featurePrimary
  | constructor
  | argument (kind : ParamKind)
  /-- The arguments for `signature` after those in `read`, of which `count` are for its first
  parameter. -/
  | arguments (typeName : String) (signature : Signature) (count : Nat) (read : List Argument)
  | boundValue
  | binding
  | output
  | statement

namespace Production

/-- What a rule reads. -/
abbrev Value : Production → Type
  | scalar | scalarSum _ | scalarTerm | scalarProduct _ | scalarUnary | scalarPrimary
  | component | featureValue => ScalarExpr
  | vector | vectorSum _ | vectorTerm | vectorProduct _ | vectorFactor | vectorUnary
  | vectorPrimary | datumPart | featurePoint => VectorExpr
  | datum => DatumExpr
  | selection | selectionUnion _ | selectionPrimary => SelectionExpr
  | feature | subResults _ | featurePrimary => FeatureRef
  | constructor => Feature
  | argument _ => Argument
  | arguments .. => List Argument
  | boundValue => BoundValue
  | binding | output | statement => Statement

/-- The number of characters that a rule reads at least. -/
def least : Production → Nat
  | scalarSum _ | scalarProduct _ | vectorSum _ | vectorProduct _ | selectionUnion _ | subResults _
  | arguments .. => 0
  | _ => 1

/-- The order in which rules call each other before they have read anything: a rule calls rules of
lower rank only. -/
def rank : Production → Nat
  | scalarSum _ | scalarProduct _ | vectorSum _ | vectorProduct _ | selectionUnion _ | subResults _
  | datum | constructor | selectionPrimary | binding => 0
  | selection | datumPart | featurePrimary => 1
  | feature => 2
  | featurePoint | featureValue | output => 3
  | vectorPrimary => 4
  | component | vectorUnary => 5
  | scalarPrimary => 6
  | scalarUnary => 7
  | scalarTerm | vectorFactor => 8
  | scalar | vectorTerm => 9
  | vector => 10
  | argument _ | boundValue => 11
  | arguments .. | statement => 12

end Production

/-- A parser for every rule. -/
abbrev Productions := (p : Production) → Parser p.Value

/-- The rules that phrases are written over. -/
def Productions.rules (call : Productions) : Rules
  | .scalar => call .scalar
  | .scalarUnary => call .scalarUnary
  | .vector => call .vector
  | .vectorFactor => call .vectorFactor
  | .vectorUnary => call .vectorUnary
  | .datum => call .datum
  | .selection => call .selection
  | .feature => call .feature

/-! ### Operators and operands -/

/-- An operator and the operand after it, if they are there, and what `again` reads then. -/
def turn {α β : Type} (operator : Parser β) (operand : β → α → Parser α) (again : α → Parser α)
    (left : α) : Parser α := do
  match ← optional operator with
  | some op => again (← operand op left)
  | none => return left

section Operands

variable (scalar : Parser ScalarExpr) (vector : Parser VectorExpr)
  (selection : Parser SelectionExpr)

def addScalar (op : Char) (left : ScalarExpr) : Parser ScalarExpr := do
  let right ← scalar
  return .binary (if op = '+' then .add else .sub) left right

def multiplyScalar (op : Char) (left : ScalarExpr) : Parser ScalarExpr := do
  let right ← scalar
  return .binary (if op = '*' then .mul else .div) left right

def addVector (op : Char) (left : VectorExpr) : Parser VectorExpr := do
  let right ← vector
  return if op = '+' then .add left right else .sub left right

def scaleVector (op : Char) (left : VectorExpr) : Parser VectorExpr := do
  let right ← scalar
  return if op = '*' then .scale left right else .divide left right

def uniteSelection (op : Char) (left : SelectionExpr) : Parser SelectionExpr := do
  let right ← selection
  return if op = '|' then .union left right else .difference left right

end Operands

/-! ### Productions over what they begin with -/

def signedVector (primary unary : Parser VectorExpr) : Parser VectorExpr := do
  match ← optional (mark '-') with
  | some _ => return .neg (← unary)
  | none => primary

def scaledBy (factor : Parser ScalarExpr) (vector : Parser VectorExpr) : Parser VectorExpr := do
  let factor ← factor
  let _ ← mark '*'
  let operand ← vector
  return .scale operand factor

def vectorFactorOf (scaled unary : Parser VectorExpr) : Parser VectorExpr := do
  match ← optional scaled with
  | some scaled => return scaled
  | none => unary

def featurePrimaryOf (g : Grammar) (call : Parser Feature) (feature : Parser FeatureRef) :
    Parser FeatureRef :=
  choice [
    return .inline (← call),
    do
      let _ ← mark '('
      let feature ← feature
      let _ ← mark ')'
      return feature,
    featureName g]

/-- An access to a sub-result of `base`, if there is one, and what `again` reads then. -/
def access (again : FeatureRef → Parser FeatureRef) (base : FeatureRef) : Parser FeatureRef := do
  match ← optional (subResult base) with
  | some longer => again longer
  | none => return base

def boundValueOver (ask : Rules) : Parser BoundValue :=
  furthestChoice none [
    return .feature (← ended ask.feature),
    return .selection (← ended ask.selection),
    return .datum (← ended ask.datum),
    return .vector (← ended ask.vector),
    return .scalar (← ended ask.scalar)]

def bindingOf (g : Grammar) (value : Parser BoundValue) : Parser Statement := do
  trivia
  let start ← position
  let name ← labelled "statement" identifier
  let afterName ← position
  let _ ← labelled "'='" (mark '=')
  if isReserved name || g.registry.contains name then
    refuse start afterName .reservedName s!"'{name}' is reserved and cannot be bound"
  else
    match g.model.binding? name with
    | some previous =>
      refuse start afterName .duplicateSymbol
        s!"Duplicate symbol '{name}' (first bound at {previous.file}:{previous.span.line})"
    | none => return .binding name (← committed value)

def outputOf (feature : Parser FeatureRef) : Parser Statement := do
  let feature ← feature
  let path ← optional do
    let _ ← keyword "as"
    committed (labelled "output path" (padded stringLiteral))
  let _ ← semicolon
  return .output feature path

def statementOf (output binding : Parser Statement) : Parser Statement := do
  match ← optional (keyword "export") with
  | some _ => committed output
  | none => binding

/-! ### One step -/

/-- What is read between the parentheses of a call. -/
def argumentsOf (g : Grammar) (call : Productions) (type : FeatureType) : Parser (List Argument) :=
  match type.written with
  | .declared => call (.arguments type.name type.signature 0 [])
  | .placement => placementArguments g call.rules

/-- Reads the next argument, which is for `param`, and after it those for `signature`. -/
def argumentThen (call : Productions) (typeName : String) (param : Param) (mandatory : Bool)
    (signature : Signature) (count : Nat) (read : List Argument) : Parser (List Argument) := do
  match ← following (call (.argument param.kind)) typeName param mandatory read.isEmpty with
  | some a => call (.arguments typeName signature count (read ++ [a]))
  | none => return read

/-- Reads the arguments for `signature` after those in `read`, of which `count` are for its first
parameter. -/
def argumentsStep (call : Productions) (typeName : String) (signature : Signature) (count : Nat)
    (read : List Argument) : Parser (List Argument) :=
  match signature with
  | [] => pure read
  | param :: params =>
    match param.arity with
    | .variadic least =>
      argumentThen call typeName param (count < least) (param :: params) (count + 1) read
    | .required => argumentThen call typeName param true params 0 read
    | .optional _ => argumentThen call typeName param false params 0 read

/-- Every rule, over the rules that it calls. -/
def step (g : Grammar) (call : Productions) : Productions
  | .scalar => call .scalarTerm >>= fun left => call (.scalarSum left)
  | .scalarSum left =>
    turn (operator '+' '-') (addScalar (call .scalarTerm)) (fun a => call (.scalarSum a)) left
  | .scalarTerm => call .scalarUnary >>= fun left => call (.scalarProduct left)
  | .scalarProduct left =>
    turn (operator '*' '/') (multiplyScalar (call .scalarUnary))
      (fun a => call (.scalarProduct a)) left
  | .scalarUnary => powerOf (call .scalarPrimary) (call .scalarUnary)
  | .scalarPrimary =>
    labelled "scalar expression" <| choice [
      ScalarExpr.literal <$> number,
      scalarCall call.rules,
      call .component,
      parenthesized (call .scalar),
      call .featureValue,
      ScalarExpr.symbol <$> symbol g .scalar]
  | .component => componentOf (call .vectorPrimary)
  | .featureValue => featureValueOf (call .feature)
  | .vector => call .vectorTerm >>= fun left => call (.vectorSum left)
  | .vectorSum left =>
    turn (operator '+' '-') (addVector (call .vectorTerm)) (fun a => call (.vectorSum a)) left
  | .vectorTerm => call .vectorFactor >>= fun left => call (.vectorProduct left)
  | .vectorProduct left =>
    turn (operator '*' '/') (scaleVector (call .scalarUnary))
      (fun a => call (.vectorProduct a)) left
  | .vectorFactor =>
    vectorFactorOf (scaledBy (call .scalarUnary) (call .vectorFactor)) (call .vectorUnary)
  | .vectorUnary => signedVector (call .vectorPrimary) (call .vectorUnary)
  | .vectorPrimary =>
    labelled "vector expression" <| choice [
      vectorLiteral call.rules,
      vectorCall call.rules,
      call .datumPart,
      call .featurePoint,
      parenthesized (call .vector),
      VectorExpr.symbol <$> symbol g .vector]
  | .datumPart => datumPartOf (call .datum)
  | .featurePoint => featurePointOf (call .feature)
  | .datum => datumOver g call.rules
  | .selection => call .selectionPrimary >>= fun left => call (.selectionUnion left)
  | .selectionUnion left =>
    turn (operator '|' '-') (uniteSelection (call .selectionPrimary))
      (fun a => call (.selectionUnion a)) left
  | .selectionPrimary => selectionPrimary g call.rules
  | .feature => labelled "feature" (call .featurePrimary) >>= fun base => call (.subResults base)
  | .subResults base => access (fun a => call (.subResults a)) base
  | .featurePrimary => featurePrimaryOf g (call .constructor) (call .feature)
  | .constructor => constructorOf g (argumentsOf g call)
  | .argument kind => argument call.rules kind
  | .arguments typeName signature count read => argumentsStep call typeName signature count read
  | .boundValue => boundValueOver call.rules
  | .binding => bindingOf g (call .boundValue)
  | .output => outputOf (call .feature)
  | .statement => statementOf (call .output) (call .binding)

/-! ### The rules of the grammar -/

/-- The arguments for `signature` after those in `read`, of which `count` are for its first
parameter. -/
def argumentsAfter (ask : Rules) (typeName : String) (signature : Signature) (count : Nat)
    (read : List Argument) : Parser (List Argument) :=
  match signature with
  | [] => pure read
  | param :: params =>
    match param.arity with
    | .variadic least => fun c =>
      variadicArguments ask typeName param least (c.rest.length + 1) count read c
    | _ => argumentsFrom ask typeName (param :: params) read

/-- Every rule of the grammar. -/
def productions (g : Grammar) : Productions
  | .scalar => g.parse .scalar
  | .scalarSum left => fun c =>
    chainLoop (operator '+' '-') (addScalar (scalarTerm g g.parse)) c.rest.length left c
  | .scalarTerm => scalarTerm g g.parse
  | .scalarProduct left => fun c =>
    chainLoop (operator '*' '/') (multiplyScalar (scalarUnaryOver g g.parse)) c.rest.length left c
  | .scalarUnary => g.parse .scalarUnary
  | .scalarPrimary => scalarPrimary g g.parse
  | .component => component g g.parse
  | .featureValue => featureValue g g.parse
  | .vector => g.parse .vector
  | .vectorSum left => fun c =>
    chainLoop (operator '+' '-') (addVector (vectorTerm g g.parse)) c.rest.length left c
  | .vectorTerm => vectorTerm g g.parse
  | .vectorProduct left => fun c =>
    chainLoop (operator '*' '/') (scaleVector (scalarUnaryOver g g.parse)) c.rest.length left c
  | .vectorFactor => g.parse .vectorFactor
  | .vectorUnary => g.parse .vectorUnary
  | .vectorPrimary => vectorPrimary g g.parse
  | .datumPart => datumPart g g.parse
  | .featurePoint => featurePoint g g.parse
  | .datum => g.parse .datum
  | .selection => g.parse .selection
  | .selectionUnion left => fun c =>
    chainLoop (operator '|' '-') (uniteSelection (selectionPrimary g g.parse)) c.rest.length left c
  | .selectionPrimary => selectionPrimary g g.parse
  | .feature => g.parse .feature
  | .subResults base => fun c => extend subResult c.rest.length base c
  | .featurePrimary => featurePrimary g g.parse
  | .constructor => constructor g g.parse
  | .argument kind => argument g.parse kind
  | .arguments typeName signature count read =>
    argumentsAfter g.parse typeName signature count read
  | .boundValue => boundValue g
  | .binding => bindingStatement g
  | .output => outputBody g
  | .statement => statement g

theorem productions_rules (g : Grammar) : g.productions.rules = g.parse := by
  funext rule
  cases rule <;> rfl

/-! ## The rules are one step of themselves -/

section Loops

variable {α β : Type} {operator : Parser β} {operand : β → α → Parser α}

theorem chainLoop_succ (n : Nat) (a : α) : chainLoop operator operand (n + 1) a =
    turn operator operand (chainLoop operator operand n) a := rfl

/-- A loop over operators is a turn and the loop after it. -/
theorem chainLoop_turn (hoperator : ∀ n, Parser.Agree n 1 operator operator)
    (hend : ∀ c, c.rest = [] → operator.Stops c)
    (hoperand : ∀ op a n, Parser.Agree n 0 (operand op a) (operand op a)) (a : α) :
    turn operator operand (fun b c => chainLoop operator operand c.rest.length b c) a =
      fun c => chainLoop operator operand c.rest.length a c := by
  funext c
  rw [chainLoop_bound hoperator hend hoperand a (Nat.le_refl _) (Nat.le_succ c.rest.length),
    chainLoop_succ]
  refine bind_congr fun op rest h => ?_
  rcases ok_of_optional h with ⟨op, rfl, hop⟩ | ⟨rfl, rfl, -⟩
  · refine bind_congr fun b last hb => ?_
    have hlt := ((hoperator _ c (Nat.lt_succ_self _)).2 op rest hop).shorter
    have hle := ((hoperand op a _ rest (Nat.lt_succ_self _)).2 b last hb).2
    exact chainLoop_bound hoperator hend hoperand b (Nat.le_refl _) (by omega)
  · rfl

end Loops

theorem extend_succ (n : Nat) (base : FeatureRef) :
    extend subResult (n + 1) base = access (extend subResult n) base := by
  funext c
  exact bind_congr fun longer _ _ => by cases longer <;> rfl

/-- The accesses to sub-results are one and those after it. -/
theorem extend_access (base : FeatureRef) :
    access (fun a c => extend subResult c.rest.length a c) base =
      fun c => extend subResult c.rest.length base c := by
  have hbound : ∀ (a : FeatureRef) (d : Cursor) (n : Nat), d.rest.length ≤ n →
      extend subResult d.rest.length a d = extend subResult n a d := fun a d n hn =>
    extend_bound subResult_agree (fun b _ => subResult_end b) a (Nat.le_refl _) hn
  funext c
  rw [hbound base c _ (Nat.le_succ c.rest.length), extend_succ]
  refine bind_congr fun longer rest h => ?_
  rcases ok_of_optional h with ⟨a, rfl, ha⟩ | ⟨rfl, rfl, -⟩
  · have hlt := ((subResult_agree base _ c (Nat.lt_succ_self _)).2 a rest ha).shorter
    exact hbound a rest c.rest.length (Nat.le_of_lt hlt)
  · rfl

theorem argumentsAfter_zero (ask : Rules) (typeName : String) (signature : Signature)
    (read : List Argument) :
    argumentsAfter ask typeName signature 0 read = argumentsFrom ask typeName signature read := by
  cases signature with
  | nil => rfl
  | cons param params =>
    rw [argumentsAfter, argumentsFrom]
    cases param.arity <;> rfl

/-- The arguments of a call are the next one and those after it. -/
theorem argumentsStep_productions (g : Grammar) (typeName : String) (signature : Signature)
    (count : Nat) (read : List Argument) :
    argumentsStep g.productions typeName signature count read =
      argumentsAfter g.parse typeName signature count read := by
  have hthen : ∀ (param : Param) (mandatory : Bool) (params : Signature),
      argumentThen g.productions typeName param mandatory params 0 read = (do
        match ← nextArgument g.parse typeName param mandatory read.isEmpty with
        | some a => argumentsFrom g.parse typeName params (read ++ [a])
        | none => return read) := fun param mandatory params => by
    simp only [← argumentsAfter_zero]
    rfl
  cases signature with
  | nil => rfl
  | cons param params =>
    rw [argumentsStep, argumentsAfter]
    cases harity : param.arity with
    | required =>
      rw [argumentsFrom, harity]
      exact hthen param true params
    | optional fallback =>
      rw [argumentsFrom, harity]
      exact hthen param false params
    | variadic least =>
      funext c
      refine bind_congr fun next rest h => ?_
      cases next with
      | none => rfl
      | some a =>
        have hask := fun rule n => Parser.Agree.of_at (n := n) (parse_onward g rule)
        have hlt := nextArgument_shortens hask h
        show argumentsAfter g.parse typeName (param :: params) (count + 1) (read ++ [a]) rest = _
        rw [argumentsAfter, harity]
        exact variadicArguments_bound hask typeName param least _ _ (Nat.lt_succ_self _) hlt

/-- The rules of the grammar are one step of themselves. -/
theorem step_productions (g : Grammar) : g.step g.productions = g.productions := by
  have hasks : ∀ rule n, Parser.Agree n 1 (g.parse rule) (g.parse rule) := fun rule n =>
    .of_at (parse_onward g rule)
  have hloop : ∀ {α : Type} {a b : Char} {operand : Char → α → Parser α} (left : α),
      (∀ op left n, Parser.Agree n 0 (operand op left) (operand op left)) →
      turn (operator a b) operand
        (fun left c => chainLoop (operator a b) operand c.rest.length left c) left =
      fun c => chainLoop (operator a b) operand c.rest.length left c := fun left hoperand =>
    chainLoop_turn (fun n => operator_agree _ _) (fun c => operator_end _ _) hoperand left
  have hlater : ∀ {α β : Type} {p : Parser α} {f : α → β}, (∀ n, Parser.Agree n 1 p p) →
      ∀ n, Parser.Agree n 0 (do let a ← p; return f a) (do let a ← p; return f a) :=
    fun h n => (h n).weaken.then_ fun _ => .pure _
  have hunary := parse_eq g .scalarUnary
  funext p
  cases p with
  | scalar => exact (parse_eq g .scalar).symm
  | scalarSum left => exact hloop left fun op left => hlater (scalarTerm_onward hasks g)
  | scalarTerm => simp only [step, productions, hunary]; rfl
  | scalarProduct left => 
    simp only [step, productions, hunary]
    exact hloop left fun op left => hlater (scalarUnaryOver_onward hasks g)
  | scalarUnary => exact hunary.symm
  | scalarPrimary => simp only [step, productions, productions_rules]; rfl
  | component => rfl
  | featureValue => simp only [step, productions, parse_eq g .feature]; rfl
  | vector => exact (parse_eq g .vector).symm
  | vectorSum left => exact hloop left fun op left => hlater (vectorTerm_onward hasks g)
  | vectorTerm => simp only [step, productions, parse_eq g .vectorFactor]; rfl
  | vectorProduct left => 
    simp only [step, productions, hunary]
    exact hloop left fun op left => hlater (scalarUnaryOver_onward hasks g)
  | vectorFactor =>
    refine Eq.trans ?_ (parse_eq g .vectorFactor).symm
    simp only [step, productions, hunary, parse_eq g .vectorUnary]
    rfl
  | vectorUnary => exact (parse_eq g .vectorUnary).symm
  | vectorPrimary => simp only [step, productions, productions_rules]; rfl
  | datumPart => simp only [step, productions, parse_eq g .datum]; rfl
  | featurePoint => simp only [step, productions, parse_eq g .feature]; rfl
  | datum => 
    simp only [step, productions_rules]
    exact (parse_eq g .datum).symm
  | selection => exact (parse_eq g .selection).symm
  | selectionUnion left => exact hloop left fun op left => hlater (selectionPrimary_onward hasks g)
  | selectionPrimary => simp only [step, productions_rules]; rfl
  | feature => exact (parse_eq g .feature).symm
  | subResults base => exact extend_access base
  | featurePrimary => rfl
  | constructor =>
    have harguments : argumentsOf g g.productions = callArguments g g.parse := by
      funext type
      simp only [argumentsOf, callArguments, productions, productions_rules, argumentsAfter_zero]
      rfl
    simp only [step, harguments]
    rfl
  | argument kind => simp only [step, productions_rules]; rfl
  | arguments typeName signature count read =>
    exact argumentsStep_productions g typeName signature count read
  | boundValue => simp only [step, productions_rules]; rfl
  | binding => rfl
  | output => rfl
  | statement => rfl

/-! ## What a step depends on -/

section Openings

variable {n : Nat} {α β : Type}

theorem turn_agree {operator : Parser β} {operand operand' : β → α → Parser α}
    {again again' : α → Parser α} (hoperator : Parser.Agree (n + 1) 1 operator operator)
    (hoperand : ∀ op left, Parser.Agree n 0 (operand op left) (operand' op left))
    (hagain : ∀ a, Parser.Agree n 0 (again a) (again' a)) (left : α) :
    Parser.Agree (n + 1) 0 (turn operator operand again left)
      (turn operator operand' again' left) :=
  .optional_bind hoperator (fun op => (hoperand op left).then_ hagain) (.pure left) (Nat.zero_le 1)

theorem access_agree {again again' : FeatureRef → Parser FeatureRef}
    (hagain : ∀ a, Parser.Agree n 0 (again a) (again' a)) (base : FeatureRef) :
    Parser.Agree (n + 1) 0 (access again base) (access again' base) :=
  .optional_bind (subResult_agree base (n + 1)) hagain (.pure base) (Nat.zero_le 1)

theorem vectorFactorOf_agree {factor factor' : Parser ScalarExpr}
    {vector vector' unary unary' : Parser VectorExpr}
    (hfactor : Parser.Agree (n + 1) 1 factor factor') (hvector : Parser.Agree n 0 vector vector')
    (hunary : Parser.Agree (n + 1) 1 unary unary') :
    Parser.Agree (n + 1) 1 (vectorFactorOf (scaledBy factor vector) unary)
      (vectorFactorOf (scaledBy factor' vector') unary') := by
  have hscaled : Parser.Agree (n + 1) 1 (scaledBy factor vector) (scaledBy factor' vector') :=
    hfactor.after fun _ => (mark_agree '*').weaken.then_ fun _ => hvector.then_ fun _ => .pure _
  exact .optional_bind hscaled (fun _ => .pure _) hunary (Nat.le_refl 1)

theorem featurePrimaryOf_agree (g : Grammar) {call call' : Parser Feature}
    {feature feature' : Parser FeatureRef} (hcall : Parser.Agree (n + 1) 1 call call')
    (hfeature : Parser.Agree n 0 feature feature') :
    Parser.Agree (n + 1) 1 (featurePrimaryOf g call feature)
      (featurePrimaryOf g call' feature') := by
  refine .choice (.cons ?_ (.cons ?_ (.cons (featureName_agree g) .nil)))
  · exact hcall.after fun _ => .pure _
  · exact (mark_agree '(').after fun _ => hfeature.then_ fun _ =>
      (mark_agree ')').weaken.then_ fun _ => .pure _

theorem ended_agree {p p' : Parser α} (h : Parser.Agree (n + 1) 1 p p') (f : α → β) :
    Parser.Agree (n + 1) 1 (do return f (← ended p)) (do return f (← ended p')) :=
  (h.after fun _ => (Agree.labelled _ (mark_agree ';')).weaken.then_ fun _ => .pure _).bind
    fun _ => .pure _

theorem bindingOf_agree (g : Grammar) {value value' : Parser BoundValue}
    (h : Parser.Agree n 0 value value') :
    Parser.Agree (n + 1) 1 (bindingOf g value) (bindingOf g value') := by
  refine trivia_agree.then_ fun _ => Agree.position.then_ fun start => ?_
  refine (identifier_agree.labelled _).after fun name => Agree.position.then_ fun afterName => ?_
  refine ((mark_agree '=').labelled _).weaken.then_ fun _ => ?_
  split
  · exact .refuse _ _ _ _
  · split
    · exact .refuse _ _ _ _
    · exact h.committed.then_ fun _ => .pure _

theorem outputOf_agree {feature feature' : Parser FeatureRef}
    (h : Parser.Agree (n + 1) 1 feature feature') :
    Parser.Agree (n + 1) 1 (outputOf feature) (outputOf feature') := by
  refine h.after fun feature => Agree.then_ (Agree.optional (k := 0) ?_) fun path =>
    (Agree.labelled _ (mark_agree ';')).weaken.then_ fun _ => .pure _
  exact (keyword_agree "as").then_ fun _ =>
    ((padded_agree stringLiteral_agree).labelled _).committed.weaken

theorem statementOf_agree {output output' binding binding' : Parser Statement}
    (houtput : Parser.Agree (n + 1) 1 output output')
    (hbinding : Parser.Agree (n + 1) 1 binding binding') :
    Parser.Agree (n + 1) 1 (statementOf output binding) (statementOf output' binding') := by
  refine (keyword_agree "export").optional.then_ fun word => ?_
  cases word with
  | some _ => exact houtput.committed
  | none => exact hbinding

end Openings

section Step

variable {n : Nat} {call call' : Productions} (hlater : ∀ q, Parser.Agree n 0 (call q) (call' q))
include hlater

theorem rules_agree (rule : Rule) : Parser.Agree n 0 (call.rules rule) (call'.rules rule) := by
  cases rule <;> exact hlater _

theorem argumentThen_agree {param : Param}
    (h : Parser.Agree (n + 1) 1 (call (.argument param.kind)) (call' (.argument param.kind)))
    (typeName : String) (mandatory : Bool) (signature : Signature) (count : Nat)
    (read : List Argument) :
    Parser.Agree (n + 1) 0 (argumentThen call typeName param mandatory signature count read)
      (argumentThen call' typeName param mandatory signature count read) := by
  refine .some_bind (following_agree h.weaken typeName param mandatory _) (fun c hc => ?_)
    (fun a => hlater _) (.pure read)
  exact following_at (fun d hd => (h d (Nat.lt_of_le_of_lt hd hc)).2) typeName param mandatory _

theorem argumentsStep_agree
    (h : ∀ kind, Parser.Agree (n + 1) 1 (call (.argument kind)) (call' (.argument kind)))
    (typeName : String) (signature : Signature) (count : Nat) (read : List Argument) :
    Parser.Agree (n + 1) 0 (argumentsStep call typeName signature count read)
      (argumentsStep call' typeName signature count read) := by
  cases signature with
  | nil => exact .pure read
  | cons param params =>
    rw [argumentsStep, argumentsStep]
    cases param.arity <;> exact argumentThen_agree hlater (h param.kind) _ _ _ _ _

theorem argumentsOf_agree (g : Grammar) (type : FeatureType) :
    Parser.Agree n 0 (argumentsOf g call type) (argumentsOf g call' type) := by
  unfold argumentsOf
  cases type.written with
  | declared => exact hlater _
  | placement => exact placementArguments_agree (rules_agree hlater)

/-- What a rule reads at a place depends on what the rules that it calls read at later places, and
on what rules of lower rank read at that place. -/
theorem step_agree (g : Grammar) (p : Production)
    (hlower : ∀ q, q.rank < p.rank → Parser.Agree (n + 1) q.least (call q) (call' q)) :
    Parser.Agree (n + 1) p.least (g.step call p) (g.step call' p) := by
  have hask := rules_agree hlater
  cases p with
  | scalar => exact (hlower .scalarTerm (by decide)).after fun left => hlater _
  | scalarSum left =>
    refine turn_agree (operator_agree _ _) (fun op left => ?_) (fun a => hlater (.scalarSum a)) left
    exact (hlater .scalarTerm).then_ fun _ => .pure _
  | scalarTerm => exact (hlower .scalarUnary (by decide)).after fun left => hlater _
  | scalarProduct left =>
    refine turn_agree (operator_agree _ _) (fun op left => ?_) (fun a => hlater (.scalarProduct a)) left
    exact (hlater .scalarUnary).then_ fun _ => .pure _
  | scalarUnary =>
    exact powerOf_agree (hlower .scalarPrimary (by decide)) (hlater .scalarUnary)
  | scalarPrimary =>
    exact .labelled _ <| .choice <| .cons (number_agree.map _) <|
      .cons (scalarCall_agree hask) <| .cons (hlower .component (by decide)) <|
      .cons (parenthesized_agree (hlater .scalar)) <|
      .cons (hlower .featureValue (by decide)) <|
      .cons ((symbol_agree g .scalar).map _) .nil
  | component => exact componentOf_agree (hlower .vectorPrimary (by decide))
  | featureValue => exact featureValueOf_agree (hlower .feature (by decide))
  | vector => exact (hlower .vectorTerm (by decide)).after fun left => hlater _
  | vectorSum left =>
    refine turn_agree (operator_agree _ _) (fun op left => ?_) (fun a => hlater (.vectorSum a)) left
    exact (hlater .vectorTerm).then_ fun _ => .pure _
  | vectorTerm => exact (hlower .vectorFactor (by decide)).after fun left => hlater _
  | vectorProduct left =>
    refine turn_agree (operator_agree _ _) (fun op left => ?_) (fun a => hlater (.vectorProduct a)) left
    exact (hlater .scalarUnary).then_ fun _ => .pure _
  | vectorFactor =>
    exact vectorFactorOf_agree (hlower .scalarUnary (by decide)) (hlater .vectorFactor)
      (hlower .vectorUnary (by decide))
  | vectorUnary =>
    exact .optional_bind (mark_agree '-') (fun _ => (hlater .vectorUnary).then_ fun _ => .pure _)
      (hlower .vectorPrimary (by decide)) (Nat.le_refl 1)
  | vectorPrimary =>
    exact .labelled _ <| .choice <| .cons (vectorLiteral_agree hask) <|
      .cons (vectorCall_agree hask) <| .cons (hlower .datumPart (by decide)) <|
      .cons (hlower .featurePoint (by decide)) <|
      .cons (parenthesized_agree (hlater .vector)) <|
      .cons ((symbol_agree g .vector).map _) .nil
  | datumPart => exact datumPartOf_agree (hlower .datum (by decide))
  | featurePoint => exact featurePointOf_agree (hlower .feature (by decide))
  | datum => exact datumOver_agree hask
  | selection => exact (hlower .selectionPrimary (by decide)).after fun left => hlater _
  | selectionUnion left =>
    refine turn_agree (operator_agree _ _) (fun op left => ?_) (fun a => hlater (.selectionUnion a)) left
    exact (hlater .selectionPrimary).then_ fun _ => .pure _
  | selectionPrimary => exact selectionPrimary_agree hask
  | feature =>
    exact ((hlower .featurePrimary (by decide)).labelled _).after fun base => hlater _
  | subResults base => exact access_agree (fun a => hlater (.subResults a)) base
  | featurePrimary =>
    exact featurePrimaryOf_agree g (hlower .constructor (by decide)) (hlater .feature)
  | constructor => exact constructorOf_agree g (argumentsOf_agree hlater g)
  | argument kind =>
    cases kind with
    | scalar => exact (hlower .scalar (by decide)).after fun _ => .pure _
    | vector => exact (hlower .vector (by decide)).after fun _ => .pure _
    | datum => exact (hlower .datum (by decide)).after fun _ => .pure _
    | feature => exact (hlower .feature (by decide)).after fun _ => .pure _
    | selection => exact (hlower .selection (by decide)).after fun _ => .pure _
    | keyword choices => exact (optionWord_onward choices (n + 1)).after fun _ => .pure _
  | arguments typeName signature count read =>
    exact argumentsStep_agree hlater (fun kind => hlower (.argument kind) (Nat.lt_succ_self 11))
      typeName signature count read
  | boundValue =>
    refine .furthestChoice (.cons ?_ (.cons ?_ (.cons ?_ (.cons ?_ (.cons ?_ .nil))))) none
    · exact ended_agree (hlower .feature (by decide)) _
    · exact ended_agree (hlower .selection (by decide)) _
    · exact ended_agree (hlower .datum (by decide)) _
    · exact ended_agree (hlower .vector (by decide)) _
    · exact ended_agree (hlower .scalar (by decide)) _
  | binding => exact bindingOf_agree g (hlater .boundValue)
  | output => exact outputOf_agree (hlower .feature (by decide))
  | statement =>
    exact statementOf_agree (hlower .output (by decide)) (hlower .binding (by decide))

end Step

/-! ## Calls -/

/-- Rules that read on from where they are called, and no fewer characters than those of the
grammar. -/
def Productions.Forward (call : Productions) : Prop :=
  ∀ q c, (call q).At c fun _ rest => c.Onward q.least rest

/-- The rule and place `x` calls the rule and place `y`: what `x` reads is not settled by what the
rules read everywhere but at `y`. No rule catches the failure of one that it calls, so a call counts
whether its value is used or not. -/
def Enters (g : Grammar) (x y : Production × Cursor) : Prop :=
  ∃ call call' : Productions, call.Forward ∧ (∀ q d, (q, d) ≠ y → call q d = call' q d) ∧
    g.step call x.1 x.2 ≠ g.step call' x.1 x.2

/-- The characters left at a place, and where these are equal the rank. -/
def height (x : Production × Cursor) : Nat ×ₗ Nat := toLex (x.2.rest.length, x.1.rank)

variable {g : Grammar} {x y : Production × Cursor}

/-- A call is at a later place, or to a rule of lower rank. -/
theorem Enters.height_lt (h : g.Enters x y) : height y < height x := by
  obtain ⟨call, call', hforward, hsame, hne⟩ := h
  by_contra hheight
  have hagree : ∀ (q : Production) (d : Cursor), height (q, d) < height x →
      call q d = call' q d ∧ (call q).At d fun _ rest => d.Onward q.least rest := fun q d hd =>
    ⟨hsame q d fun hy => hheight (hy ▸ hd), hforward q d⟩
  have hlater : ∀ q, Parser.Agree x.2.rest.length q.least (call q) (call' q) := fun q d hd =>
    hagree q d (Prod.Lex.lt_iff.mpr (.inl hd))
  refine hne (step_agree (fun q => (hlater q).weaken) g x.1 ?_ x.2 (Nat.lt_succ_self _)).1
  intro q hrank d hd
  rcases Nat.lt_succ_iff_lt_or_eq.mp hd with hd | hd
  · exact hlater q d hd
  · exact hagree q d (Prod.Lex.lt_iff.mpr (.inr ⟨hd, hrank⟩))

/-- Calls do not go on for ever. -/
theorem enters_wellFounded (g : Grammar) : WellFounded fun y x => g.Enters x y :=
  Subrelation.wf Enters.height_lt (InvImage.wf height wellFounded_lt)

/-- A chain of calls comes back to a rule at later places only. -/
theorem shorter_of_reenters {p : Production} {c d : Cursor}
    (h : Relation.TransGen g.Enters (p, c) (p, d)) : d.rest.length < c.rest.length := by
  have hheight : ∀ z, Relation.TransGen g.Enters (p, c) z → height z < height (p, c) := by
    intro z hz
    induction hz with
    | single hlast => exact hlast.height_lt
    | tail _ hlast ih => exact hlast.height_lt.trans ih
  rcases Prod.Lex.lt_iff.mp (hheight _ h) with hlength | ⟨-, hrank⟩
  · exact hlength
  · exact absurd hrank (Nat.lt_irrefl _)

/-- Calls at the same place there are: a sum begins with a term. -/
theorem scalar_enters_scalarTerm (g : Grammar) (c : Cursor) :
    g.Enters (.scalar, c) (.scalarTerm, c) := by
  classical
  let trap : Productions := fun q d =>
    if (q, d) = (.scalarTerm, c) then .failure [] none else .error []
  have htrap : trap .scalarTerm c = .failure [] none := if_pos rfl
  refine ⟨fun _ _ => .error [], trap, fun _ _ _ _ => nofun, fun q d h => (if_neg h).symm, ?_⟩
  have hstep : g.step trap .scalar c = .failure [] none := by
    rw [step, bind_apply, htrap]
  rw [hstep]
  nofun

/-- There is one family of rules that is its own step. -/
theorem step_eq_iff (call : Productions) : g.step call = call ↔ call = g.productions := by
  refine ⟨fun hcall => ?_, fun hcall => hcall ▸ step_productions g⟩
  have hagree : ∀ n p, Parser.Agree n p.least (g.productions p) (call p) := by
    intro n
    induction n with
    | zero => exact fun p c hc => absurd hc (Nat.not_lt_zero _)
    | succ n ih =>
      intro p
      -- at the same place the rules that `p` calls are of lower rank
      induction hrank : p.rank using Nat.strong_induction_on generalizing p with
      | h rank ihrank =>
        have hstep := step_agree (fun q => (ih q).weaken) g p fun q hq =>
          ihrank q.rank (hrank ▸ hq) q rfl
        rwa [step_productions, hcall] at hstep
  funext p c
  exact (hagree _ p c (Nat.lt_succ_self _)).1.symm

end Grammar

/-! ## Parsing ends -/

open Grammar

/-- Of two places of a text the one with fewer characters left has the larger offset. -/
theorem Cursor.In.offset_lt_of_shorter {source : String} {c d : Cursor} (hc : c.In source)
    (hd : d.In source) (h : d.rest.length < c.rest.length) : c.offset < d.offset := by
  obtain ⟨m, rfl⟩ := hc
  obtain ⟨n, rfl⟩ := hd
  rcases Nat.le_total n m with hle | hle
  · obtain ⟨k, rfl⟩ := Nat.exists_eq_add_of_le hle
    rw [← Cursor.skip_skip] at h
    exact absurd h (Nat.not_lt.mpr (Cursor.skip_length k _))
  · obtain ⟨k, rfl⟩ := Nat.exists_eq_add_of_le hle
    rw [← Cursor.skip_skip] at h ⊢
    exact Cursor.Onward.offset_lt ⟨⟨k, rfl⟩, h⟩

/-- The loops over imports and statements end before any bound larger than the text. -/
theorem Model.read_bound (M : Model) (registry : Registry) (file source : String) {n m : Nat}
    (hn : source.toList.length < n) (hm : source.toList.length < m) :
    M.read registry file source = (do
      let (_, c) ← importsFrom file source n (Cursor.ofText source)
      let extended ← statementsFrom registry file source m c M
      return extended.nextSource) := by
  have himports : leadingImports file source = importsFrom file source n (Cursor.ofText source) :=
    importsFrom_bound (Nat.lt_succ_self _) hn
  unfold Model.read
  rw [himports]
  cases hread : importsFrom file source n (Cursor.ofText source) with
  | error e => rfl
  | ok result =>
    obtain ⟨imports, c⟩ := result
    obtain ⟨⟨k, rfl⟩, -⟩ := importsFrom_tile (.ofText source) hread
    have hlength := Cursor.skip_length k (Cursor.ofText source)
    show (do let extended ← statementsFrom registry file source _ _ M
             return extended.nextSource : Except CompileError Model) = _
    rw [statementsFrom_bound registry M (Nat.lt_succ_self _) (Nat.lt_of_le_of_lt hlength hm)]
    rfl

/-- Every value that a rule reads takes a byte at least. -/
def Grammar.Parser.Progresses {α : Type} (p : Parser α) : Prop :=
  ∀ c, p.At c fun _ rest => c.offset < rest.offset

/-- Parsing ends, with progress. The rules of the grammar are the only rules that are one step of
themselves; their calls do not go on for ever, and come back to no rule at the same offset; every
value, argument and statement takes a byte at least; and reading a text does not depend on the
bounds of the loops over its imports and statements. -/
theorem Grammar.parsing_ends (registry : Registry) (M : Model) (file source : String) :
    let g : Grammar := ⟨registry, M⟩
    (∀ call, g.step call = call ↔ call = g.productions) ∧
    (WellFounded fun y x => g.Enters x y) ∧
    (∀ p c d, c.In source → d.In source → Relation.TransGen g.Enters (p, c) (p, d) →
      c.offset < d.offset) ∧
    (∀ rule, (g.parse rule).Progresses) ∧
    (∀ kind, (argument g.parse kind).Progresses) ∧
    (statement g).Progresses ∧
    ∀ n m, source.toList.length < n → source.toList.length < m →
      M.read registry file source = (do
        let (_, c) ← importsFrom file source n (Cursor.ofText source)
        let extended ← statementsFrom registry file source m c M
        return extended.nextSource) := by
  intro g
  have hagree : ∀ rule n, Parser.Agree n 1 (g.parse rule) (g.parse rule) := fun rule n =>
    .of_at (parse_onward g rule)
  refine ⟨step_eq_iff, enters_wellFounded g, ?_, ?_, ?_, ?_, ?_⟩
  · exact fun p c d hc hd h => hc.offset_lt_of_shorter hd (shorter_of_reenters h)
  · exact fun rule c => (parse_onward g rule c).imp fun _ _ => Cursor.Onward.offset_lt
  · intro kind c
    exact ((argument_onward hagree kind _ c (Nat.lt_succ_self _)).2).imp
      fun _ _ => Cursor.Onward.offset_lt
  · exact fun c => (statement_finishes c).imp fun _ _ h => h.1.offset_lt
  · exact fun n m hn hm => M.read_bound registry file source hn hm

end PartScript
