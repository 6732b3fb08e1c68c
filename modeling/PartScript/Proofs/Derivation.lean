/-
  Sentences of the language. What can be derived by the rules of the grammar as they are
  documented, without any order in which alternatives are tried:

    scalar      := term (('+' | '-') term)*
    term        := unary (('*' | '/') unary)*
    unary       := '-' unary | primary ('^' unary)?
    primary     := number | call | vector '.' (x | y | z) | '(' scalar ')' | feature '$' name
                 | scalar-name
    vector      := term (('+' | '-') term)*
    term        := factor (('*' | '/') scalar-unary)*
    factor      := scalar-unary '*' factor | unary
    unary       := '-' unary | primary
    primary     := '[' s ',' s ',' s ']' | Vector(s, s, s) | cross(v, v) | normalize(v)
                 | datum '.' part | feature '@' name | '(' vector ')' | vector-name
    datum       := Point(v) | Axis(v, v) | Plane(v, v) | '(' datum ')' | datum-name
    selection   := primary (('|' | '-') primary)*
    primary     := kind '(' feature (',' string)? ')' | '(' selection ')' | selection-name
    feature     := primary ('!' name)*
    primary     := Type '(' arguments ')' | '(' feature ')' | feature-name

  The vector whose component is taken is one without operators. Sums and products group to the
  left, powers to the right. A derivation relates the place where a phrase begins, its tree, and
  the place where it ends, which is the place after the blanks and comments that follow it.
-/
import PartScript.Proofs.Outcomes

namespace PartScript

/-! ## Arguments that are left out -/

/-- The arguments that stand in for those of all parameters of a signature. -/
inductive Signature.Defaults : Signature → List Argument → Prop where
  | nil : Defaults [] []
  | optional {name kind fallback params as} : Defaults params as →
    Defaults (⟨name, kind, .optional fallback⟩ :: params) (fallback.toArgument :: as)
  | variadic {name kind params as} : Defaults params as →
    Defaults (⟨name, kind, .variadic 0⟩ :: params) as

namespace Grammar

/-! ## Phrases -/

/-- The phrases of the language: those of the rules, and their parts. -/
inductive Nonterminal where
  | rule (rule : Rule)
  | scalarTerm
  | scalarPrimary
  | vectorTerm
  | vectorPrimary
  | selectionPrimary
  | featurePrimary
  /-- An argument for a parameter. -/
  | argument (kind : ParamKind)
  /-- The arguments of a variadic parameter, as the first ones of a list or after others. -/
  | operands (kind : ParamKind) (first : Bool)
  /-- The arguments for a signature, as the first ones of a list or after others. -/
  | arguments (signature : Signature) (first : Bool)

/-- The trees of phrases. Arguments that are left out are part of the tree. -/
def Nonterminal.Value : Nonterminal → Type
  | .rule r => r.Value
  | .scalarTerm => ScalarExpr
  | .scalarPrimary => ScalarExpr
  | .vectorTerm => VectorExpr
  | .vectorPrimary => VectorExpr
  | .selectionPrimary => SelectionExpr
  | .featurePrimary => FeatureRef
  | .argument _ => Argument
  | .operands _ _ => List Argument
  | .arguments _ _ => List Argument

/-! ## Operators and words -/

def scalarSums : List (Char × ScalarOp) := [('+', .add), ('-', .sub)]

def scalarProducts : List (Char × ScalarOp) := [('*', .mul), ('/', .div)]

def vectorSums : List (Char × (VectorExpr → VectorExpr → VectorExpr)) :=
  [('+', .add), ('-', .sub)]

def vectorProducts : List (Char × (VectorExpr → ScalarExpr → VectorExpr)) :=
  [('*', .scale), ('/', .divide)]

def selectionSums : List (Char × (SelectionExpr → SelectionExpr → SelectionExpr)) :=
  [('|', .union), ('-', .difference)]

/-- A word stands at a place, and what follows it stands at another. -/
def Word (c : Cursor) (name : String) (d : Cursor) : Prop := padded identifier c = .ok name d

/-- A word that is called stands at a place, and its first argument stands at another. -/
def Called (c : Cursor) (name : String) (d : Cursor) : Prop :=
  ∃ e, Word c name e ∧ e.head? = some '(' ∧ d = e.after

/-- An argument begins at a place: where its list does, or after a comma. -/
def Separated (first : Bool) (c d : Cursor) : Prop :=
  if first then d = c else c.head? = some ',' ∧ d = c.after

/-! ## Derivations -/

/-- A phrase with a tree can be derived between two places. Names of values have to be bound to
values of the kind. The name of a feature may be bound later, so it has to be one that can be
bound. A minus sign before a number is an operator, not a part of the number. -/
inductive Derives (g : Grammar) : (sort : Nonterminal) → Cursor → sort.Value → Cursor → Prop where
  -- Scalars
  | scalarTerm {c d} {x : ScalarExpr} :
    Derives g .scalarTerm c x d → Derives g (.rule .scalar) c x d
  | scalarSum {c d e ch op} {x y : ScalarExpr} :
    Derives g (.rule .scalar) c x d → (ch, op) ∈ scalarSums → d.head? = some ch →
    Derives g .scalarTerm d.after y e → Derives g (.rule .scalar) c (.binary op x y : ScalarExpr) e
  | scalarUnary {c d} {x : ScalarExpr} :
    Derives g (.rule .scalarUnary) c x d → Derives g .scalarTerm c x d
  | scalarProduct {c d e ch op} {x y : ScalarExpr} :
    Derives g .scalarTerm c x d → (ch, op) ∈ scalarProducts → d.head? = some ch →
    Derives g (.rule .scalarUnary) d.after y e →
    Derives g .scalarTerm c (.binary op x y : ScalarExpr) e
  | scalarNeg {c d} {x : ScalarExpr} :
    c.head? = some '-' → Derives g (.rule .scalarUnary) c.after x d →
    Derives g (.rule .scalarUnary) c (.neg x : ScalarExpr) d
  | scalarPrimary {c d} {x : ScalarExpr} :
    Derives g .scalarPrimary c x d → Derives g (.rule .scalarUnary) c x d
  | power {c d e} {x y : ScalarExpr} :
    Derives g .scalarPrimary c x d → d.head? = some '^' →
    Derives g (.rule .scalarUnary) d.after y e →
    Derives g (.rule .scalarUnary) c (.binary .pow x y : ScalarExpr) e
  | number {c d value} :
    c.head? ≠ some '-' → Grammar.number c = .ok value d →
    Derives g .scalarPrimary c (.literal value : ScalarExpr) d
  | call {c d e name fn} {x : ScalarExpr} :
    Called c name d → (name, fn) ∈ ScalarFn.named → Derives g (.rule .scalar) d x e →
    e.head? = some ')' → Derives g .scalarPrimary c (.call fn x : ScalarExpr) e.after
  | dot {c d e f} {x y : VectorExpr} :
    Called c "dot" d → Derives g (.rule .vector) d x e → e.head? = some ',' →
    Derives g (.rule .vector) e.after y f → f.head? = some ')' →
    Derives g .scalarPrimary c (.dot x y : ScalarExpr) f.after
  | magnitude {c d e} {x : VectorExpr} :
    Called c "mag" d → Derives g (.rule .vector) d x e → e.head? = some ')' →
    Derives g .scalarPrimary c (.magnitude x : ScalarExpr) e.after
  | component {c d e name which} {x : VectorExpr} :
    Derives g .vectorPrimary c x d → d.head? = some '.' → Word d.after name e →
    (name, which) ∈ Component.named →
    Derives g .scalarPrimary c (.component x which : ScalarExpr) e
  | scalarEnclosed {c d} {x : ScalarExpr} :
    c.head? = some '(' → Derives g (.rule .scalar) c.after x d → d.head? = some ')' →
    Derives g .scalarPrimary c x d.after
  | value {c d e name} {x : FeatureRef} :
    Derives g (.rule .feature) c x d → d.head? = some '$' → Word d.after name e →
    Derives g .scalarPrimary c (.value x name : ScalarExpr) e
  | scalarName {c d name} :
    Word c name d → g.model.kindOf? name = some .scalar →
    Derives g .scalarPrimary c (.symbol name : ScalarExpr) d
  -- Vectors
  | vectorTerm {c d} {x : VectorExpr} :
    Derives g .vectorTerm c x d → Derives g (.rule .vector) c x d
  | vectorSum {c d e ch op} {x y : VectorExpr} :
    Derives g (.rule .vector) c x d → (ch, op) ∈ vectorSums → d.head? = some ch →
    Derives g .vectorTerm d.after y e → Derives g (.rule .vector) c (op x y) e
  | vectorFactor {c d} {x : VectorExpr} :
    Derives g (.rule .vectorFactor) c x d → Derives g .vectorTerm c x d
  | vectorProduct {c d e ch op} {x : VectorExpr} {y : ScalarExpr} :
    Derives g .vectorTerm c x d → (ch, op) ∈ vectorProducts → d.head? = some ch →
    Derives g (.rule .scalarUnary) d.after y e → Derives g .vectorTerm c (op x y) e
  | scaled {c d e} {y : ScalarExpr} {x : VectorExpr} :
    Derives g (.rule .scalarUnary) c y d → d.head? = some '*' →
    Derives g (.rule .vectorFactor) d.after x e →
    Derives g (.rule .vectorFactor) c (.scale x y : VectorExpr) e
  | vectorUnary {c d} {x : VectorExpr} :
    Derives g (.rule .vectorUnary) c x d → Derives g (.rule .vectorFactor) c x d
  | vectorNeg {c d} {x : VectorExpr} :
    c.head? = some '-' → Derives g (.rule .vectorUnary) c.after x d →
    Derives g (.rule .vectorUnary) c (.neg x : VectorExpr) d
  | vectorPrimary {c d} {x : VectorExpr} :
    Derives g .vectorPrimary c x d → Derives g (.rule .vectorUnary) c x d
  | bracketed {c d e f} {x y z : ScalarExpr} :
    c.head? = some '[' → Derives g (.rule .scalar) c.after x d → d.head? = some ',' →
    Derives g (.rule .scalar) d.after y e → e.head? = some ',' →
    Derives g (.rule .scalar) e.after z f → f.head? = some ']' →
    Derives g .vectorPrimary c (.literal x y z : VectorExpr) f.after
  | components {b c d e f} {x y z : ScalarExpr} :
    Called b "Vector" c → Derives g (.rule .scalar) c x d → d.head? = some ',' →
    Derives g (.rule .scalar) d.after y e → e.head? = some ',' →
    Derives g (.rule .scalar) e.after z f → f.head? = some ')' →
    Derives g .vectorPrimary b (.literal x y z : VectorExpr) f.after
  | cross {c d e f} {x y : VectorExpr} :
    Called c "cross" d → Derives g (.rule .vector) d x e → e.head? = some ',' →
    Derives g (.rule .vector) e.after y f → f.head? = some ')' →
    Derives g .vectorPrimary c (.cross x y : VectorExpr) f.after
  | normalize {c d e} {x : VectorExpr} :
    Called c "normalize" d → Derives g (.rule .vector) d x e → e.head? = some ')' →
    Derives g .vectorPrimary c (.normalize x : VectorExpr) e.after
  | part {c d e name which} {x : DatumExpr} :
    Derives g (.rule .datum) c x d → d.head? = some '.' → Word d.after name e →
    (name, which) ∈ DatumPart.named → Derives g .vectorPrimary c (.part x which : VectorExpr) e
  | point {c d e name} {x : FeatureRef} :
    Derives g (.rule .feature) c x d → d.head? = some '@' → Word d.after name e →
    Derives g .vectorPrimary c (.point x name : VectorExpr) e
  | vectorEnclosed {c d} {x : VectorExpr} :
    c.head? = some '(' → Derives g (.rule .vector) c.after x d → d.head? = some ')' →
    Derives g .vectorPrimary c x d.after
  | vectorName {c d name} :
    Word c name d → g.model.kindOf? name = some .vector →
    Derives g .vectorPrimary c (.symbol name : VectorExpr) d
  -- Datums
  | datumPoint {c d e} {x : VectorExpr} :
    Called c "Point" d → Derives g (.rule .vector) d x e → e.head? = some ')' →
    Derives g (.rule .datum) c (.point x : DatumExpr) e.after
  | axis {c d e f} {x y : VectorExpr} :
    Called c "Axis" d → Derives g (.rule .vector) d x e → e.head? = some ',' →
    Derives g (.rule .vector) e.after y f → f.head? = some ')' →
    Derives g (.rule .datum) c (.axis x y : DatumExpr) f.after
  | plane {c d e f} {x y : VectorExpr} :
    Called c "Plane" d → Derives g (.rule .vector) d x e → e.head? = some ',' →
    Derives g (.rule .vector) e.after y f → f.head? = some ')' →
    Derives g (.rule .datum) c (.plane x y : DatumExpr) f.after
  | datumEnclosed {c d} {x : DatumExpr} :
    c.head? = some '(' → Derives g (.rule .datum) c.after x d → d.head? = some ')' →
    Derives g (.rule .datum) c x d.after
  | datumName {c d name} :
    Word c name d → g.model.kindOf? name = some .datum →
    Derives g (.rule .datum) c (.symbol name : DatumExpr) d
  -- Selections
  | selectionPrimary {c d} {x : SelectionExpr} :
    Derives g .selectionPrimary c x d → Derives g (.rule .selection) c x d
  | selectionSum {c d e ch op} {x y : SelectionExpr} :
    Derives g (.rule .selection) c x d → (ch, op) ∈ selectionSums → d.head? = some ch →
    Derives g .selectionPrimary d.after y e → Derives g (.rule .selection) c (op x y) e
  | query {c d e name kind} {x : FeatureRef} :
    Called c name d → (name, kind) ∈ EntityKind.named → Derives g (.rule .feature) d x e →
    e.head? = some ')' → Derives g .selectionPrimary c (.query kind x "" : SelectionExpr) e.after
  | filtered {c d e f name kind filter} {x : FeatureRef} :
    Called c name d → (name, kind) ∈ EntityKind.named → Derives g (.rule .feature) d x e →
    e.head? = some ',' → padded stringLiteral e.after = .ok filter f → f.head? = some ')' →
    Derives g .selectionPrimary c (.query kind x filter : SelectionExpr) f.after
  | selectionEnclosed {c d} {x : SelectionExpr} :
    c.head? = some '(' → Derives g (.rule .selection) c.after x d → d.head? = some ')' →
    Derives g .selectionPrimary c x d.after
  | selectionName {c d name} :
    Word c name d → g.model.kindOf? name = some .selection →
    Derives g .selectionPrimary c (.symbol name : SelectionExpr) d
  -- Features
  | featurePrimary {c d} {x : FeatureRef} :
    Derives g .featurePrimary c x d → Derives g (.rule .feature) c x d
  | subResult {c d e name} {x : FeatureRef} :
    Derives g (.rule .feature) c x d → d.head? = some '!' → Word d.after name e →
    Derives g (.rule .feature) c (.sub x name : FeatureRef) e
  | constructor {c d e name type} {as : List Argument} :
    Called c name d → g.registry.find? name = some type → type.written = .declared →
    type.checked = .declared → Derives g (.arguments type.signature true) d as e →
    e.head? = some ')' →
    Derives g .featurePrimary c (.inline (.construct type.name type.signature as
      (.text g.model.sources (.between c.start e.after)) none) : FeatureRef) e.after
  | featureEnclosed {c d} {x : FeatureRef} :
    c.head? = some '(' → Derives g (.rule .feature) c.after x d → d.head? = some ')' →
    Derives g .featurePrimary c x d.after
  | featureName {c d name} :
    Word c name d → isReserved name = false → g.registry.contains name = false →
    g.model.kindOf? name = none ∨ g.model.kindOf? name = some .feature →
    Derives g .featurePrimary c (.named name : FeatureRef) d
  -- Arguments
  | scalarArgument {c d} {x : ScalarExpr} :
    Derives g (.rule .scalar) c x d → Derives g (.argument .scalar) c (.scalar x : Argument) d
  | vectorArgument {c d} {x : VectorExpr} :
    Derives g (.rule .vector) c x d → Derives g (.argument .vector) c (.vector x : Argument) d
  | datumArgument {c d} {x : DatumExpr} :
    Derives g (.rule .datum) c x d → Derives g (.argument .datum) c (.datum x : Argument) d
  | featureArgument {c d} {x : FeatureRef} :
    Derives g (.rule .feature) c x d → Derives g (.argument .feature) c (.feature x : Argument) d
  | selectionArgument {c d} {x : SelectionExpr} :
    Derives g (.rule .selection) c x d →
    Derives g (.argument .selection) c (.selection x : Argument) d
  | optionWord {c d word choices} :
    Word c word d → word ∈ choices →
    Derives g (.argument (.keyword choices)) c (.keyword word : Argument) d
  | noOperand {c kind first} : Derives g (.operands kind first) c ([] : List Argument) c
  | operand {c d e f kind first} {a : Argument} {as : List Argument} :
    Separated first c d → Derives g (.argument kind) d a e →
    Derives g (.operands kind false) e as f →
    Derives g (.operands kind first) c (a :: as : List Argument) f
  | noArgument {c first} {as : List Argument} {signature : Signature} :
    signature.Defaults as → Derives g (.arguments signature first) c as c
  | argument {c d e f first} {param : Param} {params : Signature} {a : Argument}
    {as : List Argument} :
    param.isVariadic = false → Separated first c d → Derives g (.argument param.kind) d a e →
    Derives g (.arguments params false) e as f →
    Derives g (.arguments (param :: params) first) c (a :: as : List Argument) f
  | operands {c d first name kind least} {params : Signature} {as bs : List Argument} :
    Derives g (.operands kind first) c as d → least ≤ as.length → params.Defaults bs →
    Derives g (.arguments (⟨name, kind, .variadic least⟩ :: params) first) c
      (as ++ bs : List Argument) d

end Grammar

end PartScript
