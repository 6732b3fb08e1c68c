/-
  The expressions of the script language: scalars, vectors, datums, selections, feature
  references and feature constructions. A construction carries where it was written, which
  tells two constructions with the same arguments apart.
-/
import PartScript.Diagnostic
import PartScript.Signature

namespace PartScript

/-- Binary operators on scalars. -/
inductive ScalarOp where
  | add
  | sub
  | mul
  | div
  | pow
deriving DecidableEq, Repr

/-- Functions of one scalar. -/
inductive ScalarFn where
  | sin
  | cos
  | tan
  | asin
  | acos
  | atan
  | sqrt
  | abs
  | ln
  | exp
deriving DecidableEq, Repr

/-- The functions of one scalar by their names in scripts. -/
def ScalarFn.named : List (String × ScalarFn) :=
  [("sin", .sin), ("cos", .cos), ("tan", .tan), ("asin", .asin), ("acos", .acos),
   ("atan", .atan), ("sqrt", .sqrt), ("abs", .abs), ("ln", .ln), ("exp", .exp)]

/-- The components of a vector. -/
inductive Component where
  | x
  | y
  | z
deriving DecidableEq, Repr

/-- The components by their names in scripts. -/
def Component.named : List (String × Component) := [("x", .x), ("y", .y), ("z", .z)]

/-- The vectors that a datum holds. -/
inductive DatumPart where
  | origin
  | direction
  | normal
deriving DecidableEq, Repr

def DatumPart.name : DatumPart → String
  | .origin => "origin"
  | .direction => "direction"
  | .normal => "normal"

/-- The parts of a datum by their names in scripts. -/
def DatumPart.named : List (String × DatumPart) :=
  [DatumPart.origin, .direction, .normal].map fun part => (part.name, part)

/-- The kinds of sub-shapes that a selection picks from. -/
inductive EntityKind where
  | solid
  | face
  | edge
  | vertex
deriving DecidableEq, Repr

def EntityKind.name : EntityKind → String
  | .solid => "solids"
  | .face => "faces"
  | .edge => "edges"
  | .vertex => "vertices"

/-- The kinds of sub-shapes by the names of their queries. -/
def EntityKind.named : List (String × EntityKind) :=
  [EntityKind.solid, .face, .edge, .vertex].map fun kind => (kind.name, kind)

/-- The kinds of values that a name can be bound to. -/
inductive SymbolKind where
  | scalar
  | vector
  | datum
  | feature
  | selection
deriving DecidableEq, Repr

def SymbolKind.name : SymbolKind → String
  | .scalar => "scalar"
  | .vector => "vector"
  | .datum => "datum"
  | .feature => "feature"
  | .selection => "selection"

/-- Where a construction comes from. Texts and constructions made without a text are
numbered by one count in the order in which a session meets them, and no two constructions
of one text start at the same place, so the origin identifies a construction. -/
inductive Origin where
  | text (source : Nat) (span : SourceSpan)
  | made (serial : Nat)
deriving DecidableEq, Repr

/-- The range of the source text, for a construction that has one. -/
def Origin.span? : Origin → Option SourceSpan
  | .text _ span => some span
  | .made _ => none

mutual

/-- Expressions for numbers. -/
inductive ScalarExpr where
  | literal (value : Float)
  | symbol (name : String)
  | neg (operand : ScalarExpr)
  | binary (op : ScalarOp) (left right : ScalarExpr)
  | call (fn : ScalarFn) (operand : ScalarExpr)
  | dot (left right : VectorExpr)
  | magnitude (operand : VectorExpr)
  | component (operand : VectorExpr) (component : Component)
  /-- A reference value of a built feature, `F$name`. -/
  | value (feature : FeatureRef) (name : String)

/-- Expressions for vectors. -/
inductive VectorExpr where
  | literal (x y z : ScalarExpr)
  | symbol (name : String)
  | neg (operand : VectorExpr)
  | add (left right : VectorExpr)
  | sub (left right : VectorExpr)
  | scale (operand : VectorExpr) (factor : ScalarExpr)
  | divide (operand : VectorExpr) (divisor : ScalarExpr)
  | cross (left right : VectorExpr)
  | normalize (operand : VectorExpr)
  /-- A reference point of a built feature, `F@name`. -/
  | point (feature : FeatureRef) (name : String)
  | part (datum : DatumExpr) (part : DatumPart)

/-- Expressions for points, axes and planes. -/
inductive DatumExpr where
  | point (location : VectorExpr)
  | axis (origin direction : VectorExpr)
  | plane (origin normal : VectorExpr)
  | symbol (name : String)

/-- Expressions for sets of sub-shapes of one feature. -/
inductive SelectionExpr where
  | query (kind : EntityKind) (feature : FeatureRef) (filter : String)
  | union (left right : SelectionExpr)
  | difference (left right : SelectionExpr)
  | symbol (name : String)

/-- References to features. A name may be bound after the reference to it was written. -/
inductive FeatureRef where
  | named (name : String)
  | inline (feature : Feature)
  /-- A named sub-result of another feature, `F!name`. -/
  | sub (base : FeatureRef) (name : String)

/-- A construction: the name of its type, the signature that its arguments were bound
against, and the name of the first binding that holds it, if there is one. -/
inductive Feature where
  | construct (typeName : String) (signature : Signature) (arguments : List Argument)
      (origin : Origin) (name? : Option String)

/-- Arguments of a construction. -/
inductive Argument where
  | scalar (value : ScalarExpr)
  | vector (value : VectorExpr)
  | datum (value : DatumExpr)
  | feature (value : FeatureRef)
  | selection (value : SelectionExpr)
  | keyword (word : String)

end

namespace Feature

def typeName : Feature → String
  | construct typeName _ _ _ _ => typeName

def signature : Feature → Signature
  | construct _ signature _ _ _ => signature

def arguments : Feature → List Argument
  | construct _ _ arguments _ _ => arguments

def origin : Feature → Origin
  | construct _ _ _ origin _ => origin

def name? : Feature → Option String
  | construct _ _ _ _ name? => name?

/-- The same construction under the name of the binding that holds it. -/
def withName : Feature → String → Feature
  | construct typeName signature arguments origin _, name =>
    construct typeName signature arguments origin (some name)

/-- The same construction at another origin. -/
def withOrigin : Feature → Origin → Feature
  | construct typeName signature arguments _ name?, origin =>
    construct typeName signature arguments origin name?

/-- How messages name a construction: by its binding, else by type and position, else by
type. -/
def label : Feature → String
  | construct typeName _ _ origin name? =>
    match name?, origin with
    | some name, _ => name
    | none, .text _ span => s!"{typeName}@{span.line}:{span.column}"
    | none, .made _ => typeName

end Feature

/-- The text of a feature reference in messages. -/
def FeatureRef.text : FeatureRef → String
  | .named name => name
  | .inline feature => feature.label
  | .sub base name => base.text ++ "!" ++ name

namespace Argument

/-- The name of an argument's kind in messages. -/
def kindName : Argument → String
  | .scalar _ => "scalar"
  | .vector _ => "vector"
  | .datum _ => "datum"
  | .feature _ => "feature"
  | .selection _ => "selection"
  | .keyword _ => "keyword"

end Argument

/-! ## Constructions in expressions -/

mutual

/-- The constructions written inside an expression. -/
def ScalarExpr.constructions : ScalarExpr → List Feature
  | .literal _ => []
  | .symbol _ => []
  | .neg operand => operand.constructions
  | .binary _ left right => left.constructions ++ right.constructions
  | .call _ operand => operand.constructions
  | .dot left right => left.constructions ++ right.constructions
  | .magnitude operand => operand.constructions
  | .component operand _ => operand.constructions
  | .value feature _ => feature.constructions

def VectorExpr.constructions : VectorExpr → List Feature
  | .literal x y z => x.constructions ++ (y.constructions ++ z.constructions)
  | .symbol _ => []
  | .neg operand => operand.constructions
  | .add left right => left.constructions ++ right.constructions
  | .sub left right => left.constructions ++ right.constructions
  | .scale operand factor => operand.constructions ++ factor.constructions
  | .divide operand divisor => operand.constructions ++ divisor.constructions
  | .cross left right => left.constructions ++ right.constructions
  | .normalize operand => operand.constructions
  | .point feature _ => feature.constructions
  | .part datum _ => datum.constructions

def DatumExpr.constructions : DatumExpr → List Feature
  | .point location => location.constructions
  | .axis origin direction => origin.constructions ++ direction.constructions
  | .plane origin normal => origin.constructions ++ normal.constructions
  | .symbol _ => []

def SelectionExpr.constructions : SelectionExpr → List Feature
  | .query _ feature _ => feature.constructions
  | .union left right => left.constructions ++ right.constructions
  | .difference left right => left.constructions ++ right.constructions
  | .symbol _ => []

def FeatureRef.constructions : FeatureRef → List Feature
  | .named _ => []
  | .inline feature => feature.constructions
  | .sub base _ => base.constructions

/-- A construction and those in its arguments. -/
def Feature.constructions : Feature → List Feature
  | .construct typeName signature arguments origin name? =>
    .construct typeName signature arguments origin name? :: Argument.constructionsIn arguments

def Argument.constructionsIn : List Argument → List Feature
  | [] => []
  | argument :: rest => argument.constructions ++ Argument.constructionsIn rest

def Argument.constructions : Argument → List Feature
  | .scalar value => value.constructions
  | .vector value => value.constructions
  | .datum value => value.constructions
  | .feature value => value.constructions
  | .selection value => value.constructions
  | .keyword _ => []

end

end PartScript
