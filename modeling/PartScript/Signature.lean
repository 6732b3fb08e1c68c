/-
  Parameter lists of feature types: what each parameter accepts, how often, and what stands
  in for an omitted one.
-/
import PartScript.Decimal.Positional

namespace PartScript

/-- What a parameter accepts. -/
inductive ParamKind where
  | scalar
  | vector
  | datum
  | feature
  | selection
  /-- One of a fixed set of words. -/
  | keyword (choices : List String)
deriving DecidableEq, Repr

/-- The name of a kind in messages. -/
def ParamKind.name : ParamKind → String
  | .scalar => "scalar"
  | .vector => "vector"
  | .datum => "datum"
  | .feature => "feature"
  | .selection => "selection"
  | .keyword _ => "keyword"

/-- The value of an omitted argument. -/
inductive Fallback where
  | scalar (value : Float)
  | keyword (word : String)
deriving DecidableEq, Repr

/-- The text of a fallback in a usage line. -/
def Fallback.text : Fallback → String
  | .scalar value => Decimal.text value
  | .keyword word => word

/-- How many arguments a parameter takes. -/
inductive Arity where
  | required
  | optional (fallback : Fallback)
  /-- All remaining arguments, at least `least` of them. -/
  | variadic (least : Nat)
deriving DecidableEq, Repr

/-- One declared parameter. -/
structure Param where
  name : String
  kind : ParamKind
  arity : Arity
deriving DecidableEq, Repr

/-- The parameter list of a feature type. -/
abbrev Signature := List Param

namespace Param

def isVariadic (p : Param) : Bool :=
  match p.arity with
  | .variadic _ => true
  | _ => false

/-- The words or the kind that a parameter accepts. -/
def accepted (p : Param) : String :=
  match p.kind with
  | .keyword choices => "|".intercalate choices
  | kind => kind.name

/-- The parameter as a usage line shows it. -/
def usage (p : Param) : String :=
  match p.arity with
  | .required => s!"{p.name}: {p.accepted}"
  | .optional fallback => s!"{p.name}: {p.accepted} = {fallback.text}"
  | .variadic least => s!"{p.name}: {p.accepted}... (at least {least})"

end Param

namespace Signature

/-- `Name(param: kind, …)`. -/
def usage (name : String) (signature : Signature) : String :=
  name ++ "(" ++ ", ".intercalate (signature.map Param.usage) ++ ")"

/-- The name under which the argument at an index is known. The arguments of a trailing
variadic parameter are numbered from zero; past the declared parameters the index itself
is the number. -/
def argumentName (signature : Signature) (index : Nat) : String :=
  let beyond : String :=
    match signature.getLast? with
    | some last =>
      if last.isVariadic then last.name ++ toString (index - (signature.length - 1))
      else "arg" ++ toString index
    | none => "arg" ++ toString index
  match signature[index]? with
  | some p => if p.isVariadic then beyond else p.name
  | none => beyond

end Signature

end PartScript
