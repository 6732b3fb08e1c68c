/-
  Binding the arguments of a call to a signature: kinds are checked in order and omitted
  optional arguments are filled in.
-/
import PartScript.Expr

namespace PartScript

/-- Why arguments do not fit a constructor. -/
inductive ArgumentError where
  | missing (param : String)
  | wrongKind (param : String) (expected : ParamKind) (found : Argument)
  | tooFew (param : String) (least count : Nat)
  | tooMany (limit count : Nat)
  /-- A placement was given a datum of another kind than a plane. -/
  | notPlane (found : String)

def ArgumentError.message : ArgumentError → String
  | .missing param => s!"missing argument '{param}'"
  | .wrongKind param expected found =>
    s!"argument '{param}' expects a {expected.name}, got a {found.kindName}"
  | .tooFew param least count => s!"'{param}' needs at least {least} arguments, got {count}"
  | .tooMany limit count => s!"expected at most {limit} arguments, got {count}"
  | .notPlane found => s!"Place expects a plane datum, found {found}"

/-- Whether a parameter of the kind takes an argument. -/
def ParamKind.accepts : ParamKind → Argument → Bool
  | .scalar, .scalar _ => true
  | .vector, .vector _ => true
  | .datum, .datum _ => true
  | .feature, .feature _ => true
  | .selection, .selection _ => true
  | .keyword choices, .keyword word => choices.contains word
  | _, _ => false

/-- The argument that stands in for an omitted one. -/
def Fallback.toArgument : Fallback → Argument
  | .scalar value => .scalar (.literal value)
  | .keyword word => .keyword word

namespace Signature

/-- Checks one argument against its parameter. -/
def check (param : Param) (argument : Argument) : Except ArgumentError Unit :=
  if param.kind.accepts argument then .ok ()
  else .error (.wrongKind param.name param.kind argument)

/-- Binds arguments to parameters in order. Gives the bound arguments and those left
over. -/
def bindFrom : Signature → List Argument → Except ArgumentError (List Argument × List Argument)
  | [], arguments => .ok ([], arguments)
  | param :: params, arguments =>
    match param.arity, arguments with
    | .required, [] => .error (.missing param.name)
    | .optional fallback, [] => do
      let (bound, extra) ← bindFrom params []
      return (fallback.toArgument :: bound, extra)
    | .variadic least, _ => do
      arguments.forM (check param)
      if arguments.length < least then
        throw (.tooFew param.name least arguments.length)
      let (bound, extra) ← bindFrom params []
      return (arguments ++ bound, extra)
    | _, argument :: arguments => do
      check param argument
      let (bound, extra) ← bindFrom params arguments
      return (argument :: bound, extra)

/-- Binds all arguments of a call to a signature. -/
def bind (signature : Signature) (arguments : List Argument) :
    Except ArgumentError (List Argument) := do
  let (bound, extra) ← bindFrom signature arguments
  if extra.isEmpty then return bound
  throw (.tooMany signature.length (bound.length + extra.length))

end Signature

end PartScript
