/-
  Plans of evaluations. Names and features lead from one expression to another without
  bound, so an evaluation is written as a plan: a tree of the demands that it makes and of
  what it does with their answers. A plan is run over the answers to all demands.
-/
import PartScript.Build.State

namespace PartScript

/-! ## Demands -/

/-- What one expression or feature demands of others: the value that a name is bound to, or
the identity or the result of a feature. `within` is the label of the feature whose
arguments are being evaluated. -/
inductive Demand where
  | scalar (within : Option String) (value : ScalarExpr)
  | vector (within : Option String) (value : VectorExpr)
  | datum (within : Option String) (value : DatumExpr)
  | selection (within : Option String) (value : SelectionExpr)
  | hash (feature : Feature)
  | build (feature : Feature)

/-- What answers a demand. -/
def Demand.Answer : Demand → Type
  | .scalar _ _ => Float
  | .vector _ _ => Vec3
  | .datum _ _ => Datum
  | .selection _ _ => Selection
  | .hash _ => StructuralHash
  | .build _ => BuildResult

/-- The answers to all demands. -/
abbrev Answers := (demand : Demand) → Build demand.Answer

/-! ## Plans -/

/-- An evaluation. -/
inductive Plan (α : Type) where
  | done (value : α)
  | stop (error : BuildError)
  /-- Makes a demand. Its error is reported as one of an input of `user`. -/
  | demand (what : Demand) (user : Option String) (next : what.Answer → Plan α)
  /-- Computes an identity. -/
  | identify (description : Description) (next : StructuralHash → Plan α)

namespace Plan

variable {α β : Type}

/-- Goes on with the value of a plan. -/
def andThen : Plan α → (α → Plan β) → Plan β
  | done value, f => f value
  | stop error, _ => stop error
  | demand what user next, f => demand what user fun answer => (next answer).andThen f
  | identify description next, f => identify description fun hash => (next hash).andThen f

instance : Monad Plan where
  pure := done
  bind := andThen

/-- The value of a computation that needs no demands. -/
def ofExcept : Except BuildError α → Plan α
  | .ok a => done a
  | .error error => stop error

/-! ## Plans of one step -/

def scalar (within : Option String) (value : ScalarExpr) : Plan Float :=
  demand (.scalar within value) none done

def vector (within : Option String) (value : VectorExpr) : Plan Vec3 :=
  demand (.vector within value) none done

def datum (within : Option String) (value : DatumExpr) : Plan Datum :=
  demand (.datum within value) none done

def selection (within : Option String) (value : SelectionExpr) : Plan Selection :=
  demand (.selection within value) none done

/-- The identity of a feature that `user` needs. -/
def hash (user : Option String) (feature : Feature) : Plan StructuralHash :=
  demand (.hash feature) user done

/-- The result of a feature that `user` needs. -/
def build (user : Option String) (feature : Feature) : Plan BuildResult :=
  demand (.build feature) user done

/-- The identity of what is described. -/
def identity (description : Description) : Plan StructuralHash := identify description done

/-! ## Runs -/

/-- Carries out a plan over the answers to its demands. -/
def run (ask : Answers) : Plan α → Build α
  | done value => pure value
  | stop error => Build.fail error
  | demand what user next => do
    let answer ← Build.asInput user (ask what)
    run ask (next answer)
  | identify description next => do
    let hash ← Build.identify description
    run ask (next hash)

end Plan

end PartScript
