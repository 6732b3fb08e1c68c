/-
  References to features: following names to the construction they designate, and paths of
  sub-results below its result.
-/
import PartScript.Build.Error
import PartScript.Model

namespace PartScript

/-- The construction that a reference designates and the path of sub-results below it, given
what each name designates. -/
def FeatureRef.targetOver (follow : String → Except BuildError (Feature × List String)) :
    FeatureRef → Except BuildError (Feature × List String)
  | .named name => follow name
  | .inline feature => .ok (feature, [])
  | .sub base name => do
    let (root, path) ← targetOver follow base
    return (root, path ++ [name])

namespace Model

/-- What a name designates when the names in `seen` have been followed before it. Meeting
one of them again is a circular dependency. The names in `seen` are distinct and all but the
last are bound, which bounds `n`. -/
def targetOfName (model : Model) :
    (n : Nat) → (seen : List String) → String → Except BuildError (Feature × List String)
  | 0, _, name => .error (.circularDependency name)
  | n + 1, seen, name =>
    if seen.contains name then .error (.circularDependency name)
    else
      match model.binding? name with
      | none => .error (.unresolvedReference .feature name)
      | some binding =>
        match binding.value with
        | .feature reference => reference.targetOver (targetOfName model n (name :: seen))
        | other => .error (.kindMismatch name .feature other.kind)

/-- The construction that a reference designates, and the path of sub-results below it. -/
def target (model : Model) (reference : FeatureRef) :
    Except BuildError (Feature × List String) :=
  reference.targetOver (model.targetOfName (model.bindings.length + 1) [])

end Model

/-- Follows a path of sub-results. `owner` names the result reached so far. -/
def BuildResult.descend (owner : String) (result : BuildResult) :
    List String → Except BuildError BuildResult
  | [] => .ok result
  | name :: path =>
    match result.sub? name with
    | some sub => descend (owner ++ "!" ++ name) sub path
    | none => .error (.missingSubResult owner name)

end PartScript
