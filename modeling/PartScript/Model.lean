/-
  The symbol table of a session: what each name is bound to, which features are to be
  output, and which modules have been loaded.
-/
import PartScript.Expr
import PartScript.Table

namespace PartScript

/-- The right-hand side of a binding. -/
inductive BoundValue where
  | scalar (value : ScalarExpr)
  | vector (value : VectorExpr)
  | datum (value : DatumExpr)
  | feature (value : FeatureRef)
  | selection (value : SelectionExpr)

def BoundValue.kind : BoundValue → SymbolKind
  | .scalar _ => .scalar
  | .vector _ => .vector
  | .datum _ => .datum
  | .feature _ => .feature
  | .selection _ => .selection

/-- The constructions written in a bound value. -/
def BoundValue.constructions : BoundValue → List Feature
  | .scalar value => value.constructions
  | .vector value => value.constructions
  | .datum value => value.constructions
  | .feature value => value.constructions
  | .selection value => value.constructions

/-- A statement `name = value;` and the module it stands in. -/
structure Binding where
  name : String
  value : BoundValue
  span : SourceSpan
  file : String

/-- A statement `export feature;` or `export feature as "path";`. -/
structure OutputRequest where
  feature : FeatureRef
  path : Option String
  span : SourceSpan
  file : String

/-- The symbol table. Bindings and output requests stand in the order of their statements;
modules in the order in which they were loaded. `sources` counts the texts and the
constructions without a text met so far; it numbers the origins. -/
structure Model where
  bindings : List Binding
  /-- The places of the bound names among the bindings. -/
  index : Table String Nat
  outputs : List OutputRequest
  modules : List String
  sources : Nat
  /-- A name is found where it is bound first. -/
  indexed : ∀ name, index.get? name = bindings.findIdx? (·.name == name)

namespace Model

def empty : Model := ⟨[], [], [], [], 0, fun _ => rfl⟩

/-- The binding of a name. -/
def binding? (model : Model) (name : String) : Option Binding :=
  (model.index.get? name).bind fun place => model.bindings[place]?

theorem binding?_eq_find? (model : Model) (name : String) :
    model.binding? name = model.bindings.find? (·.name == name) := by
  rw [binding?, model.indexed, List.find?_eq_bind_findIdx?_getElem?]

/-- The kind of value a name is bound to. -/
def kindOf? (model : Model) (name : String) : Option SymbolKind :=
  (model.binding? name).map (·.value.kind)

/-- The last binding of a feature, the output when none is requested. -/
def lastFeature? (model : Model) : Option Binding :=
  model.bindings.reverse.find? (·.value.kind = .feature)

/-- Whether a module has been loaded. -/
def isLoaded (model : Model) (path : String) : Bool := model.modules.contains path

/-- A construction that is bound directly takes the name of the binding. -/
def nameValue (name : String) : BoundValue → BoundValue
  | .feature (.inline feature) => .feature (.inline (feature.withName name))
  | value => value

/-- A name that is not in the index gets the place after all bindings. -/
theorem indexed_concat (model : Model) (binding : Binding)
    (hfree : model.index.get? binding.name = none) (name : String) :
    (model.index.insert binding.name model.bindings.length).get? name =
      (model.bindings ++ [binding]).findIdx? (·.name == name) := by
  rw [Table.get?_insert, List.findIdx?_append, ← model.indexed]
  by_cases hname : binding.name = name
  · subst hname
    simp [hfree]
  · simp [hname]

/-- Adds a binding, unless its name is bound already. -/
def bind? (model : Model) (binding : Binding) : Option Model :=
  if hfree : model.index.get? binding.name = none then
    let named := { binding with value := nameValue binding.name binding.value }
    some { model with
      bindings := model.bindings ++ [named]
      index := model.index.insert binding.name model.bindings.length
      indexed := model.indexed_concat named hfree }
  else none

/-- Adds an output request. -/
def request (model : Model) (output : OutputRequest) : Model :=
  { model with outputs := model.outputs ++ [output] }

/-- Records a module as loaded. -/
def markLoaded (model : Model) (path : String) : Model :=
  if model.isLoaded path then model else { model with modules := model.modules ++ [path] }

/-- Leaves the number of the current source to what was read from it. -/
def nextSource (model : Model) : Model := { model with sources := model.sources + 1 }

/-- The constructions written anywhere in the model. -/
def constructions (model : Model) : List Feature :=
  model.bindings.flatMap (·.value.constructions) ++
    model.outputs.flatMap (·.feature.constructions)

end Model

end PartScript
