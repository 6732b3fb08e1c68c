/-
  The names that an expression uses as values, with the kinds as which it uses them: its own
  and those in the arguments of the constructions in it. Names of features are none of them;
  they may be bound later.
-/
import Mathlib.Data.List.Nodup
import PartScript.Proofs.Walk
import PartScript.Registry

namespace PartScript

/-- Names with the kinds as which they are used. -/
abbrev Symbols := List (SymbolKind × String)

mutual

/-- The symbols anywhere in an expression. -/
def ScalarExpr.symbols : ScalarExpr → Symbols
  | .literal _ => []
  | .symbol name => [(.scalar, name)]
  | .neg operand => operand.symbols
  | .binary _ left right => left.symbols ++ right.symbols
  | .call _ operand => operand.symbols
  | .dot left right => left.symbols ++ right.symbols
  | .magnitude operand => operand.symbols
  | .component operand _ => operand.symbols
  | .value feature _ => feature.symbols

def VectorExpr.symbols : VectorExpr → Symbols
  | .literal x y z => x.symbols ++ (y.symbols ++ z.symbols)
  | .symbol name => [(.vector, name)]
  | .neg operand => operand.symbols
  | .add left right => left.symbols ++ right.symbols
  | .sub left right => left.symbols ++ right.symbols
  | .scale operand factor => operand.symbols ++ factor.symbols
  | .divide operand divisor => operand.symbols ++ divisor.symbols
  | .cross left right => left.symbols ++ right.symbols
  | .normalize operand => operand.symbols
  | .point feature _ => feature.symbols
  | .part datum _ => datum.symbols

def DatumExpr.symbols : DatumExpr → Symbols
  | .point location => location.symbols
  | .axis origin direction => origin.symbols ++ direction.symbols
  | .plane origin normal => origin.symbols ++ normal.symbols
  | .symbol name => [(.datum, name)]

def SelectionExpr.symbols : SelectionExpr → Symbols
  | .query _ feature _ => feature.symbols
  | .union left right => left.symbols ++ right.symbols
  | .difference left right => left.symbols ++ right.symbols
  | .symbol name => [(.selection, name)]

def FeatureRef.symbols : FeatureRef → Symbols
  | .named _ => []
  | .inline feature => feature.symbols
  | .sub base _ => base.symbols

def Feature.symbols : Feature → Symbols
  | .construct _ _ arguments _ _ => Argument.symbolsIn arguments

def Argument.symbolsIn : List Argument → Symbols
  | [] => []
  | argument :: rest => argument.symbols ++ Argument.symbolsIn rest

def Argument.symbols : Argument → Symbols
  | .scalar value => value.symbols
  | .vector value => value.symbols
  | .datum value => value.symbols
  | .feature value => value.symbols
  | .selection value => value.symbols
  | .keyword _ => []

end

/-- The symbols anywhere in a bound value. -/
def BoundValue.symbols : BoundValue → Symbols
  | .scalar value => value.symbols
  | .vector value => value.symbols
  | .datum value => value.symbols
  | .feature value => value.symbols
  | .selection value => value.symbols

/-! ## Symbols that are asked for -/

/-- The names among the items are among the symbols. -/
def Item.Spelled (symbols : Symbols) (items : List Item) : Prop :=
  ∀ kind name, Item.symbol kind name ∈ items → (kind, name) ∈ symbols

namespace Item.Spelled

variable {symbols more : Symbols} {items items' : List Item}

theorem nil : Spelled symbols [] := nofun

theorem append (h : Spelled symbols items) (h' : Spelled more items') :
    Spelled (symbols ++ more) (items ++ items') := by
  intro kind name hmem
  rcases List.mem_append.mp hmem with hmem | hmem
  · exact List.mem_append_left _ (h kind name hmem)
  · exact List.mem_append_right _ (h' kind name hmem)

theorem symbol (kind : SymbolKind) (name : String) :
    Spelled [(kind, name)] [.symbol kind name] := by
  intro kind' name' hmem
  cases List.mem_singleton.mp hmem
  exact List.mem_cons_self

/-- A reference is no name of a value. -/
theorem result (r : FeatureRef) : Spelled symbols [.result r] := by simp [Spelled]

theorem identity (r : FeatureRef) : Spelled symbols [.identity r] := by simp [Spelled]

end Item.Spelled

mutual

theorem ScalarExpr.items_spelled : (e : ScalarExpr) → Item.Spelled e.symbols e.items
  | .literal _ => .nil
  | .symbol name => .symbol .scalar name
  | .neg operand => operand.items_spelled
  | .binary _ left right => left.items_spelled.append right.items_spelled
  | .call _ operand => operand.items_spelled
  | .dot left right => left.items_spelled.append right.items_spelled
  | .magnitude operand => operand.items_spelled
  | .component operand _ => operand.items_spelled
  | .value feature _ => .result feature

theorem VectorExpr.items_spelled : (e : VectorExpr) → Item.Spelled e.symbols e.items
  | .literal x y z => x.items_spelled.append (y.items_spelled.append z.items_spelled)
  | .symbol name => .symbol .vector name
  | .neg operand => operand.items_spelled
  | .add left right => left.items_spelled.append right.items_spelled
  | .sub left right => left.items_spelled.append right.items_spelled
  | .scale operand factor => operand.items_spelled.append factor.items_spelled
  | .divide operand divisor => operand.items_spelled.append divisor.items_spelled
  | .cross left right => left.items_spelled.append right.items_spelled
  | .normalize operand => operand.items_spelled
  | .point feature _ => .result feature
  | .part datum _ => datum.items_spelled

theorem DatumExpr.items_spelled : (e : DatumExpr) → Item.Spelled e.symbols e.items
  | .point location => location.items_spelled
  | .axis origin direction => origin.items_spelled.append direction.items_spelled
  | .plane origin normal => origin.items_spelled.append normal.items_spelled
  | .symbol name => .symbol .datum name

end

theorem SelectionExpr.items_spelled : (e : SelectionExpr) → Item.Spelled e.symbols e.items
  | .query _ feature _ =>
    .append (Item.Spelled.identity feature : Item.Spelled [] _) (.result feature)
  | .union left right => left.items_spelled.append right.items_spelled
  | .difference left right => left.items_spelled.append right.items_spelled
  | .symbol name => .symbol .selection name

theorem Argument.items_spelled (a : Argument) : Item.Spelled a.symbols a.items := by
  cases a with
  | scalar value => exact value.items_spelled
  | vector value => exact value.items_spelled
  | datum value => exact value.items_spelled
  | feature value => exact .identity value
  | selection value => exact value.items_spelled
  | keyword word => exact .nil

theorem Argument.itemsIn_spelled (as : List Argument) :
    Item.Spelled (Argument.symbolsIn as) (Argument.itemsIn as) := by
  induction as with
  | nil => exact .nil
  | cons a rest ih => exact a.items_spelled.append ih

theorem Feature.items_spelled (f : Feature) : Item.Spelled f.symbols f.items := by
  cases f with
  | construct _ _ arguments _ _ => exact Argument.itemsIn_spelled arguments

theorem BoundValue.items_spelled (v : BoundValue) : Item.Spelled v.symbols v.items := by
  cases v with
  | scalar value => exact value.items_spelled
  | vector value => exact value.items_spelled
  | datum value => exact value.items_spelled
  | feature value => exact .nil
  | selection value => exact value.items_spelled

/-! ## Symbols of constructions -/

/-- The symbols of constructions are among others. -/
def Feature.SpelledIn (symbols : Symbols) (fs : List Feature) : Prop :=
  ∀ f ∈ fs, f.symbols ⊆ symbols

namespace Feature.SpelledIn

variable {symbols more : Symbols} {fs gs : List Feature}

theorem nil : SpelledIn symbols [] := by simp [SpelledIn]

theorem append (h : SpelledIn symbols fs) (h' : SpelledIn more gs) :
    SpelledIn (symbols ++ more) (fs ++ gs) := by
  intro f hf
  rcases List.mem_append.mp hf with hf | hf
  · exact List.Subset.trans (h f hf) (List.subset_append_left _ _)
  · exact List.Subset.trans (h' f hf) (List.subset_append_right _ _)

theorem cons {f : Feature} (hf : f.symbols ⊆ symbols) (h : SpelledIn symbols fs) :
    SpelledIn symbols (f :: fs) := List.forall_mem_cons.mpr ⟨hf, h⟩

end Feature.SpelledIn

mutual

theorem ScalarExpr.constructions_spelled :
    (e : ScalarExpr) → Feature.SpelledIn e.symbols e.constructions
  | .literal _ => .nil
  | .symbol _ => .nil
  | .neg operand => operand.constructions_spelled
  | .binary _ left right => left.constructions_spelled.append right.constructions_spelled
  | .call _ operand => operand.constructions_spelled
  | .dot left right => left.constructions_spelled.append right.constructions_spelled
  | .magnitude operand => operand.constructions_spelled
  | .component operand _ => operand.constructions_spelled
  | .value feature _ => feature.constructions_spelled

theorem VectorExpr.constructions_spelled :
    (e : VectorExpr) → Feature.SpelledIn e.symbols e.constructions
  | .literal x y z =>
    x.constructions_spelled.append (y.constructions_spelled.append z.constructions_spelled)
  | .symbol _ => .nil
  | .neg operand => operand.constructions_spelled
  | .add left right => left.constructions_spelled.append right.constructions_spelled
  | .sub left right => left.constructions_spelled.append right.constructions_spelled
  | .scale operand factor => operand.constructions_spelled.append factor.constructions_spelled
  | .divide operand divisor => operand.constructions_spelled.append divisor.constructions_spelled
  | .cross left right => left.constructions_spelled.append right.constructions_spelled
  | .normalize operand => operand.constructions_spelled
  | .point feature _ => feature.constructions_spelled
  | .part datum _ => datum.constructions_spelled

theorem DatumExpr.constructions_spelled :
    (e : DatumExpr) → Feature.SpelledIn e.symbols e.constructions
  | .point location => location.constructions_spelled
  | .axis origin direction => origin.constructions_spelled.append direction.constructions_spelled
  | .plane origin normal => origin.constructions_spelled.append normal.constructions_spelled
  | .symbol _ => .nil

theorem SelectionExpr.constructions_spelled :
    (e : SelectionExpr) → Feature.SpelledIn e.symbols e.constructions
  | .query _ feature _ => feature.constructions_spelled
  | .union left right => left.constructions_spelled.append right.constructions_spelled
  | .difference left right => left.constructions_spelled.append right.constructions_spelled
  | .symbol _ => .nil

theorem FeatureRef.constructions_spelled :
    (r : FeatureRef) → Feature.SpelledIn r.symbols r.constructions
  | .named _ => .nil
  | .inline feature => feature.constructions_spelled
  | .sub base _ => base.constructions_spelled

theorem Feature.constructions_spelled :
    (f : Feature) → Feature.SpelledIn f.symbols f.constructions
  | .construct _ _ arguments _ _ =>
    .cons (List.Subset.refl _) (Argument.constructionsIn_spelled arguments)

theorem Argument.constructionsIn_spelled :
    (as : List Argument) → Feature.SpelledIn (Argument.symbolsIn as) (Argument.constructionsIn as)
  | [] => .nil
  | argument :: rest =>
    argument.constructions_spelled.append (Argument.constructionsIn_spelled rest)

theorem Argument.constructions_spelled :
    (a : Argument) → Feature.SpelledIn a.symbols a.constructions
  | .scalar value => value.constructions_spelled
  | .vector value => value.constructions_spelled
  | .datum value => value.constructions_spelled
  | .feature value => value.constructions_spelled
  | .selection value => value.constructions_spelled
  | .keyword _ => .nil

end

theorem BoundValue.constructions_spelled (v : BoundValue) :
    Feature.SpelledIn v.symbols v.constructions := by
  cases v with
  | scalar value => exact value.constructions_spelled
  | vector value => exact value.constructions_spelled
  | datum value => exact value.constructions_spelled
  | feature value => exact value.constructions_spelled
  | selection value => exact value.constructions_spelled

/-! ## Scopes -/

/-- Each name is bound, to a value of the kind as which it is used. -/
def Symbols.DeclaredBy (symbols : Symbols) (bindings : List Binding) : Prop :=
  ∀ kind name, (kind, name) ∈ symbols → ∃ b ∈ bindings, b.name = name ∧ b.value.kind = kind

/-- Bindings of different names, none of which means something else, and output requests. A
bound value uses names that are bound before it only. -/
structure Scoped (registry : Registry) (bs : List Binding) (outputs : List OutputRequest) :
    Prop where
  distinct : (bs.map (·.name)).Nodup
  free : ∀ b ∈ bs, isReserved b.name = false ∧ registry.contains b.name = false
  bindings : ∀ before b after, bs = before ++ b :: after → b.value.symbols.DeclaredBy before
  outputs : ∀ output ∈ outputs, output.feature.symbols.DeclaredBy bs

theorem Symbols.DeclaredBy.mono {symbols : Symbols} {bs bs' : List Binding}
    (h : symbols.DeclaredBy bs) (hsub : bs ⊆ bs') : symbols.DeclaredBy bs' := by
  intro kind name hmem
  obtain ⟨b, hb, hname⟩ := h kind name hmem
  exact ⟨b, hsub hb, hname⟩

namespace Scoped

variable {registry : Registry} {bs : List Binding} {outputs : List OutputRequest}

theorem empty (registry : Registry) : Scoped registry [] [] :=
  ⟨List.nodup_nil, by simp, by simp, by simp⟩

/-- A binding of a free name, which uses names that are bound. -/
theorem bind (h : Scoped registry bs outputs) {b : Binding}
    (hfree : isReserved b.name = false ∧ registry.contains b.name = false)
    (hnew : ∀ x ∈ bs, x.name ≠ b.name) (hb : b.value.symbols.DeclaredBy bs) :
    Scoped registry (bs ++ [b]) outputs where
  distinct := by
    rw [List.map_append]
    refine List.Nodup.append h.distinct (List.nodup_singleton _) fun name hname hname' => ?_
    obtain ⟨x, hx, rfl⟩ := List.mem_map.mp hname
    exact hnew x hx (List.mem_singleton.mp hname')
  free := fun x hx => by
    rcases List.mem_append.mp hx with hx | hx
    · exact h.free x hx
    · obtain rfl := List.mem_singleton.mp hx
      exact hfree
  bindings := fun before x after hsplit => by
    rcases List.eq_nil_or_concat after with rfl | ⟨after', last, rfl⟩
    · obtain ⟨rfl, rfl⟩ := List.append_singleton_inj.mp hsplit
      exact hb
    · rw [List.concat_eq_append, ← List.cons_append, ← List.append_assoc] at hsplit
      obtain ⟨hinit, -⟩ := List.append_singleton_inj.mp hsplit
      exact h.bindings before x after' hinit
  outputs := fun output houtput => (h.outputs output houtput).mono (List.subset_append_left _ _)

/-- An output request that uses names that are bound. -/
theorem request (h : Scoped registry bs outputs) {output : OutputRequest}
    (houtput : output.feature.symbols.DeclaredBy bs) :
    Scoped registry bs (outputs ++ [output]) where
  distinct := h.distinct
  free := h.free
  bindings := h.bindings
  outputs := fun x hx => by
    rcases List.mem_append.mp hx with hx | hx
    · exact h.outputs x hx
    · obtain rfl := List.mem_singleton.mp hx
      exact houtput

end Scoped

end PartScript
