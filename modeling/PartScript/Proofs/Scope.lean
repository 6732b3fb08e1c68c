/-
  What evaluations ask for. The items of an expression are the names that it follows and the
  features that it identifies or builds, in the order in which they are evaluated. Two
  evaluations of one expression, over models of which one extends the other and over results
  that are alike, keep step: they make the same demands for the same items, and go on alike
  after answers that are alike.
-/
import PartScript.Build.Evaluation
import PartScript.Proofs.Alike
import PartScript.Proofs.Names

namespace PartScript

/-! ## Items -/

/-- What an evaluation asks for: the value of a name, or the identity or the result of what a
reference designates. -/
inductive Item where
  | symbol (kind : SymbolKind) (name : String)
  | identity (reference : FeatureRef)
  | result (reference : FeatureRef)

mutual

/-- The items of an expression, without those of the features in it. -/
def ScalarExpr.items : ScalarExpr → List Item
  | .literal _ => []
  | .symbol name => [.symbol .scalar name]
  | .neg operand => operand.items
  | .binary _ left right => left.items ++ right.items
  | .call _ operand => operand.items
  | .dot left right => left.items ++ right.items
  | .magnitude operand => operand.items
  | .component operand _ => operand.items
  | .value feature _ => [.result feature]

def VectorExpr.items : VectorExpr → List Item
  | .literal x y z => x.items ++ (y.items ++ z.items)
  | .symbol name => [.symbol .vector name]
  | .neg operand => operand.items
  | .add left right => left.items ++ right.items
  | .sub left right => left.items ++ right.items
  | .scale operand factor => operand.items ++ factor.items
  | .divide operand divisor => operand.items ++ divisor.items
  | .cross left right => left.items ++ right.items
  | .normalize operand => operand.items
  | .point feature _ => [.result feature]
  | .part datum _ => datum.items

def DatumExpr.items : DatumExpr → List Item
  | .point location => location.items
  | .axis origin direction => origin.items ++ direction.items
  | .plane origin normal => origin.items ++ normal.items
  | .symbol name => [.symbol .datum name]

end

/-- A query identifies its feature before it builds it. -/
def SelectionExpr.items : SelectionExpr → List Item
  | .query _ feature _ => [.identity feature, .result feature]
  | .union left right => left.items ++ right.items
  | .difference left right => left.items ++ right.items
  | .symbol name => [.symbol .selection name]

namespace Argument

/-- A feature as an argument is identified only. -/
def items : Argument → List Item
  | .scalar value => value.items
  | .vector value => value.items
  | .datum value => value.items
  | .feature value => [.identity value]
  | .selection value => value.items
  | .keyword _ => []

def itemsIn : List Argument → List Item
  | [] => []
  | argument :: rest => argument.items ++ itemsIn rest

end Argument

/-- The items of the arguments of a construction. -/
def Feature.items (f : Feature) : List Item := Argument.itemsIn f.arguments

/-- The items of a bound value. References are followed by name, not evaluated. -/
def BoundValue.items : BoundValue → List Item
  | .scalar value => value.items
  | .vector value => value.items
  | .datum value => value.items
  | .feature _ => []
  | .selection value => value.items

/-- A demand is made for an item while the arguments of `user` are evaluated. -/
inductive Item.Makes (M : Model) (user : Option String) : Item → Demand → Prop where
  | scalar {name b value} : M.binding? name = some b → b.value = .scalar value →
      Makes M user (.symbol .scalar name) (.scalar user value)
  | vector {name b value} : M.binding? name = some b → b.value = .vector value →
      Makes M user (.symbol .vector name) (.vector user value)
  | datum {name b value} : M.binding? name = some b → b.value = .datum value →
      Makes M user (.symbol .datum name) (.datum user value)
  | selection {name b value} : M.binding? name = some b → b.value = .selection value →
      Makes M user (.symbol .selection name) (.selection user value)
  | identity {r root path} : M.target r = .ok (root, path) →
      Makes M user (.identity r) (.hash root)
  | result {r root path} : M.target r = .ok (root, path) →
      Makes M user (.result r) (.build root)

/-! ## Answers that are alike -/

/-- Selections that differ in their shapes only, which are related. -/
structure Selection.Related (B : BuildResult → BuildResult → Prop) (t t' : Selection) :
    Prop where
  source : t.source = t'.source
  sourceLabel : t.sourceLabel = t'.sourceLabel
  kind : t.kind = t'.kind
  ids : t.ids = t'.ids
  shape : B t.shape t'.shape

theorem Selection.Related.refl {B : BuildResult → BuildResult → Prop} (hB : ∀ r, B r r)
    (t : Selection) : t.Related B t := ⟨rfl, rfl, rfl, rfl, hB _⟩

theorem Selection.Related.eq {t t' : Selection} (h : t.Related Eq t') : t = t' := by
  cases t
  cases t'
  obtain ⟨h1, h2, h3, h4, h5⟩ := h
  simp_all

/-- Related answers to a demand. -/
def Demand.Related (B : BuildResult → BuildResult → Prop) :
    (d : Demand) → d.Answer → d.Answer → Prop
  | .scalar _ _ => Eq
  | .vector _ _ => Eq
  | .datum _ _ => Eq
  | .selection _ _ => Selection.Related B
  | .hash _ => Eq
  | .build _ => B

theorem Demand.Related.refl {B : BuildResult → BuildResult → Prop} (hB : ∀ r, B r r)
    (d : Demand) (a : d.Answer) : d.Related B a a := by
  cases d with
  | selection user value => exact Selection.Related.refl hB a
  | build f => exact hB a
  | _ => exact rfl

theorem Demand.Related.eq {d : Demand} {a a' : d.Answer} (h : d.Related Eq a a') : a = a' := by
  cases d with
  | selection user value => exact Selection.Related.eq h
  | _ => exact h

theorem Demand.Related.trans_eq {B : BuildResult → BuildResult → Prop} {d : Demand}
    {a a' a'' : d.Answer} (h : d.Related B a a') (h' : d.Related Eq a' a'') : d.Related B a a'' := by
  rw [← Demand.Related.eq h']
  exact h

/-- Evaluated arguments that differ in the shapes of selections only. -/
inductive ResolvedArgument.Related (B : BuildResult → BuildResult → Prop) :
    ResolvedArgument → ResolvedArgument → Prop where
  | scalar (value : Float) : Related B (.scalar value) (.scalar value)
  | vector (value : Vec3) : Related B (.vector value) (.vector value)
  | datum (value : Datum) : Related B (.datum value) (.datum value)
  | keyword (word : String) : Related B (.keyword word) (.keyword word)
  | feature (value : ResolvedFeature) : Related B (.feature value) (.feature value)
  | selection {t t' : Selection} : t.Related B t' → Related B (.selection t) (.selection t')

theorem ResolvedArgument.Related.refl {B : BuildResult → BuildResult → Prop} (hB : ∀ r, B r r)
    (a : ResolvedArgument) : a.Related B a := by
  cases a with
  | scalar value => exact .scalar value
  | vector value => exact .vector value
  | datum value => exact .datum value
  | keyword word => exact .keyword word
  | feature value => exact .feature value
  | selection t => exact .selection (.refl hB t)

/-- Inputs of builds that differ in related results only. -/
inductive Input.Related (B : BuildResult → BuildResult → Prop) : Input → Input → Prop where
  | scalar (value : Float) : Related B (.scalar value) (.scalar value)
  | vector (value : Vec3) : Related B (.vector value) (.vector value)
  | datum (value : Datum) : Related B (.datum value) (.datum value)
  | keyword (word : String) : Related B (.keyword word) (.keyword word)
  | shape {r r'} : B r r' → Related B (.shape r) (.shape r')
  | selection {t t' : Selection} : t.Related B t' → Related B (.selection t) (.selection t')

/-- The shape of a selection is not part of any identity. -/
theorem ResolvedArgument.Related.encoding {B : BuildResult → BuildResult → Prop}
    {a a' : ResolvedArgument} (h : a.Related B a') :
    Encoding.argument a = Encoding.argument a' := by
  cases h with
  | selection h =>
    simp only [Encoding.argument, Encoding.selection, h.source, h.kind, h.ids]
  | _ => rfl

theorem ResolvedArgument.Related.eq {a a' : ResolvedArgument} (h : a.Related Eq a') :
    a = a' := by
  cases h with
  | selection h => rw [h.eq]
  | _ => rfl

theorem ResolvedArgument.forall₂_eq {as as' : List ResolvedArgument}
    (h : List.Forall₂ (ResolvedArgument.Related Eq) as as') : as = as' := by
  induction h with
  | nil => rfl
  | cons ha _ ih => rw [ha.eq, ih]

/-- Arguments that are encoded alike give one identity. -/
theorem Description.hash_congr {as as' : List ResolvedArgument}
    (h : List.Forall₂ (fun a a' => Encoding.argument a = Encoding.argument a') as as')
    (typeName : String) :
    (Description.feature typeName as).hash = (Description.feature typeName as').hash := by
  have hbytes : as.flatMap Encoding.argument = as'.flatMap Encoding.argument := by
    induction h with
    | nil => rfl
    | cons ha _ ih => rw [List.flatMap_cons, List.flatMap_cons, ha, ih]
  simp only [Description.hash, Description.stream, Encoding.feature, hbytes, h.length_eq]

/-- Related arguments give one identity. -/
theorem ResolvedArgument.Related.hash_eq {B : BuildResult → BuildResult → Prop}
    {as as' : List ResolvedArgument} (h : List.Forall₂ (ResolvedArgument.Related B) as as')
    (typeName : String) :
    (Description.feature typeName as).hash = (Description.feature typeName as').hash :=
  Description.hash_congr (h.imp fun _ _ ha => ha.encoding) typeName

/-! ## Plans that keep step -/

/-- The identity that an evaluated argument refers to, if it does. -/
def ResolvedArgument.ref? : ResolvedArgument → Option StructuralHash
  | feature value => some value.hash
  | selection value => some value.source
  | _ => none

/-- The identities that a description refers to. -/
def Description.refs : Description → List StructuralHash
  | feature _ arguments => arguments.filterMap ResolvedArgument.ref?
  | subResult root _ => [root]

/-- Two evaluations side by side, and the relation between the results that they read. With
`lax`, the second may find names bound that the first does not. -/
structure Pairing where
  ev : Evaluation
  ev' : Evaluation
  lax : Prop
  B : BuildResult → BuildResult → Prop

/-- The identities that an answer makes known. -/
def Demand.learn : (d : Demand) → d.Answer → List StructuralHash
  | .hash _, answer => [answer]
  | _, _ => []

/-- One of the items asks for a reference whose chain of aliases is cyclic. -/
def Model.Knotted (M : Model) (items : List Item) : Prop :=
  ∃ r, (Item.identity r ∈ items ∨ Item.result r ∈ items) ∧ M.AliasCyclic r

theorem Model.Knotted.mono {M : Model} {items more : List Item} (h : M.Knotted items)
    (hsub : items ⊆ more) : M.Knotted more := by
  obtain ⟨r, hr, hcyclic⟩ := h
  exact ⟨r, hr.imp (fun h => hsub h) (fun h => hsub h), hcyclic⟩

/-- A name is not bound to a value of the kind: it is not bound at all, and then the error may
go away, or it is bound to a value of another kind. -/
def Model.Lacks (M : Model) (kind : SymbolKind) (name : String) (e : BuildError) : Prop :=
  M.binding? name = none ∧ e.isDeferred = true ∨
    ∃ b, M.binding? name = some b ∧ b.value.kind ≠ kind

/-- A plan that asks for the items may stop with the error. A circular dependency is a cyclic
chain of aliases, and a name that is blamed is one that is asked for and lacks a value of its
kind, unless it is blamed for not being that of a feature. -/
structure Model.Explains (M : Model) (items : List Item) (e : BuildError) : Prop where
  circular : e.cause = .circular → M.Knotted items
  blamed : ∀ kind name, e.blamed? = some (kind, name) →
    kind = .feature ∨ Item.symbol kind name ∈ items ∧ M.Lacks kind name e

namespace Model.Explains

variable {M : Model} {items more : List Item} {e : BuildError}

theorem mono (h : M.Explains items e) (hsub : items ⊆ more) : M.Explains more e where
  circular := fun hc => (h.circular hc).mono hsub
  blamed := fun kind name he => (h.blamed kind name he).imp id (And.imp_left fun hmem => hsub hmem)

/-- A reference that leads nowhere. -/
theorem target {r : FeatureRef} (h : M.target r = .error e)
    (hr : Item.identity r ∈ items ∨ Item.result r ∈ items) : M.Explains items e where
  circular := fun hc => ⟨r, hr, target_circular h hc⟩
  blamed := fun _ _ he => .inl (target_blamed h he)

/-- A name that is not bound. -/
theorem unbound {kind : SymbolKind} {name : String} (hb : M.binding? name = none)
    (hname : Item.symbol kind name ∈ items) :
    M.Explains items (.unresolvedReference kind name) where
  circular := nofun
  blamed := by
    rintro _ _ ⟨⟩
    exact .inr ⟨hname, .inl ⟨hb, rfl⟩⟩

/-- A name that is bound to a value of another kind. -/
theorem mismatch {kind : SymbolKind} {name : String} {b : Binding} {value : BoundValue}
    (hb : M.binding? name = some b) (hv : b.value = value) (hkind : value.kind ≠ kind)
    (hname : Item.symbol kind name ∈ items) :
    M.Explains items (.kindMismatch name kind value.kind) where
  circular := nofun
  blamed := by
    rintro _ _ ⟨⟩
    exact .inr ⟨hname, .inr ⟨b, hb, hv ▸ hkind⟩⟩

end Model.Explains

/-- Two plans that ask for the same items in the same order while the arguments of `user` are
evaluated, and end in related values. What is described on the way refers to identities that
are `known`. -/
inductive Plan.Matches (c : Pairing) (user : Option String) {α : Type} (R : α → α → Prop) :
    List StructuralHash → List Item → Plan α → Plan α → Prop where
  | done {known a a'} : R a a' → Matches c user R known [] (.done a) (.done a')
  | stop {known items e e'} : e.cause = e'.cause → c.ev.model.Explains items e →
      Matches c user R known items (.stop e) (.stop e')
  | unbound {known items e p'} : c.lax → e.isDeferred = true →
      Matches c user R known items (.stop e) p'
  | demand {known item items} {d : Demand} {reported : Option String} {next next'} :
      item.Makes c.ev.model user d → item.Makes c.ev'.model user d →
      (∀ a a', d.Related c.B a a' →
        Matches c user R (d.learn a ++ known) items (next a) (next' a')) →
      Matches c user R known (item :: items) (.demand d reported next) (.demand d reported next')
  | identify {known items} {d : Description} {next next'} : d.refs ⊆ known →
      (∀ h, Matches c user R known items (next h) (next' h)) →
      Matches c user R known items (.identify d next) (.identify d next')

/-- What makes two evaluations keep step. -/
structure Pairing.Sound (c : Pairing) : Prop where
  congruence : BuildResult.Congruence c.B
  select : ∀ {r r'}, c.B r r' → ∀ kind filter,
    c.ev.backend.select r kind filter = c.ev'.backend.select r' kind filter
  names : c.ev.model = c.ev'.model ∨ c.lax ∧ c.ev'.model.Extends c.ev.model

namespace Plan.Matches

variable {c : Pairing} {user : Option String} {α β : Type} {R : α → α → Prop}
  {S : β → β → Prop} {known more : List StructuralHash} {items items' : List Item}
  {p p' : Plan α} {f f' : α → Plan β}

theorem weaken (h : Matches c user R known items p p') (hk : known ⊆ more) :
    Matches c user R more items p p' := by
  induction h generalizing more with
  | done h => exact .done h
  | stop h hexplained => exact .stop h hexplained
  | unbound hl h => exact .unbound hl h
  | @demand known item items d reported next next' hm hm' _ ih =>
    refine .demand hm hm' fun a a' ha => ih a a' ha ?_
    intro x hx
    rcases List.mem_append.mp hx with hx | hx
    · exact List.mem_append_left _ hx
    · exact List.mem_append_right _ (hk hx)
  | identify hr _ ih => exact .identify (List.Subset.trans hr hk) fun h => ih h hk

theorem bind (h : Matches c user R known items p p')
    (hf : ∀ a a', R a a' → Matches c user S [] items' (f a) (f' a')) :
    Matches c user S known (items ++ items') (p >>= f) (p' >>= f') := by
  induction h with
  | done h => exact (hf _ _ h).weaken (List.nil_subset _)
  | stop h hexplained => exact .stop h (hexplained.mono (List.subset_append_left _ _))
  | unbound hl h => exact .unbound hl h
  | demand hm hm' _ ih => exact .demand hm hm' fun a a' ha => ih a a' ha
  | identify hr _ ih => exact .identify hr fun h => ih h

/-- What follows asks for nothing more. -/
theorem map (h : Matches c user R known items p p')
    (hf : ∀ a a', R a a' → Matches c user S [] [] (f a) (f' a')) :
    Matches c user S known items (p >>= f) (p' >>= f') := by
  simpa using h.bind hf

/-- Both plans go on to the same value of what they have read alike. -/
theorem lift (h : Matches c user Eq known items p p') (g : α → β) :
    Matches c user Eq known items (p >>= fun a => pure (g a)) (p' >>= fun a => pure (g a)) := by
  refine h.map ?_
  rintro a _ rfl
  exact .done rfl

theorem lift₂ {γ : Type} {q q' : Plan β} (h : Matches c user Eq known items p p')
    (h' : Matches c user Eq [] items' q q') (g : α → β → γ) :
    Matches c user Eq known (items ++ items') (p >>= fun a => q >>= fun b => pure (g a b))
      (p' >>= fun a => q' >>= fun b => pure (g a b)) := by
  refine h.bind ?_
  rintro a _ rfl
  exact h'.lift (g a)

/-- What is known of the values may be less. -/
theorem imp {T : α → α → Prop} (h : Matches c user R known items p p')
    (hT : ∀ a a', R a a' → T a a') : Matches c user T known items p p' := by
  induction h with
  | done h => exact .done (hT _ _ h)
  | stop h hexplained => exact .stop h hexplained
  | unbound hl h => exact .unbound hl h
  | demand hm hm' _ ih => exact .demand hm hm' ih
  | identify hr _ ih => exact .identify hr ih

end Plan.Matches

end PartScript
