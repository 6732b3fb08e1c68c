/-
  The label under which an expression is evaluated names the feature that a failed input is
  reported for, and nothing else. So what one feature's arguments are evaluated to from what is
  remembered, equal arguments of a feature with another label are evaluated to as well.
-/
import PartScript.Proofs.Recall

namespace PartScript

/-! ## Plans under another label -/

namespace Plan

variable {ev : Evaluation} {s : BuildState} {α β : Type}

/-- The same plan, evaluated for the arguments of another feature. -/
def relabel (user : Option String) : Plan α → Plan α
  | done value => done value
  | stop error => stop error
  | demand (.scalar _ value) _ next =>
    demand (.scalar user value) none fun x => (next x).relabel user
  | demand (.vector _ value) _ next =>
    demand (.vector user value) none fun x => (next x).relabel user
  | demand (.datum _ value) _ next =>
    demand (.datum user value) none fun x => (next x).relabel user
  | demand (.selection _ value) _ next =>
    demand (.selection user value) none fun x => (next x).relabel user
  | demand (.hash f) _ next => demand (.hash f) user fun x => (next x).relabel user
  | demand (.build f) _ next => demand (.build f) user fun x => (next x).relabel user
  | identify description next => identify description fun x => (next x).relabel user

theorem relabel_bind (user : Option String) (p : Plan α) (f : α → Plan β) :
    (p >>= f).relabel user = p.relabel user >>= fun a => (f a).relabel user := by
  change (p.andThen f).relabel user = (p.relabel user).andThen fun a => (f a).relabel user
  induction p with
  | done value => rfl
  | stop error => rfl
  | demand d reported next ih =>
    cases d with
    | scalar within value => exact congrArg (demand (.scalar user value) none) (funext ih)
    | vector within value => exact congrArg (demand (.vector user value) none) (funext ih)
    | datum within value => exact congrArg (demand (.datum user value) none) (funext ih)
    | selection within value => exact congrArg (demand (.selection user value) none) (funext ih)
    | hash g => exact congrArg (demand (.hash g) user) (funext ih)
    | build g => exact congrArg (demand (.build g) user) (funext ih)
  | identify description next ih => exact congrArg (identify description) (funext ih)

theorem relabel_pure (user : Option String) (a : α) : (pure a : Plan α).relabel user = pure a := rfl

theorem relabel_ofExcept (user : Option String) (x : Except BuildError α) :
    (ofExcept x).relabel user = ofExcept x := by
  cases x <;> rfl

end Plan

namespace Evaluation

variable (ev : Evaluation) (user user' : Option String)

open Plan

/-! ## Expressions -/

theorem resolve_relabel (reference : FeatureRef) :
    (ev.resolve user reference).relabel user' = ev.resolve user' reference := by
  unfold resolve
  rw [relabel_bind, relabel_ofExcept]
  congr
  funext ⟨root, path⟩
  simp only [relabel_bind]
  congr
  funext hash
  split
  · rfl
  · rfl

theorem buildBelow_relabel (root : Feature) (path : List String) :
    (buildBelow user root path).relabel user' = buildBelow user' root path := by
  unfold buildBelow
  rw [relabel_bind]
  congr
  funext result
  exact relabel_ofExcept user' _

theorem buildReference_relabel (reference : FeatureRef) :
    (ev.buildReference user reference).relabel user' = ev.buildReference user' reference := by
  unfold buildReference
  rw [relabel_bind, relabel_ofExcept]
  congr
  funext ⟨root, path⟩
  exact buildBelow_relabel user user' root path

theorem bound_relabel (name : String) (kind : SymbolKind) :
    (ev.bound name kind).relabel user' = ev.bound name kind := by
  unfold bound
  cases ev.model.binding? name <;> rfl

theorem direction_relabel (what : String) (v : Vec3) :
    (direction what v).relabel user' = direction what v := by
  unfold direction
  cases v.unit? <;> rfl

mutual

theorem scalar_relabel : (e : ScalarExpr) →
    (ev.scalar user e).relabel user' = ev.scalar user' e
  | .literal value => by
    rw [Evaluation.scalar, Evaluation.scalar, relabel_pure]
  | .symbol name => by
    rw [Evaluation.scalar, Evaluation.scalar, relabel_bind, bound_relabel]
    congr
    funext value
    cases value <;> rfl
  | .neg e => by
    simp only [Evaluation.scalar, relabel_bind, relabel_pure, scalar_relabel e]
  | .binary op l r => by
    simp only [Evaluation.scalar, relabel_bind, relabel_pure, scalar_relabel l, scalar_relabel r]
  | .call fn e => by
    simp only [Evaluation.scalar, relabel_bind, relabel_pure, scalar_relabel e]
  | .dot l r => by
    simp only [Evaluation.scalar, relabel_bind, relabel_pure, vector_relabel l, vector_relabel r]
  | .magnitude e => by
    simp only [Evaluation.scalar, relabel_bind, relabel_pure, vector_relabel e]
  | .component e which => by
    simp only [Evaluation.scalar, relabel_bind, relabel_pure, vector_relabel e]
  | .value r name => by
    rw [Evaluation.scalar, Evaluation.scalar, relabel_bind, buildReference_relabel]
    congr
    funext result
    cases result.value? name <;> rfl

theorem vector_relabel : (e : VectorExpr) →
    (ev.vector user e).relabel user' = ev.vector user' e
  | .literal x y z => by
    simp only [Evaluation.vector, relabel_bind, relabel_pure, scalar_relabel x, scalar_relabel y,
      scalar_relabel z]
  | .symbol name => by
    rw [Evaluation.vector, Evaluation.vector, relabel_bind, bound_relabel]
    congr
    funext value
    cases value <;> rfl
  | .neg e => by
    simp only [Evaluation.vector, relabel_bind, relabel_pure, vector_relabel e]
  | .add l r => by
    simp only [Evaluation.vector, relabel_bind, relabel_pure, vector_relabel l, vector_relabel r]
  | .sub l r => by
    simp only [Evaluation.vector, relabel_bind, relabel_pure, vector_relabel l, vector_relabel r]
  | .scale e x => by
    simp only [Evaluation.vector, relabel_bind, relabel_pure, vector_relabel e, scalar_relabel x]
  | .divide e x => by
    simp only [Evaluation.vector, relabel_bind, relabel_pure, vector_relabel e, scalar_relabel x]
  | .cross l r => by
    simp only [Evaluation.vector, relabel_bind, relabel_pure, vector_relabel l, vector_relabel r]
  | .normalize e => by
    simp only [Evaluation.vector, relabel_bind, vector_relabel e, direction_relabel]
  | .point r name => by
    rw [Evaluation.vector, Evaluation.vector, relabel_bind, buildReference_relabel]
    congr
    funext result
    cases result.point? name <;> rfl
  | .part e part => by
    rw [Evaluation.vector, Evaluation.vector, relabel_bind, datum_relabel e]
    congr
    funext value
    cases value.part? part <;> rfl

theorem datum_relabel : (e : DatumExpr) →
    (ev.datum user e).relabel user' = ev.datum user' e
  | .point e => by
    simp only [Evaluation.datum, relabel_bind, relabel_pure, vector_relabel e]
  | .axis o d => by
    simp only [Evaluation.datum, relabel_bind, relabel_pure, vector_relabel o, vector_relabel d,
      direction_relabel]
  | .plane o n => by
    simp only [Evaluation.datum, relabel_bind, relabel_pure, vector_relabel o, vector_relabel n,
      direction_relabel]
  | .symbol name => by
    rw [Evaluation.datum, Evaluation.datum, relabel_bind, bound_relabel]
    congr
    funext value
    cases value <;> rfl

end

/-! ## Selections and arguments -/

theorem query_relabel (kind : EntityKind) (reference : FeatureRef) (filter : String) :
    (ev.query user kind reference filter).relabel user' =
      ev.query user' kind reference filter := by
  unfold query
  rw [relabel_bind, resolve_relabel]
  congr
  funext resolved
  rw [relabel_bind, buildBelow_relabel]
  congr
  funext shape
  cases ev.backend.select shape kind filter <;> rfl

theorem combine_relabel (op : IdSet → IdSet → IdSet) (s t : Selection) :
    (combine op s t).relabel user' = combine op s t := by
  unfold combine
  split <;> rfl

theorem selection_relabel : (e : SelectionExpr) →
    (ev.selection user e).relabel user' = ev.selection user' e
  | .query kind reference filter => by
    rw [Evaluation.selection, Evaluation.selection, query_relabel]
  | .union l r => by
    simp only [Evaluation.selection, relabel_bind, selection_relabel l, selection_relabel r,
      combine_relabel]
  | .difference l r => by
    simp only [Evaluation.selection, relabel_bind, selection_relabel l, selection_relabel r,
      combine_relabel]
  | .symbol name => by
    rw [Evaluation.selection, Evaluation.selection, relabel_bind, bound_relabel]
    congr
    funext value
    cases value <;> rfl

theorem argument_relabel (a : Argument) :
    (ev.argument user a).relabel user' = ev.argument user' a := by
  cases a with
  | scalar e => simp only [argument, relabel_bind, relabel_pure, scalar_relabel]
  | vector e => simp only [argument, relabel_bind, relabel_pure, vector_relabel]
  | datum e => simp only [argument, relabel_bind, relabel_pure, datum_relabel]
  | keyword word => rfl
  | feature reference => simp only [argument, relabel_bind, relabel_pure, resolve_relabel]
  | selection e => simp only [argument, relabel_bind, relabel_pure, selection_relabel]

theorem argumentList_relabel (as : List Argument) :
    (ev.argumentList user as).relabel user' = ev.argumentList user' as := by
  induction as with
  | nil => rfl
  | cons a as ih => simp only [argumentList, relabel_bind, relabel_pure, argument_relabel, ih]

end Evaluation

/-! ## What is remembered -/

/-- A plan has the same value for the arguments of another feature. -/
theorem Plan.Recalls.relabel {ev : Evaluation} {s : BuildState} {α : Type} {p : Plan α} {a : α}
    (h : p.Recalls ev s a) (user : Option String) : (p.relabel user).Recalls ev s a := by
  induction h with
  | done => exact .done
  | hash hh _ ih => exact .hash hh ih
  | build hr _ ih => exact .build hr ih
  | @value _ d _ _ x _ hv _ _ ihx ih =>
    cases d with
    | hash f => exact hv.elim
    | build f => exact hv.elim
    | scalar within e =>
      have hx : (ev.scalar user e).Recalls ev s x := by
        rw [← ev.scalar_relabel within]
        exact ihx
      exact .value True.intro hx ih
    | vector within e =>
      have hx : (ev.vector user e).Recalls ev s x := by
        rw [← ev.vector_relabel within]
        exact ihx
      exact .value True.intro hx ih
    | datum within e =>
      have hx : (ev.datum user e).Recalls ev s x := by
        rw [← ev.datum_relabel within]
        exact ihx
      exact .value True.intro hx ih
    | selection within e =>
      have hx : (ev.selection user e).Recalls ev s x := by
        rw [← ev.selection_relabel within]
        exact ihx
      exact .value True.intro hx ih
  | identify hd _ ih => exact .identify hd ih

/-- Equal arguments of two features are evaluated to the same. -/
theorem Evaluation.arguments_recalls {ev : Evaluation} {s : BuildState} {f g : Feature}
    (heq : f.arguments = g.arguments) {args : List ResolvedArgument}
    (h : (ev.arguments f).Recalls ev s args) : (ev.arguments g).Recalls ev s args := by
  have hg := h.relabel (some g.label)
  rwa [arguments, argumentList_relabel, heq] at hg

end PartScript
