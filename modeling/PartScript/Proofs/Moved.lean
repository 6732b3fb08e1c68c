/-
  Trees whose constructions are written elsewhere. Moving an expression changes where its
  constructions come from and nothing else, so two expressions are the same but for their places if
  they are equal once both are moved to one place. What a grammar asks of an expression (its kind,
  whether an argument fits a parameter, the kind of datum that a name stands for) does not depend on
  places.
-/
import PartScript.Grammar.Script

namespace PartScript

/-! ## Expressions -/

mutual

/-- A scalar expression with every origin in it replaced. -/
def ScalarExpr.moved (f : Origin → Origin) : ScalarExpr → ScalarExpr
  | .literal value => .literal value
  | .symbol name => .symbol name
  | .neg operand => .neg (operand.moved f)
  | .binary op left right => .binary op (left.moved f) (right.moved f)
  | .call fn operand => .call fn (operand.moved f)
  | .dot left right => .dot (left.moved f) (right.moved f)
  | .magnitude operand => .magnitude (operand.moved f)
  | .component operand which => .component (operand.moved f) which
  | .value feature name => .value (feature.moved f) name

def VectorExpr.moved (f : Origin → Origin) : VectorExpr → VectorExpr
  | .literal x y z => .literal (x.moved f) (y.moved f) (z.moved f)
  | .symbol name => .symbol name
  | .neg operand => .neg (operand.moved f)
  | .add left right => .add (left.moved f) (right.moved f)
  | .sub left right => .sub (left.moved f) (right.moved f)
  | .scale operand factor => .scale (operand.moved f) (factor.moved f)
  | .divide operand divisor => .divide (operand.moved f) (divisor.moved f)
  | .cross left right => .cross (left.moved f) (right.moved f)
  | .normalize operand => .normalize (operand.moved f)
  | .point feature name => .point (feature.moved f) name
  | .part datum part => .part (datum.moved f) part

def DatumExpr.moved (f : Origin → Origin) : DatumExpr → DatumExpr
  | .point location => .point (location.moved f)
  | .axis origin direction => .axis (origin.moved f) (direction.moved f)
  | .plane origin normal => .plane (origin.moved f) (normal.moved f)
  | .symbol name => .symbol name

def SelectionExpr.moved (f : Origin → Origin) : SelectionExpr → SelectionExpr
  | .query kind feature filter => .query kind (feature.moved f) filter
  | .union left right => .union (left.moved f) (right.moved f)
  | .difference left right => .difference (left.moved f) (right.moved f)
  | .symbol name => .symbol name

def FeatureRef.moved (f : Origin → Origin) : FeatureRef → FeatureRef
  | .named name => .named name
  | .inline feature => .inline (feature.moved f)
  | .sub base name => .sub (base.moved f) name

def Feature.moved (f : Origin → Origin) : Feature → Feature
  | .construct typeName signature arguments origin name? =>
    .construct typeName signature (Argument.movedAll f arguments) (f origin) name?

def Argument.movedAll (f : Origin → Origin) : List Argument → List Argument
  | [] => []
  | argument :: rest => argument.moved f :: Argument.movedAll f rest

def Argument.moved (f : Origin → Origin) : Argument → Argument
  | .scalar value => .scalar (value.moved f)
  | .vector value => .vector (value.moved f)
  | .datum value => .datum (value.moved f)
  | .feature value => .feature (value.moved f)
  | .selection value => .selection (value.moved f)
  | .keyword word => .keyword word

end

mutual

theorem ScalarExpr.moved_id : (e : ScalarExpr) → e.moved id = e
  | .literal _ => rfl
  | .symbol _ => rfl
  | .neg operand => by rw [ScalarExpr.moved, operand.moved_id]
  | .binary _ left right => by rw [ScalarExpr.moved, left.moved_id, right.moved_id]
  | .call _ operand => by rw [ScalarExpr.moved, operand.moved_id]
  | .dot left right => by rw [ScalarExpr.moved, left.moved_id, right.moved_id]
  | .magnitude operand => by rw [ScalarExpr.moved, operand.moved_id]
  | .component operand _ => by rw [ScalarExpr.moved, operand.moved_id]
  | .value feature _ => by rw [ScalarExpr.moved, feature.moved_id]

theorem VectorExpr.moved_id : (e : VectorExpr) → e.moved id = e
  | .literal x y z => by rw [VectorExpr.moved, x.moved_id, y.moved_id, z.moved_id]
  | .symbol _ => rfl
  | .neg operand => by rw [VectorExpr.moved, operand.moved_id]
  | .add left right => by rw [VectorExpr.moved, left.moved_id, right.moved_id]
  | .sub left right => by rw [VectorExpr.moved, left.moved_id, right.moved_id]
  | .scale operand factor => by rw [VectorExpr.moved, operand.moved_id, factor.moved_id]
  | .divide operand divisor => by rw [VectorExpr.moved, operand.moved_id, divisor.moved_id]
  | .cross left right => by rw [VectorExpr.moved, left.moved_id, right.moved_id]
  | .normalize operand => by rw [VectorExpr.moved, operand.moved_id]
  | .point feature _ => by rw [VectorExpr.moved, feature.moved_id]
  | .part datum _ => by rw [VectorExpr.moved, datum.moved_id]

theorem DatumExpr.moved_id : (e : DatumExpr) → e.moved id = e
  | .point location => by rw [DatumExpr.moved, location.moved_id]
  | .axis origin direction => by rw [DatumExpr.moved, origin.moved_id, direction.moved_id]
  | .plane origin normal => by rw [DatumExpr.moved, origin.moved_id, normal.moved_id]
  | .symbol _ => rfl

theorem SelectionExpr.moved_id : (e : SelectionExpr) → e.moved id = e
  | .symbol _ => rfl
  | .query _ feature _ => by rw [SelectionExpr.moved, feature.moved_id]
  | .union left right => by rw [SelectionExpr.moved, left.moved_id, right.moved_id]
  | .difference left right => by rw [SelectionExpr.moved, left.moved_id, right.moved_id]

theorem FeatureRef.moved_id : (r : FeatureRef) → r.moved id = r
  | .named _ => rfl
  | .inline feature => by rw [FeatureRef.moved, feature.moved_id]
  | .sub base _ => by rw [FeatureRef.moved, base.moved_id]

theorem Feature.moved_id : (f : Feature) → f.moved id = f
  | .construct _ _ arguments _ _ => by rw [Feature.moved, Argument.movedAll_id arguments, id]

theorem Argument.movedAll_id : (arguments : List Argument) → Argument.movedAll id arguments = arguments
  | [] => rfl
  | argument :: rest => by
    rw [Argument.movedAll, argument.moved_id, Argument.movedAll_id rest]

theorem Argument.moved_id : (a : Argument) → a.moved id = a
  | .scalar value => by rw [Argument.moved, value.moved_id]
  | .vector value => by rw [Argument.moved, value.moved_id]
  | .datum value => by rw [Argument.moved, value.moved_id]
  | .feature value => by rw [Argument.moved, value.moved_id]
  | .selection value => by rw [Argument.moved, value.moved_id]
  | .keyword _ => rfl

end

/-! ## Arguments of a construction -/

/-- Outcomes of one kind: values that are related, or refusals in the same words. -/
def ArgumentError.Alike {α : Type} (R : α → α → Prop) : (x y : Except ArgumentError α) → Prop
  | .ok a, .ok b => R a b
  | .error e, .error e' => e.message = e'.message
  | _, _ => False

theorem ArgumentError.Alike.bind {α β : Type} {R : α → α → Prop} {S : β → β → Prop}
    {x y : Except ArgumentError α} {k l : α → Except ArgumentError β} (h : Alike R x y)
    (hk : ∀ a b, R a b → Alike S (k a) (l b)) : Alike S (x >>= k) (y >>= l) := by
  cases x <;> cases y
  · exact h
  · exact h.elim
  · exact h.elim
  · exact hk _ _ h

section Arguments

variable {f : Origin → Origin} {a a' : Argument} {as as' : List Argument}

theorem Argument.movedAll_eq_map (f : Origin → Origin) (as : List Argument) :
    Argument.movedAll f as = as.map (·.moved f) := by
  induction as with
  | nil => rfl
  | cons a rest ih => rw [movedAll, ih, List.map_cons]

theorem Argument.kindName_moved (f : Origin → Origin) (a : Argument) :
    (a.moved f).kindName = a.kindName := by
  cases a <;> rw [moved] <;> rfl

theorem ParamKind.accepts_moved (f : Origin → Origin) (kind : ParamKind) (a : Argument) :
    kind.accepts (a.moved f) = kind.accepts a := by
  cases a <;> rw [Argument.moved] <;> cases kind <;> rfl

namespace Signature

theorem wrongKind_message (name : String) (kind : ParamKind) (h : a.kindName = a'.kindName) :
    (ArgumentError.wrongKind name kind a).message = (ArgumentError.wrongKind name kind a').message := by
  unfold ArgumentError.message
  dsimp only
  rw [h]

/-- Whether an argument fits a parameter does not depend on places. -/
theorem check_alike (param : Param) (h : a.moved f = a'.moved f) :
    ArgumentError.Alike (fun _ _ => True) (check param a) (check param a') := by
  have haccepts : param.kind.accepts a = param.kind.accepts a' := by
    rw [← ParamKind.accepts_moved f, h, ParamKind.accepts_moved]
  have hkind : a.kindName = a'.kindName := by
    rw [← Argument.kindName_moved f, h, Argument.kindName_moved]
  by_cases hfits : param.kind.accepts a' = true
  · have hfirst : check param a = .ok () := if_pos (haccepts.trans hfits)
    have hsecond : check param a' = .ok () := if_pos hfits
    rw [hfirst, hsecond]
    exact True.intro
  · have hfirst : check param a = .error (.wrongKind param.name param.kind a) :=
      if_neg fun h => hfits (haccepts.symm.trans h)
    have hsecond : check param a' = .error (.wrongKind param.name param.kind a') := if_neg hfits
    rw [hfirst, hsecond]
    exact wrongKind_message param.name param.kind hkind

theorem checkAll_alike (param : Param) (h : as.map (·.moved f) = as'.map (·.moved f)) :
    ArgumentError.Alike (fun _ _ => True) (as.forM (check param)) (as'.forM (check param)) := by
  induction as generalizing as' with
  | nil =>
    obtain rfl := List.map_eq_nil_iff.mp h.symm
    exact True.intro
  | cons a rest ih =>
    obtain ⟨a', rest', rfl, ha, hrest⟩ := List.map_eq_cons_iff.mp h.symm
    exact (check_alike param ha.symm).bind fun _ _ _ => ih hrest.symm

/-- Arguments that are the same but for their places are bound to a signature, or refused, alike. -/
theorem bindFrom_alike (signature : Signature) (h : as.map (·.moved f) = as'.map (·.moved f)) :
    ArgumentError.Alike
      (fun p p' => p.1.map (·.moved f) = p'.1.map (·.moved f) ∧
        p.2.map (·.moved f) = p'.2.map (·.moved f))
      (signature.bindFrom as) (signature.bindFrom as') := by
  induction signature generalizing as as' with
  | nil => exact ⟨rfl, h⟩
  | cons param params ih =>
    have hnext : ∀ {a a' : Argument} {as as' : List Argument}, a.moved f = a'.moved f →
        as.map (·.moved f) = as'.map (·.moved f) →
        ArgumentError.Alike (fun p p' => p.1.map (·.moved f) = p'.1.map (·.moved f) ∧
            p.2.map (·.moved f) = p'.2.map (·.moved f))
          (do check param a
              let p ← bindFrom params as
              return (a :: p.1, p.2))
          (do check param a'
              let p ← bindFrom params as'
              return (a' :: p.1, p.2)) := fun {a a' _ _} ha has =>
      (check_alike param ha).bind fun _ _ _ => (ih has).bind fun p p' hp =>
        ⟨by simpa [ha] using hp.1, hp.2⟩
    have hlength : as.length = as'.length := by simpa using congrArg List.length h
    have hall : ∀ least, ArgumentError.Alike
        (fun p p' => p.1.map (·.moved f) = p'.1.map (·.moved f) ∧
          p.2.map (·.moved f) = p'.2.map (·.moved f))
        (do as.forM (check param)
            if as.length < least then throw (.tooFew param.name least as.length)
            let p ← bindFrom params []
            return (as ++ p.1, p.2))
        (do as'.forM (check param)
            if as'.length < least then throw (.tooFew param.name least as'.length)
            let p ← bindFrom params []
            return (as' ++ p.1, p.2)) := fun least => by
      refine (checkAll_alike param h).bind fun _ _ _ => ?_
      rw [hlength]
      split
      · exact rfl
      · exact (@ih [] [] rfl).bind fun p p' hp =>
          ⟨by simp only [List.map_append, h, hp.1], hp.2⟩
    cases as with
    | nil =>
      obtain rfl := List.map_eq_nil_iff.mp h.symm
      unfold bindFrom
      cases param.arity with
      | required => exact rfl
      | optional fallback => exact (ih rfl).bind fun p p' hp => ⟨by simpa using hp.1, hp.2⟩
      | variadic least => exact hall least
    | cons a rest =>
      obtain ⟨a', rest', rfl, ha, hrest⟩ := List.map_eq_cons_iff.mp h.symm
      unfold bindFrom
      cases param.arity with
      | required => exact hnext ha.symm hrest.symm
      | optional fallback => exact hnext ha.symm hrest.symm
      | variadic least => exact hall least

theorem bind_alike (signature : Signature) (h : as.map (·.moved f) = as'.map (·.moved f)) :
    ArgumentError.Alike (fun bs bs' => bs.map (·.moved f) = bs'.map (·.moved f))
      (signature.bind as) (signature.bind as') := by
  refine (bindFrom_alike signature h).bind fun p p' hp => ?_
  have hbound : p.1.length = p'.1.length := by simpa using congrArg List.length hp.1
  have hextra : p.2.length = p'.2.length := by simpa using congrArg List.length hp.2
  have hempty : p.2.isEmpty = p'.2.isEmpty := by
    rw [Bool.eq_iff_iff, List.isEmpty_iff_length_eq_zero, List.isEmpty_iff_length_eq_zero, hextra]
  dsimp only
  rw [hempty, hbound, hextra]
  split
  · exact hp.1
  · exact rfl

end Signature

/-- The signature of a placement depends on the number of its arguments and on what a datum among
them is made of. -/
theorem Placement.signatureFor_alike (h : as.map (·.moved f) = as'.map (·.moved f)) :
    ArgumentError.Alike Eq (Placement.signatureFor as) (Placement.signatureFor as') := by
  have hmoved : ∀ as : List Argument, ArgumentError.Alike Eq (Placement.signatureFor as)
      (Placement.signatureFor (as.map (·.moved f))) := by
    intro as
    match as with
    | [] => exact rfl
    | [_] => exact rfl
    | [_, .datum (.point _)] => exact rfl
    | [_, .datum (.axis _ _)] => exact rfl
    | [_, .datum (.plane _ _)] => exact rfl
    | [_, .datum (.symbol _)] => exact rfl
    | [_, .scalar _] => exact rfl
    | [_, .vector _] => exact rfl
    | [_, .feature _] => exact rfl
    | [_, .selection _] => exact rfl
    | [_, .keyword _] => exact rfl
    | a :: b :: d :: rest =>
      cases b with
      | datum e => cases e <;> exact rfl
      | _ => exact rfl
  have hfirst := hmoved as
  rw [h] at hfirst
  have hsecond := hmoved as'
  revert hfirst hsecond
  generalize Placement.signatureFor as = x, Placement.signatureFor as' = y
  generalize Placement.signatureFor _ = z
  intro hx hy
  cases x <;> cases y <;> cases z <;> first
    | exact Eq.trans hx (Eq.symm hy)
    | exact hx.elim
    | exact hy.elim

/-- A type makes the same constructions, and refuses in the same words, where its arguments are the
same but for their places. -/
theorem FeatureType.construct_alike (type : FeatureType) {origin origin' : Origin}
    (horigin : f origin = f origin') (h : as.map (·.moved f) = as'.map (·.moved f)) :
    ArgumentError.Alike (fun x x' => x.moved f = x'.moved f)
      (type.construct as origin) (type.construct as' origin') := by
  have hbind : ∀ signature : Signature, ArgumentError.Alike (fun x x' => x.moved f = x'.moved f)
      (do let bound ← signature.bind as
          return Feature.construct type.name signature bound origin none)
      (do let bound ← signature.bind as'
          return Feature.construct type.name signature bound origin' none) := fun signature =>
    (signature.bind_alike h).bind fun bs bs' hbs => by
      show Feature.moved f _ = Feature.moved f _
      simp only [Feature.moved, Argument.movedAll_eq_map, hbs, horigin]
  unfold construct
  cases type.checked with
  | declared => exact hbind type.signature
  | placement =>
    refine (Placement.signatureFor_alike h).bind fun signature _ hsame => ?_
    subst hsame
    exact hbind signature

end Arguments

/-! ## Models -/

/-- A bound value with every origin in it replaced. -/
def BoundValue.moved (f : Origin → Origin) : BoundValue → BoundValue
  | .scalar value => .scalar (value.moved f)
  | .vector value => .vector (value.moved f)
  | .datum value => .datum (value.moved f)
  | .feature value => .feature (value.moved f)
  | .selection value => .selection (value.moved f)

theorem BoundValue.kind_moved (f : Origin → Origin) (v : BoundValue) :
    (v.moved f).kind = v.kind := by
  cases v <;> rfl

theorem BoundValue.moved_id (v : BoundValue) : v.moved id = v := by
  cases v with
  | scalar e => rw [moved, e.moved_id]
  | vector e => rw [moved, e.moved_id]
  | datum e => rw [moved, e.moved_id]
  | feature r => rw [moved, r.moved_id]
  | selection e => rw [moved, e.moved_id]

/-- Naming a construction leaves it where it is. -/
theorem Model.nameValue_moved (f : Origin → Origin) (name : String) (v : BoundValue) :
    (nameValue name v).moved f = nameValue name (v.moved f) := by
  cases v with
  | feature r =>
    cases r with
    | inline x => cases x; rfl
    | _ => rfl
  | _ => rfl

/-- Two models that bind the same names to the same values, request the same outputs and have loaded
the same modules, places aside. -/
structure Model.Alike (f : Origin → Origin) (M M' : Model) : Prop where
  bindings : M.bindings.map (fun b => (b.name, b.value.moved f)) =
    M'.bindings.map fun b => (b.name, b.value.moved f)
  outputs : M.outputs.map (fun o => (o.feature.moved f, o.path)) =
    M'.outputs.map fun o => (o.feature.moved f, o.path)
  modules : M.modules = M'.modules

namespace Model.Alike

variable {f : Origin → Origin} {M M' : Model}

theorem refl (f : Origin → Origin) (M : Model) : Alike f M M := ⟨rfl, rfl, rfl⟩

theorem symm (h : Alike f M M') : Alike f M' M := ⟨h.bindings.symm, h.outputs.symm, h.modules.symm⟩

theorem binding? (h : Alike f M M') (name : String) :
    (M.binding? name).map (fun b => b.value.moved f) =
      (M'.binding? name).map fun b => b.value.moved f := by
  have hfind : ∀ M : Model, (M.binding? name).map (fun b => b.value.moved f) =
      ((M.bindings.map fun b => (b.name, b.value.moved f)).find? (·.1 == name)).map (·.2) := by
    intro M
    rw [binding?_eq_find?, List.find?_map, Option.map_map]
    rfl
  rw [hfind, hfind, h.bindings]

theorem kindOf? (h : Alike f M M') (name : String) : M.kindOf? name = M'.kindOf? name := by
  have hkind : ∀ M : Model, M.kindOf? name =
      ((M.binding? name).map fun b => b.value.moved f).map BoundValue.kind := by
    intro M
    rw [Model.kindOf?, Option.map_map]
    congr 1
    funext b
    exact (b.value.kind_moved f).symm
  rw [hkind, hkind, h.binding?]

theorem length (h : Alike f M M') : M.bindings.length = M'.bindings.length := by
  simpa using congrArg List.length h.bindings

theorem index (h : Alike f M M') (name : String) : M.index.get? name = M'.index.get? name := by
  have hindex : ∀ M : Model, M.index.get? name =
      (M.bindings.map fun b => (b.name, b.value.moved f)).findIdx? (·.1 == name) := by
    intro M
    rw [M.indexed, List.findIdx?_map]
    rfl
  rw [hindex, hindex, h.bindings]

/-- A value that is the same but for places is bound alike. -/
theorem bind? (h : Alike f M M') {b b' : Binding} (hname : b.name = b'.name)
    (hvalue : b.value.moved f = b'.value.moved f) {M₁ : Model} (hbind : M.bind? b = some M₁) :
    ∃ M₁', M'.bind? b' = some M₁' ∧ M₁.Alike f M₁' := by
  unfold Model.bind? at hbind
  split at hbind
  · next hfree =>
    obtain rfl := Option.some.inj hbind
    have hfree' : M'.index.get? b'.name = none := by rw [← hname, ← h.index, hfree]
    refine ⟨_, dif_pos hfree', ?_, h.outputs, h.modules⟩
    simp only [List.map_append, h.bindings, List.map_cons, List.map_nil, nameValue_moved, hname,
      hvalue]
  · cases hbind

/-- The kind of datum that an expression denotes does not depend on places. -/
theorem datumKind? (h : Alike f M M') (n : Nat) {e e' : DatumExpr} (he : e.moved f = e'.moved f) :
    Grammar.datumKind? M n e = Grammar.datumKind? M' n e' := by
  induction n generalizing e e' with
  | zero => rfl
  | succ n ih =>
    cases e <;> cases e' <;> simp only [DatumExpr.moved, reduceCtorEq] at he
    case symbol.symbol name name' =>
      obtain rfl := DatumExpr.symbol.inj he
      have hname := h.binding? name
      unfold Grammar.datumKind?
      cases hb : M.binding? name <;> cases hb' : M'.binding? name <;>
        simp only [hb, hb', Option.map_none, Option.map_some, reduceCtorEq, Option.some.injEq] at hname
      · rfl
      · next b b' =>
        obtain ⟨_, v, _, _⟩ := b
        obtain ⟨_, v', _, _⟩ := b'
        cases v <;> cases v' <;> simp only [BoundValue.moved, reduceCtorEq] at hname <;> try rfl
        exact ih (BoundValue.datum.inj hname)
    all_goals rfl

end Model.Alike

/-! ## Statements -/

/-- A statement with every origin in it replaced. -/
def Grammar.Statement.moved (f : Origin → Origin) : Grammar.Statement → Grammar.Statement
  | .binding name value => .binding name (value.moved f)
  | .output feature path => .output (feature.moved f) path

theorem Grammar.Statement.moved_id (s : Grammar.Statement) : s.moved id = s := by
  cases s with
  | binding name v => rw [Statement.moved, v.moved_id]
  | output r path => rw [Statement.moved, r.moved_id]

/-- A statement that is the same but for places adds the same. -/
theorem Model.Alike.addStatement {f : Origin → Origin} {M M' M₁ : Model}
    {s s' : Grammar.Statement} {span : SourceSpan} {file source : String}
    (h : M.Alike f M') (hs : s.moved f = s'.moved f)
    (hadd : Grammar.addStatement M s span file source = .ok M₁) (span' : SourceSpan)
    (file' source' : String) :
    ∃ M₁', Grammar.addStatement M' s' span' file' source' = .ok M₁' ∧ M₁.Alike f M₁' := by
  cases s with
  | binding name v =>
    cases s' with
    | output _ _ => cases hs
    | binding name' v' =>
      obtain ⟨rfl, hv⟩ := Grammar.Statement.binding.inj hs
      unfold Grammar.addStatement at hadd ⊢
      dsimp only at hadd ⊢
      cases hbind : M.bind? ⟨name, v, span, file⟩ with
      | none =>
        rw [hbind] at hadd
        cases hadd
      | some extended =>
        rw [hbind] at hadd
        obtain rfl := Except.ok.inj hadd
        let b' : Binding := ⟨name, v', span', file'⟩
        obtain ⟨M₁', hbind', halike⟩ := h.bind? (show name = b'.name from rfl) hv hbind
        exact ⟨M₁', by rw [hbind'], halike⟩
  | output r path =>
    cases s' with
    | binding _ _ => cases hs
    | output r' path' =>
      obtain ⟨hr, rfl⟩ := Grammar.Statement.output.inj hs
      obtain rfl := Except.ok.inj hadd
      refine ⟨_, rfl, h.bindings, ?_, h.modules⟩
      simp only [request, List.map_append, h.outputs, List.map_cons, List.map_nil, hr]

end PartScript
