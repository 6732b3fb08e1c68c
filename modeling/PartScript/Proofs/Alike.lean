/-
  Results that are alike: equal in everything but the numbers of the backend invocations
  that gave them. Evaluation cannot tell such results apart, and neither can the symbolic
  backend.
-/
import Mathlib.Data.List.Forall2
import PartScript.Build.Reference
import PartScript.Build.Symbolic
import PartScript.Proofs.Plan

namespace PartScript

/-! ## Results -/

namespace BuildResult

mutual

/-- A result without the numbers of backend invocations. -/
def core : BuildResult → BuildResult
  | ⟨_, shape, points, values, subs⟩ => ⟨0, shape, points, values, coreSubs subs⟩

def coreSubs : List (String × BuildResult) → List (String × BuildResult)
  | [] => []
  | (name, sub) :: rest => (name, core sub) :: coreSubs rest

end

@[simp] theorem core_shape (r : BuildResult) : r.core.shape = r.shape := by
  cases r
  rfl

@[simp] theorem core_points (r : BuildResult) : r.core.points = r.points := by
  cases r
  rfl

@[simp] theorem core_values (r : BuildResult) : r.core.values = r.values := by
  cases r
  rfl

@[simp] theorem core_subs (r : BuildResult) : r.core.subs = coreSubs r.subs := by
  cases r
  rfl

@[simp] theorem core_withSerial (r : BuildResult) (n : Nat) :
    { r with serial := n }.core = r.core := by
  cases r
  rfl

theorem get?_coreSubs (subs : List (String × BuildResult)) (name : String) :
    Table.get? (coreSubs subs) name = (Table.get? subs name).map core := by
  induction subs with
  | nil => rfl
  | cons p rest ih =>
    obtain ⟨key, sub⟩ := p
    simp only [coreSubs, Table.get?, ih]
    split <;> rfl

theorem coreSubs_insert (subs : List (String × BuildResult)) (name : String)
    (sub : BuildResult) :
    coreSubs (Table.insert subs name sub) = Table.insert (coreSubs subs) name sub.core := by
  induction subs with
  | nil => rfl
  | cons p rest ih =>
    obtain ⟨key, other⟩ := p
    simp only [coreSubs, Table.insert]
    split
    · rfl
    · rw [coreSubs, ih]

/-- Equal but for the numbers of backend invocations. -/
def Alike (r r' : BuildResult) : Prop := r.core = r'.core

namespace Alike

variable {r r' r'' : BuildResult}

theorem refl (r : BuildResult) : r.Alike r := rfl

theorem symm (h : r.Alike r') : r'.Alike r := Eq.symm h

theorem trans (h : r.Alike r') (h' : r'.Alike r'') : r.Alike r'' := Eq.trans h h'

theorem shape (h : r.Alike r') : r.shape = r'.shape := by
  simpa using congrArg BuildResult.shape h

theorem points (h : r.Alike r') : r.points = r'.points := by
  simpa using congrArg BuildResult.points h

theorem point? (h : r.Alike r') (name : String) : r.point? name = r'.point? name := by
  rw [BuildResult.point?, BuildResult.point?, h.points]

theorem value? (h : r.Alike r') (name : String) : r.value? name = r'.value? name := by
  have hv : r.values = r'.values := by simpa using congrArg BuildResult.values h
  rw [BuildResult.value?, BuildResult.value?, hv]

theorem sub? (h : r.Alike r') (name : String) :
    (r.sub? name).map core = (r'.sub? name).map core := by
  have hs : coreSubs r.subs = coreSubs r'.subs := by simpa using congrArg BuildResult.subs h
  rw [BuildResult.sub?, BuildResult.sub?, ← get?_coreSubs, ← get?_coreSubs, hs]

theorem withPoint (h : r.Alike r') (name : String) (p : Vec3) :
    (r.withPoint name p).Alike (r'.withPoint name p) := by
  cases r
  cases r'
  simp_all [Alike, core, BuildResult.withPoint]

theorem withValue (h : r.Alike r') (name : String) (x : Float) :
    (r.withValue name x).Alike (r'.withValue name x) := by
  cases r
  cases r'
  simp_all [Alike, core, BuildResult.withValue]

theorem withSub (h : r.Alike r') (name : String) {sub sub' : BuildResult}
    (hsub : sub.Alike sub') : (r.withSub name sub).Alike (r'.withSub name sub') := by
  unfold Alike at hsub
  cases r
  cases r'
  simp_all [Alike, core, BuildResult.withSub, coreSubs_insert]

end Alike

/-! ## Relations that evaluation respects -/

/-- A relation of results that evaluation respects: related results have equal shapes,
points and values, and related sub-results under equal names. -/
structure Congruence (B : BuildResult → BuildResult → Prop) : Prop where
  refl : ∀ r, B r r
  shape : ∀ {r r'}, B r r' → r.shape = r'.shape
  point? : ∀ {r r'}, B r r' → ∀ name, r.point? name = r'.point? name
  value? : ∀ {r r'}, B r r' → ∀ name, r.value? name = r'.value? name
  sub? : ∀ {r r'}, B r r' → ∀ name, Option.Rel B (r.sub? name) (r'.sub? name)

theorem Congruence.eq : Congruence Eq where
  refl _ := rfl
  shape := by rintro r _ rfl; rfl
  point? := by rintro r _ rfl name; rfl
  value? := by rintro r _ rfl name; rfl
  sub? := by
    rintro r _ rfl name
    cases r.sub? name with
    | none => exact .none
    | some sub => exact .some rfl

theorem Congruence.alike : Congruence Alike where
  refl := Alike.refl
  shape := Alike.shape
  point? := Alike.point?
  value? := Alike.value?
  sub? := by
    intro r r' h name
    have hsub := h.sub? name
    cases hr : r.sub? name <;> cases hr' : r'.sub? name <;> simp only [hr, hr'] at hsub
    · exact .none
    · cases hsub
    · cases hsub
    · exact .some (Option.some.inj hsub)

/-- Paths of sub-results lead to related results, or to no result for the same kind of
cause. -/
theorem Congruence.descend {B : BuildResult → BuildResult → Prop} (hB : Congruence B)
    {r r' : BuildResult} (h : B r r') (owner owner' : String) (path : List String) :
    Agree B (r.descend owner path) (r'.descend owner' path) := by
  induction path generalizing r r' owner owner' with
  | nil => exact h
  | cons name path ih =>
    have hsub := hB.sub? h name
    unfold BuildResult.descend
    cases hr : r.sub? name <;> cases hr' : r'.sub? name <;> rw [hr, hr'] at hsub
    · exact rfl
    · cases hsub
    · cases hsub
    · rw [Option.rel_some_some] at hsub
      exact ih hsub _ _

theorem descend_cause {owner : String} {r : BuildResult} {path : List String} {e : BuildError}
    (h : r.descend owner path = .error e) : e.cause = .missingSubResult := by
  induction path generalizing r owner with
  | nil => cases h
  | cons name path ih =>
    unfold BuildResult.descend at h
    cases hr : r.sub? name with
    | none =>
      rw [hr] at h
      obtain rfl := Except.error.inj h
      rfl
    | some sub =>
      rw [hr] at h
      exact ih h

end BuildResult

/-! ## Inputs and requests -/

/-- Inputs that the symbolic backend cannot tell apart. Labels occur in messages only. -/
inductive Input.Alike : Input → Input → Prop where
  | scalar (value : Float) : Alike (.scalar value) (.scalar value)
  | vector (value : Vec3) : Alike (.vector value) (.vector value)
  | datum (value : Datum) : Alike (.datum value) (.datum value)
  | keyword (word : String) : Alike (.keyword word) (.keyword word)
  | shape {r r' : BuildResult} : r.Alike r' → Alike (.shape r) (.shape r')
  | selection {t t' : Selection} : t.kind = t'.kind → t.ids = t'.ids →
      t.shape.Alike t'.shape → Alike (.selection t) (.selection t')

/-- Requests for one type and one signature with inputs that are alike. -/
structure BuildRequest.Alike (q q' : BuildRequest) : Prop where
  typeName : q.typeName = q'.typeName
  signature : q.signature = q'.signature
  inputs : List.Forall₂ Input.Alike q.inputs q'.inputs

/-- Answers that are alike: results that are, or refusals of one kind. -/
def BuildAnswer.Alike : BuildAnswer → BuildAnswer → Prop
  | .ok r, .ok r' => r.Alike r'
  | .error e, .error e' => e.refusal = e'.refusal
  | _, _ => False

theorem BuildAnswer.Alike.withSerial {a a' : BuildAnswer} (h : BuildAnswer.Alike a a') (n : Nat) :
    BuildAnswer.Alike (a.map fun result => { result with serial := n }) a' := by
  cases a <;> cases a'
  · exact h
  · exact h.elim
  · exact h.elim
  · exact (BuildResult.core_withSerial _ n).trans h

/-- A backend that tells neither requests nor results apart that are alike. -/
structure Backend.Blind (backend : Backend) : Prop where
  build : ∀ {q q' : BuildRequest}, q.Alike q' →
    BuildAnswer.Alike (backend.build q) (backend.build q')
  select : ∀ {r r' : BuildResult}, r.Alike r' → ∀ kind filter,
    backend.select r kind filter = backend.select r' kind filter

namespace BuildRequest

/-- Inputs under equal names. -/
def SameInput (p p' : String × Input) : Prop := p.1 = p'.1 ∧ p.2.Alike p'.2

theorem Alike.namedInputs {q q' : BuildRequest} (h : q.Alike q') :
    List.Forall₂ SameInput q.namedInputs q'.namedInputs := by
  rw [List.forall₂_iff_get]
  have hlen := h.inputs.length_eq
  refine ⟨by simp [BuildRequest.namedInputs, hlen], ?_⟩
  intro i hi hi'
  simp only [BuildRequest.namedInputs, List.length_mapIdx] at hi hi'
  simp only [BuildRequest.namedInputs, List.get_eq_getElem, List.getElem_mapIdx, h.signature]
  exact ⟨rfl, h.inputs.get hi hi'⟩

end BuildRequest

/-! ## The symbolic backend -/

namespace Symbolic

theorem Alike.inputTerm {x x' : Input} (h : x.Alike x') : inputTerm x = inputTerm x' := by
  cases h with
  | shape h => simp only [Symbolic.inputTerm, h.shape]
  | selection hkind hids _ => simp only [Symbolic.inputTerm, hkind, hids]
  | _ => rfl

theorem Alike.inputCounts? {x x' : Input} (h : x.Alike x') :
    inputCounts? x = inputCounts? x' := by
  cases h with
  | shape h => simp only [Symbolic.inputCounts?, h.shape]
  | selection _ _ h => simp only [Symbolic.inputCounts?, h.shape]
  | _ => rfl

theorem map_congr {β : Type} {xs xs' : List Input} (h : List.Forall₂ Input.Alike xs xs')
    {f : Input → β} (hf : ∀ {x x'}, Input.Alike x x' → f x = f x') : xs.map f = xs'.map f := by
  induction h with
  | nil => rfl
  | cons hx _ ih => rw [List.map_cons, List.map_cons, hf hx, ih]

theorem entityCounts_congr {xs xs' : List Input} (h : List.Forall₂ Input.Alike xs xs')
    (typeName : String) : entityCounts typeName xs = entityCounts typeName xs' := by
  have hcounts : xs.filterMap inputCounts? = xs'.filterMap inputCounts? := by
    induction h with
    | nil => rfl
    | cons hx _ ih => rw [List.filterMap_cons, List.filterMap_cons, Alike.inputCounts? hx, ih]
  unfold entityCounts
  rw [hcounts]

theorem shape_congr {q q' : BuildRequest} (h : q.Alike q') : shape q = shape q' := by
  unfold shape
  rw [h.typeName, map_congr h.inputs Alike.inputTerm, entityCounts_congr h.inputs]

theorem addInput_alike {r r' : BuildResult} (h : r.Alike r') {p p' : String × Input}
    (hp : BuildRequest.SameInput p p') : (addInput r p).Alike (addInput r' p') := by
  obtain ⟨name, x⟩ := p
  obtain ⟨name', x'⟩ := p'
  obtain ⟨rfl, hx⟩ := hp
  cases hx with
  | scalar value => exact h.withValue name value
  | vector value => exact h.withPoint name value
  | datum value => exact h.withPoint name value.origin
  | keyword word => exact h
  | shape hsub => exact h.withSub name hsub
  | selection _ _ _ => exact h

theorem foldl_addInput_alike {ps ps' : List (String × Input)}
    (hps : List.Forall₂ BuildRequest.SameInput ps ps') {r r' : BuildResult} (h : r.Alike r') :
    (ps.foldl addInput r).Alike (ps'.foldl addInput r') := by
  induction hps generalizing r r' with
  | nil => exact h
  | cons hp _ ih => exact ih (addInput_alike h hp)

/-- Checks that agree: both pass, or both refuse as infeasible. -/
def SameCheck (c c' : Except BackendError Unit) : Prop :=
  (c = .ok () ∧ c' = .ok ()) ∨
    ∃ m m', c = .error (.infeasible m) ∧ c' = .error (.infeasible m')

theorem checkInput_alike (q q' : BuildRequest) {p p' : String × Input}
    (hp : BuildRequest.SameInput p p') : SameCheck (checkInput q p) (checkInput q' p') := by
  obtain ⟨name, x⟩ := p
  obtain ⟨name', x'⟩ := p'
  obtain ⟨rfl, hx⟩ := hp
  cases hx with
  | scalar value =>
    simp only [checkInput]
    by_cases hfin : (!value.isFinite) = true
    · rw [if_pos hfin, if_pos hfin]
      exact .inr ⟨_, _, rfl, rfl⟩
    · rw [if_neg hfin, if_neg hfin]
      by_cases hD : (name = "D" && decide (value ≤ 0.0)) = true
      · rw [if_pos hD, if_pos hD]
        exact .inr ⟨_, _, rfl, rfl⟩
      · rw [if_neg hD, if_neg hD]
        exact .inl ⟨rfl, rfl⟩
  | _ => exact .inl ⟨rfl, rfl⟩

/-- Alike requests are both feasible, or neither is. -/
theorem checkFeasible_alike {q q' : BuildRequest} (h : q.Alike q') :
    SameCheck (checkFeasible q) (checkFeasible q') := by
  have hinputs := h.namedInputs
  unfold checkFeasible
  revert hinputs
  generalize q.namedInputs = ps, q'.namedInputs = ps'
  intro hinputs
  induction hinputs with
  | nil => exact .inl ⟨rfl, rfl⟩
  | cons hp _ ih =>
    rw [List.forM, List.forM]
    rcases checkInput_alike q q' hp with ⟨hc, hc'⟩ | ⟨m, m', hc, hc'⟩
    · rw [hc, hc']
      exact ih
    · rw [hc, hc']
      exact .inr ⟨m, m', rfl, rfl⟩

theorem backend_blind (failing : List String) : (backend failing).Blind where
  build := by
    intro q q' h
    show BuildAnswer.Alike (Symbolic.build failing q) (Symbolic.build failing q')
    unfold Symbolic.build
    rw [← h.typeName]
    by_cases hfail : failing.contains q.typeName = true
    · simp only [hfail]
      exact rfl
    · simp only [hfail]
      rcases checkFeasible_alike h with ⟨hq, hq'⟩ | ⟨m, m', hq, hq'⟩
      · rw [hq, hq', shape_congr h]
        exact foldl_addInput_alike h.namedInputs (.refl _)
      · rw [hq, hq']
        exact rfl
  select := by
    intro r r' h kind filter
    show Symbolic.select r kind filter = Symbolic.select r' kind filter
    unfold Symbolic.select
    rw [h.shape]

end Symbolic

end PartScript
