/-
  Models that say the same in other words. Names may be other names, a name of a value or of a
  feature may stand for what it is bound to and the other way round, and every construction may
  be another one with the same type and arguments that say the same. References that say the
  same designate constructions that do, below equal paths of sub-results.
-/
import PartScript.Proofs.Names

namespace PartScript

open Relation

/-- Two models, and which names of the first and of the second stand for the same. -/
structure Rewording where
  first : Model
  second : Model
  renamed : String → String → Prop

/-! ## Expressions that say the same -/

mutual

/-- Scalar expressions that say the same: the second has other names in some places, the
expressions that names are bound to in some, and names for expressions in others. -/
inductive ScalarExpr.Reworded (w : Rewording) : ScalarExpr → ScalarExpr → Prop where
  | renamed {name name'} : w.renamed name name' →
      ScalarExpr.Reworded w (.symbol name) (.symbol name')
  | unfolded {name b e e'} : w.first.binding? name = some b → b.value = .scalar e →
      ScalarExpr.Reworded w e e' → ScalarExpr.Reworded w (.symbol name) e'
  | folded {name' b' e e'} : w.second.binding? name' = some b' → b'.value = .scalar e' →
      ScalarExpr.Reworded w e e' → ScalarExpr.Reworded w e (.symbol name')
  | literal (value : Float) : ScalarExpr.Reworded w (.literal value) (.literal value)
  | neg {e e'} : ScalarExpr.Reworded w e e' → ScalarExpr.Reworded w (.neg e) (.neg e')
  | binary (op : ScalarOp) {l l' r r'} : ScalarExpr.Reworded w l l' → ScalarExpr.Reworded w r r' →
      ScalarExpr.Reworded w (.binary op l r) (.binary op l' r')
  | call (fn : ScalarFn) {e e'} : ScalarExpr.Reworded w e e' →
      ScalarExpr.Reworded w (.call fn e) (.call fn e')
  | dot {l l' r r'} : VectorExpr.Reworded w l l' → VectorExpr.Reworded w r r' →
      ScalarExpr.Reworded w (.dot l r) (.dot l' r')
  | magnitude {e e'} : VectorExpr.Reworded w e e' →
      ScalarExpr.Reworded w (.magnitude e) (.magnitude e')
  | component (which : Component) {e e'} : VectorExpr.Reworded w e e' →
      ScalarExpr.Reworded w (.component e which) (.component e' which)
  | value (name : String) {r r'} : FeatureRef.Reworded w r r' →
      ScalarExpr.Reworded w (.value r name) (.value r' name)

inductive VectorExpr.Reworded (w : Rewording) : VectorExpr → VectorExpr → Prop where
  | renamed {name name'} : w.renamed name name' →
      VectorExpr.Reworded w (.symbol name) (.symbol name')
  | unfolded {name b e e'} : w.first.binding? name = some b → b.value = .vector e →
      VectorExpr.Reworded w e e' → VectorExpr.Reworded w (.symbol name) e'
  | folded {name' b' e e'} : w.second.binding? name' = some b' → b'.value = .vector e' →
      VectorExpr.Reworded w e e' → VectorExpr.Reworded w e (.symbol name')
  | literal {x x' y y' z z'} : ScalarExpr.Reworded w x x' → ScalarExpr.Reworded w y y' →
      ScalarExpr.Reworded w z z' → VectorExpr.Reworded w (.literal x y z) (.literal x' y' z')
  | neg {e e'} : VectorExpr.Reworded w e e' → VectorExpr.Reworded w (.neg e) (.neg e')
  | add {l l' r r'} : VectorExpr.Reworded w l l' → VectorExpr.Reworded w r r' →
      VectorExpr.Reworded w (.add l r) (.add l' r')
  | sub {l l' r r'} : VectorExpr.Reworded w l l' → VectorExpr.Reworded w r r' →
      VectorExpr.Reworded w (.sub l r) (.sub l' r')
  | scale {e e' s s'} : VectorExpr.Reworded w e e' → ScalarExpr.Reworded w s s' →
      VectorExpr.Reworded w (.scale e s) (.scale e' s')
  | divide {e e' s s'} : VectorExpr.Reworded w e e' → ScalarExpr.Reworded w s s' →
      VectorExpr.Reworded w (.divide e s) (.divide e' s')
  | cross {l l' r r'} : VectorExpr.Reworded w l l' → VectorExpr.Reworded w r r' →
      VectorExpr.Reworded w (.cross l r) (.cross l' r')
  | normalize {e e'} : VectorExpr.Reworded w e e' →
      VectorExpr.Reworded w (.normalize e) (.normalize e')
  | point (name : String) {r r'} : FeatureRef.Reworded w r r' →
      VectorExpr.Reworded w (.point r name) (.point r' name)
  | part (part : DatumPart) {d d'} : DatumExpr.Reworded w d d' →
      VectorExpr.Reworded w (.part d part) (.part d' part)

inductive DatumExpr.Reworded (w : Rewording) : DatumExpr → DatumExpr → Prop where
  | renamed {name name'} : w.renamed name name' →
      DatumExpr.Reworded w (.symbol name) (.symbol name')
  | unfolded {name b e e'} : w.first.binding? name = some b → b.value = .datum e →
      DatumExpr.Reworded w e e' → DatumExpr.Reworded w (.symbol name) e'
  | folded {name' b' e e'} : w.second.binding? name' = some b' → b'.value = .datum e' →
      DatumExpr.Reworded w e e' → DatumExpr.Reworded w e (.symbol name')
  | point {e e'} : VectorExpr.Reworded w e e' → DatumExpr.Reworded w (.point e) (.point e')
  | axis {o o' d d'} : VectorExpr.Reworded w o o' → VectorExpr.Reworded w d d' →
      DatumExpr.Reworded w (.axis o d) (.axis o' d')
  | plane {o o' n n'} : VectorExpr.Reworded w o o' → VectorExpr.Reworded w n n' →
      DatumExpr.Reworded w (.plane o n) (.plane o' n')

inductive SelectionExpr.Reworded (w : Rewording) : SelectionExpr → SelectionExpr → Prop where
  | renamed {name name'} : w.renamed name name' →
      SelectionExpr.Reworded w (.symbol name) (.symbol name')
  | unfolded {name b e e'} : w.first.binding? name = some b → b.value = .selection e →
      SelectionExpr.Reworded w e e' → SelectionExpr.Reworded w (.symbol name) e'
  | folded {name' b' e e'} : w.second.binding? name' = some b' → b'.value = .selection e' →
      SelectionExpr.Reworded w e e' → SelectionExpr.Reworded w e (.symbol name')
  | query (kind : EntityKind) (filter : String) {r r'} : FeatureRef.Reworded w r r' →
      SelectionExpr.Reworded w (.query kind r filter) (.query kind r' filter)
  | union {l l' r r'} : SelectionExpr.Reworded w l l' → SelectionExpr.Reworded w r r' →
      SelectionExpr.Reworded w (.union l r) (.union l' r')
  | difference {l l' r r'} : SelectionExpr.Reworded w l l' → SelectionExpr.Reworded w r r' →
      SelectionExpr.Reworded w (.difference l r) (.difference l' r')

inductive FeatureRef.Reworded (w : Rewording) : FeatureRef → FeatureRef → Prop where
  | renamed {name name'} : w.renamed name name' → FeatureRef.Reworded w (.named name) (.named name')
  | unfolded {name b r r'} : w.first.binding? name = some b → b.value = .feature r →
      FeatureRef.Reworded w r r' → FeatureRef.Reworded w (.named name) r'
  | folded {name' b' r r'} : w.second.binding? name' = some b' → b'.value = .feature r' →
      FeatureRef.Reworded w r r' → FeatureRef.Reworded w r (.named name')
  | inline {f f'} : Feature.Reworded w f f' → FeatureRef.Reworded w (.inline f) (.inline f')
  | sub (name : String) {r r'} : FeatureRef.Reworded w r r' →
      FeatureRef.Reworded w (.sub r name) (.sub r' name)

/-- Constructions of one type and one signature whose arguments say the same. Where they were
written and what they are called does not matter. -/
inductive Feature.Reworded (w : Rewording) : Feature → Feature → Prop where
  | construct (typeName : String) (signature : Signature) (origin origin' : Origin)
      (name? name?' : Option String) {args args'} : Argument.RewordedAll w args args' →
      Feature.Reworded w (.construct typeName signature args origin name?)
        (.construct typeName signature args' origin' name?')

inductive Argument.Reworded (w : Rewording) : Argument → Argument → Prop where
  | scalar {e e'} : ScalarExpr.Reworded w e e' → Argument.Reworded w (.scalar e) (.scalar e')
  | vector {e e'} : VectorExpr.Reworded w e e' → Argument.Reworded w (.vector e) (.vector e')
  | datum {e e'} : DatumExpr.Reworded w e e' → Argument.Reworded w (.datum e) (.datum e')
  | feature {r r'} : FeatureRef.Reworded w r r' → Argument.Reworded w (.feature r) (.feature r')
  | selection {e e'} : SelectionExpr.Reworded w e e' →
      Argument.Reworded w (.selection e) (.selection e')
  | keyword (word : String) : Argument.Reworded w (.keyword word) (.keyword word)

inductive Argument.RewordedAll (w : Rewording) : List Argument → List Argument → Prop where
  | nil : Argument.RewordedAll w [] []
  | cons {a a' as as'} : Argument.Reworded w a a' → Argument.RewordedAll w as as' →
      Argument.RewordedAll w (a :: as) (a' :: as')

end

/-- Bound values of one kind that say the same. -/
inductive BoundValue.Reworded (w : Rewording) : BoundValue → BoundValue → Prop where
  | scalar {e e'} : e.Reworded w e' → Reworded w (.scalar e) (.scalar e')
  | vector {e e'} : e.Reworded w e' → Reworded w (.vector e) (.vector e')
  | datum {e e'} : e.Reworded w e' → Reworded w (.datum e) (.datum e')
  | feature {r r'} : r.Reworded w r' → Reworded w (.feature r) (.feature r')
  | selection {e e'} : e.Reworded w e' → Reworded w (.selection e) (.selection e')

/-- What names that stand for the same are bound to says the same. -/
def Rewording.Holds (w : Rewording) : Prop :=
  ∀ name name' b, w.renamed name name' → w.first.binding? name = some b →
    ∃ b', w.second.binding? name' = some b' ∧ b.value.Reworded w b'.value

/-! ## What references designate -/

namespace Model

/-- A reference designates a construction and a path of sub-results below it, whichever names
have been followed before. -/
inductive Designates (M : Model) : FeatureRef → Feature → List String → Prop where
  | named {name b r root path} : M.binding? name = some b → b.value = .feature r →
      Designates M r root path → Designates M (.named name) root path
  | inline (f : Feature) : Designates M (.inline f) f []
  | sub (name : String) {r root path} : Designates M r root path →
      Designates M (.sub r name) root (path ++ [name])

variable {M : Model} {r : FeatureRef} {root root' : Feature} {path path' : List String}

theorem Designates.unique (h : M.Designates r root path) (h' : M.Designates r root' path') :
    root = root' ∧ path = path' := by
  induction h generalizing path' with
  | named hb hv _ ih =>
    cases h' with
    | named hb' hv' h' =>
      obtain rfl := Option.some.inj (hb.symm.trans hb')
      obtain rfl := BoundValue.feature.inj (hv.symm.trans hv')
      exact ih h'
  | inline f =>
    cases h'
    exact ⟨rfl, rfl⟩
  | sub name _ ih =>
    cases h' with
    | sub _ h' =>
      obtain ⟨rfl, rfl⟩ := ih h'
      exact ⟨rfl, rfl⟩

/-- Following the names of a reference finds only what it designates. -/
theorem designates_of_targetOver {follow : String → Except BuildError (Feature × List String)}
    (hfollow : ∀ name root path, follow name = .ok (root, path) →
      M.Designates (.named name) root path)
    (h : r.targetOver follow = .ok (root, path)) : M.Designates r root path := by
  fun_induction FeatureRef.targetOver follow r generalizing path with
  | case1 name => exact hfollow name root path h
  | case2 f =>
    obtain ⟨rfl, rfl⟩ := Prod.mk.inj (Except.ok.inj h)
    exact .inline f
  | case3 base name ih =>
    cases hb : base.targetOver follow with
    | error e =>
      rw [hb] at h
      cases h
    | ok t =>
      rw [hb] at h
      obtain ⟨rfl, rfl⟩ := Prod.mk.inj (Except.ok.inj h)
      exact .sub name (ih hb)

theorem designates_of_targetOfName {n : Nat} {seen : List String} {name : String}
    (h : M.targetOfName n seen name = .ok (root, path)) : M.Designates (.named name) root path := by
  induction n generalizing seen name root path with
  | zero => cases h
  | succ n ih =>
    rw [targetOfName] at h
    split at h
    · cases h
    · split at h
      · cases h
      · next b hb =>
        split at h
        · next r hv =>
          exact .named hb hv (designates_of_targetOver (fun _ _ _ hfollow => ih hfollow) h)
        · cases h

/-- A reference that designates something is followed without an end only if names have been
followed before it. -/
theorem Designates.circular (h : M.Designates r root path) {n : Nat} {seen : List String}
    {e : BuildError} (he : r.targetOver (M.targetOfName n seen) = .error e) :
    e.cause = .circular := by
  induction h generalizing n seen with
  | named hb hv _ ih =>
    rw [FeatureRef.targetOver] at he
    cases n with
    | zero =>
      obtain rfl := Except.error.inj he
      rfl
    | succ n =>
      rw [targetOfName] at he
      split at he
      · obtain rfl := Except.error.inj he
        rfl
      · simp only [hb, hv] at he
        exact ih he
  | inline f => cases he
  | @sub name r root path _ ih =>
    have hbase : r.targetOver (M.targetOfName n seen) = .error e := by
      rw [FeatureRef.targetOver] at he
      cases hr : r.targetOver (M.targetOfName n seen) with
      | error e' =>
        rw [hr] at he
        exact he
      | ok t =>
        rw [hr] at he
        cases he
    exact ih hbase

/-- No chain of aliases leads from a reference that designates something into a cycle. -/
theorem Designates.not_aliasCyclic (h : M.Designates r root path) : ¬ M.AliasCyclic r := by
  induction h with
  | @named name b r root path hb hv _ ih =>
    rintro ⟨_, other, hhead, hto, hcycle⟩
    obtain rfl := Option.some.inj hhead
    -- The first step of the chain, or of the cycle, leads to the head of what is bound.
    have hstep : ∀ {next}, M.Aliases name next → r.head? = some next := by
      rintro next ⟨b', r', hb', hv', hhead'⟩
      obtain rfl := Option.some.inj (hb.symm.trans hb')
      obtain rfl := BoundValue.feature.inj (hv.symm.trans hv')
      exact hhead'
    rcases ReflTransGen.cases_head hto with rfl | ⟨next, hnext, hrest⟩
    · obtain ⟨next, hnext, hback⟩ := TransGen.head'_iff.mp hcycle
      exact ih ⟨next, next, hstep hnext, .refl, .tail' hback hnext⟩
    · exact ih ⟨next, other, hstep hnext, hrest, hcycle⟩
  | inline f =>
    rintro ⟨_, _, hhead, -⟩
    cases hhead
  | sub name _ ih => exact ih

theorem target_eq_ok_iff : M.target r = .ok (root, path) ↔ M.Designates r root path := by
  constructor
  · exact designates_of_targetOver fun _ _ _ => designates_of_targetOfName
  · intro h
    cases ht : M.target r with
    | error e => exact absurd (target_circular ht (h.circular ht)) h.not_aliasCyclic
    | ok t =>
      have ht' : M.Designates r t.1 t.2 :=
        designates_of_targetOver (fun _ _ _ => designates_of_targetOfName) ht
      obtain ⟨rfl, rfl⟩ := h.unique ht'
      rfl

end Model

/-! ## References that say the same -/

/-- A reference says the same as another, with no name for the second as a whole. -/
inductive FeatureRef.RewordedHead (w : Rewording) : FeatureRef → FeatureRef → Prop where
  | renamed {name name'} : w.renamed name name' → RewordedHead w (.named name) (.named name')
  | unfolded {name b r r'} : w.first.binding? name = some b → b.value = .feature r →
      r.Reworded w r' → RewordedHead w (.named name) r'
  | inline {f f'} : f.Reworded w f' → RewordedHead w (.inline f) (.inline f')
  | sub (name : String) {r r'} : r.Reworded w r' → RewordedHead w (.sub r name) (.sub r' name)

/-- Names for the second reference as a whole are followed to their end. -/
theorem FeatureRef.Reworded.head {w : Rewording} {r r' : FeatureRef} :
    r.Reworded w r' → ∃ s, r.RewordedHead w s ∧
      ∀ root path, w.second.Designates s root path → w.second.Designates r' root path
  | .renamed h => ⟨_, .renamed h, fun _ _ h => h⟩
  | .unfolded hb hv h => ⟨_, .unfolded hb hv h, fun _ _ h => h⟩
  | .folded hb hv h => by
    obtain ⟨s, hs, hfollow⟩ := h.head
    exact ⟨s, hs, fun root path hd => .named hb hv (hfollow root path hd)⟩
  | .inline h => ⟨_, .inline h, fun _ _ h => h⟩
  | .sub name h => ⟨_, .sub name h, fun _ _ h => h⟩

/-- References that say the same designate constructions that do. -/
theorem Rewording.Holds.designates {w : Rewording} (hw : w.Holds) {r r' : FeatureRef}
    {root : Feature} {path : List String} (h : w.first.Designates r root path)
    (hr : r.Reworded w r') :
    ∃ root', w.second.Designates r' root' path ∧ root.Reworded w root' := by
  induction h generalizing r' with
  | @named name b r root path hb hv _ ih =>
    obtain ⟨s, hs, hfollow⟩ := hr.head
    cases hs with
    | renamed hname =>
      obtain ⟨b', hb', hvalue⟩ := hw _ _ _ hname hb
      rw [hv] at hvalue
      generalize hv' : b'.value = value at hvalue
      cases hvalue with
      | feature hr' =>
        obtain ⟨root', hd, hroot⟩ := ih hr'
        exact ⟨root', hfollow _ _ (.named hb' hv' hd), hroot⟩
    | unfolded hb' hv' hr' =>
      obtain rfl := Option.some.inj (hb.symm.trans hb')
      obtain rfl := BoundValue.feature.inj (hv.symm.trans hv')
      obtain ⟨root', hd, hroot⟩ := ih hr'
      exact ⟨root', hfollow _ _ hd, hroot⟩
  | inline f =>
    obtain ⟨s, hs, hfollow⟩ := hr.head
    cases hs with
    | inline hf => exact ⟨_, hfollow _ _ (.inline _), hf⟩
  | sub name _ ih =>
    obtain ⟨s, hs, hfollow⟩ := hr.head
    cases hs with
    | sub _ hr' =>
      obtain ⟨root', hd, hroot⟩ := ih hr'
      exact ⟨root', hfollow _ _ (.sub name hd), hroot⟩

/-- References that say the same are followed to constructions that do. -/
theorem Rewording.Holds.target {w : Rewording} (hw : w.Holds) {r r' : FeatureRef}
    (hr : r.Reworded w r') {root : Feature} {path : List String}
    (h : w.first.target r = .ok (root, path)) :
    ∃ root', w.second.target r' = .ok (root', path) ∧ root.Reworded w root' := by
  obtain ⟨root', hd, hroot⟩ := hw.designates (Model.target_eq_ok_iff.mp h) hr
  exact ⟨root', Model.target_eq_ok_iff.mpr hd, hroot⟩

end PartScript
