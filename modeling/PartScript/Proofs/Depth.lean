/-
  Evaluation ends within its depth. Along a chain of demands each feature that is entered is
  marked as being under way, so no more features are entered than were not under way before;
  and between two features each name that is followed was bound before the last one.
-/
import PartScript.Proofs.Engine
import PartScript.Proofs.Resolution

namespace PartScript

/-! ## Names bound before one another -/

namespace Model

/-- The place of the binding of a name among the bindings. -/
def rank (M : Model) (name : String) : Nat := M.bindings.findIdx (·.name == name)

theorem rank_lt {M : Model} {name : String} {b : Binding} (h : M.binding? name = some b) :
    M.rank name < M.bindings.length := by
  obtain ⟨hmem, hname⟩ := mem_of_binding? h
  exact List.findIdx_lt_length_of_exists ⟨b, hmem, by simpa using hname⟩

/-- The names among the items, if they are bound, are bound before place `i`. -/
def Below (M : Model) (i : Nat) (items : List Item) : Prop :=
  ∀ kind name b, Item.symbol kind name ∈ items → M.binding? name = some b → M.rank name < i

/-- Bound values only use names bound before them. -/
def Ordered (M : Model) : Prop :=
  ∀ name b, M.binding? name = some b → M.Below (M.rank name) b.value.items

theorem below_length (M : Model) (items : List Item) : M.Below M.bindings.length items :=
  fun _ _ _ _ hb => rank_lt hb

end Model

/-! ## Features not under way -/

/-- Whether a feature is neither being identified nor being built. -/
def FeatureState.isIdle (state : FeatureState) : Bool :=
  !state.hashing &&
    match state.progress with
    | .building => false
    | _ => true

theorem FeatureState.isIdle_iff (state : FeatureState) :
    state.isIdle = true ↔ state.hashing = false ∧ state.progress ≠ .building := by
  unfold isIdle
  cases state.progress <;> simp

theorem FeatureState.Advances.isIdle {a b : FeatureState} (h : a.Advances b) :
    b.isIdle = a.isIdle := by
  rw [Bool.eq_iff_iff, isIdle_iff, isIdle_iff, h.hashing, ne_eq, h.building_iff]

namespace BuildState

/-- A feature that is being built has been identified, or is being identified. -/
def Ready (s : BuildState) : Prop :=
  ∀ f, (s.feature f).progress = .building →
    (s.feature f).hashing = true ∨ (s.feature f).hash? ≠ none

/-- The number of features that are not under way. -/
def idle (s : BuildState) (fs : List Feature) : Nat := fs.countP fun f => (s.feature f).isIdle

theorem Ready.feature_advances {a b : FeatureState} (h : a.Advances b)
    (ha : a.progress = .building → a.hashing = true ∨ a.hash? ≠ none)
    (hb : b.progress = .building) : b.hashing = true ∨ b.hash? ≠ none := by
  rcases ha (h.building_iff.mp hb) with hh | hh
  · exact .inl (h.hashing.trans hh)
  · obtain ⟨g, hg⟩ := Option.ne_none_iff_exists'.mp hh
    right
    rw [h.hash? hg]
    exact Option.some_ne_none g

theorem Ready.advances {s s' : BuildState} (h : s.Ready) (hs : s.Advances s') : s'.Ready :=
  fun f => feature_advances (hs.feature f) (h f)

theorem Resting.ready {s : BuildState} (h : s.Resting) : s.Ready :=
  fun f hf => absurd hf (h f).2

theorem Advances.idle {s s' : BuildState} (h : s.Advances s') (fs : List Feature) :
    s'.idle fs = s.idle fs := by
  unfold BuildState.idle
  congr 1
  funext f
  exact (h.feature f).isIdle

section Entering

variable {s : BuildState} {f : Feature} {change : FeatureState → FeatureState}
  (hchange : ∀ a, (change a).isIdle = false)
include hchange

theorem isIdle_update {g : Feature} (hg : ((s.update f change).feature g).isIdle = true) :
    (s.feature g).isIdle = true := by
  rw [feature_update] at hg
  split at hg
  · rw [hchange] at hg
    cases hg
  · exact hg

/-- Entering a feature leaves no more features that are not under way. -/
theorem idle_update_le (fs : List Feature) : (s.update f change).idle fs ≤ s.idle fs :=
  List.countP_mono_left fun _ _ => isIdle_update hchange

/-- Entering a feature that was not under way leaves fewer that are not. -/
theorem idle_update_lt {fs : List Feature} (hf : f ∈ fs) (hidle : (s.feature f).isIdle = true) :
    (s.update f change).idle fs < s.idle fs := by
  have hnot : ((s.update f change).feature f).isIdle = false := by
    rw [feature_update, if_pos rfl, hchange]
  unfold BuildState.idle
  induction fs with
  | nil => cases hf
  | cons g fs ih =>
    rw [List.countP_cons, List.countP_cons]
    rcases List.mem_cons.mp hf with rfl | hf
    · have hle := idle_update_le (s := s) (f := f) hchange fs
      unfold BuildState.idle at hle
      rw [if_neg (by rw [hnot]; exact Bool.false_ne_true), if_pos hidle]
      omega
    · have hlt := ih hf
      by_cases hg : ((s.update f change).feature g).isIdle = true
      · rw [if_pos hg, if_pos (isIdle_update hchange hg)]
        omega
      · rw [if_neg hg]
        omega

end Entering

end BuildState

/-! ## Depths that suffice -/

/-- Depth `n` suffices for a demand while `k` features are not under way. Features take turns
with at most as many names as there are bindings. -/
def Demand.Fits (M : Model) (k n : Nat) : Demand → Prop
  | .hash _ => k * (M.bindings.length + 2) < n
  | .build _ => k * (M.bindings.length + 2) < n
  | .scalar _ value => ∃ i, M.Below i value.items ∧ k * (M.bindings.length + 2) + i + 1 < n
  | .vector _ value => ∃ i, M.Below i value.items ∧ k * (M.bindings.length + 2) + i + 1 < n
  | .datum _ value => ∃ i, M.Below i value.items ∧ k * (M.bindings.length + 2) + i + 1 < n
  | .selection _ value => ∃ i, M.Below i value.items ∧ k * (M.bindings.length + 2) + i + 1 < n

/-- The demand for an item follows a name bound earlier, or enters a feature. -/
theorem Item.Makes.fits {M : Model} (hM : M.Ordered) {user : Option String} {item : Item}
    {items : List Item} {d : Demand} (hm : item.Makes M user d) (hitem : item ∈ items)
    {i k n : Nat} (hi : M.Below i items) (hn : k * (M.bindings.length + 2) + i < n) :
    d.Fits M k n := by
  cases hm with
  | identity _ => exact Nat.lt_of_le_of_lt (Nat.le_add_right _ _) hn
  | result _ => exact Nat.lt_of_le_of_lt (Nat.le_add_right _ _) hn
  | @scalar name b value hb hv | @vector name b value hb hv | @datum name b value hb hv
  | @selection name b value hb hv =>
    have hrank := hi _ _ _ hitem hb
    have hbelow := hM name b hb
    rw [hv] at hbelow
    exact ⟨M.rank name, hbelow, by omega⟩

namespace Evaluation

variable {ev : Evaluation} {fs : List Feature}

/-- The answers that a depth of `n` gives are not cut off where the depth suffices. -/
def Ample (ev : Evaluation) (fs : List Feature) (n : Nat) : Prop :=
  ∀ (d : Demand) (s : BuildState), s.Ready → d.constructions ⊆ fs →
    d.Fits ev.model (s.idle fs) n → (ev.answer n d s).1 ≠ .error .exhausted

theorem run_not_exhausted (hfs : Closed ev.model fs) (hM : ev.model.Ordered) {n : Nat}
    (hn : ev.Ample fs n) {user : Option String} {α : Type} {known : List StructuralHash}
    {items : List Item} {p : Plan α} (hp : p.Walks ev.model user known items)
    (hitems : ItemsWithin fs items) {i : Nat} (hi : ev.model.Below i items) {s : BuildState}
    (hs : s.Ready) (hdepth : s.idle fs * (ev.model.bindings.length + 2) + i < n) :
    (p.run (ev.answer n) s).1 ≠ .error .exhausted := by
  induction hp generalizing s with
  | done => simp
  | stop => simp
  | @demand known item items d reported next hm _ ih =>
    have hask := hn d s hs (hfs.makes (hitems item List.mem_cons_self) hm)
      (hm.fits hM List.mem_cons_self hi hdepth)
    have hadv := ev.answer_advances n d s
    rw [Plan.run_demand]
    rcases hr : ev.answer n d s with ⟨h | a, s'⟩
    · rw [hr] at hask
      cases h with
      | exhausted => exact absurd rfl hask
      | failed e => cases reported <;> simp [Halt.within]
    · rw [hr] at hadv
      refine ih a (fun x hx => hitems x (List.mem_cons_of_mem _ hx))
        (fun kind name b hx => hi kind name b (List.mem_cons_of_mem _ hx)) (hs.advances hadv) ?_
      rw [hadv.idle]
      exact hdepth
  | identify _ _ ih => exact ih _ hitems hi hs hdepth

/-- Entering a feature that was not under way leaves enough depth for what it asks for. -/
theorem entered_depth {s t : BuildState} {n : Nat} (hlt : t.idle fs < s.idle fs)
    (hdepth : s.idle fs * (ev.model.bindings.length + 2) < n + 1) :
    t.idle fs * (ev.model.bindings.length + 2) + ev.model.bindings.length < n := by
  have hmul := Nat.mul_le_mul_right (ev.model.bindings.length + 2) hlt
  rw [Nat.succ_mul] at hmul
  omega

/-- Every feature but `f` that is being built has been or is being identified. -/
def ReadyBut (s : BuildState) (f : Feature) : Prop :=
  ∀ g, g.origin ≠ f.origin → (s.feature g).progress = .building →
    (s.feature g).hashing = true ∨ (s.feature g).hash? ≠ none

theorem ReadyBut.setHashing {s : BuildState} {f : Feature} (hs : ReadyBut s f) :
    (s.setHashing f true).Ready := by
  intro g
  rw [BuildState.setHashing, BuildState.feature_update]
  split
  · exact fun _ => .inl rfl
  · next hne => exact hs g (Ne.symm hne)

theorem ReadyBut.identified {s s' : BuildState} {f : Feature} {args : List ResolvedArgument}
    (hs : ReadyBut s f) (hadv : s.Advances (s'.identified f args)) :
    (s'.identified f args).Ready := by
  intro g hg
  by_cases hfg : g.origin = f.origin
  · right
    rw [BuildState.feature_identified, if_pos hfg.symm]
    simp
  · exact BuildState.Ready.feature_advances (hadv.feature g) (hs g hfg) hg

section Entering

variable (hfs : Closed ev.model fs) (hM : ev.model.Ordered) {n : Nat} (hn : ev.Ample fs n)
  {f : Feature} (hf : f ∈ fs) {s s' : BuildState}
include hfs hM hn hf

theorem Fingerprints.not_exhausted {o : Except Halt (StructuralHash × List ResolvedArgument)}
    (h : Fingerprints ev (ev.answer n) f s o s') (hs : ReadyBut s f)
    (hdepth : (s.setHashing f true).idle fs * (ev.model.bindings.length + 2) +
      ev.model.bindings.length < n) : o ≠ .error .exhausted := by
  have hrun := run_not_exhausted hfs hM hn (ev.arguments_walks [] f) (hfs.items hf)
    (ev.model.below_length _) hs.setHashing hdepth
  cases h with
  | entered _ => simp
  | stopped _ hr =>
    rw [hr] at hrun
    exact fun heq => hrun (by simpa using heq)
  | finished _ _ => simp

theorem Identifies.not_exhausted {o : Except Halt StructuralHash}
    (h : Identifies ev (ev.answer n) f s o s') (hs : s.Ready)
    (hdepth : s.idle fs * (ev.model.bindings.length + 2) < n + 1) : o ≠ .error .exhausted := by
  cases h with
  | remembered _ => simp
  | computed _ _ => simp
  | @halted h s' hnone hp =>
    suffices (Except.error h : Except Halt (StructuralHash × List ResolvedArgument)) ≠
        .error .exhausted by simpa using this
    cases hh : (s.feature f).hashing with
    | true =>
      cases hp with
      | entered _ => simp
      | stopped hidle _ => rw [hh] at hidle; cases hidle
    | false =>
      -- Were the feature being built, it would have been identified by now.
      have hidle : (s.feature f).isIdle = true := by
        rw [FeatureState.isIdle_iff]
        refine ⟨hh, fun hb => ?_⟩
        rcases hs f hb with ht | hne
        · rw [hh] at ht
          cases ht
        · exact hne hnone
      have hlt : (s.setHashing f true).idle fs < s.idle fs :=
        BuildState.idle_update_lt (by simp [FeatureState.isIdle]) hf hidle
      exact hp.not_exhausted hfs hM hn hf (fun g _ => hs g) (entered_depth hlt hdepth)

theorem BuildsAnew.not_exhausted {o : Except Halt BuildResult}
    (h : BuildsAnew ev (ev.answer n) f s o s') (hs : ReadyBut s f)
    (hdepth : s.idle fs * (ev.model.bindings.length + 2) + ev.model.bindings.length < n) :
    o ≠ .error .exhausted := by
  have hle : (s.setHashing f true).idle fs ≤ s.idle fs :=
    BuildState.idle_update_le (by simp [FeatureState.isIdle]) fs
  have hmul := Nat.mul_le_mul_right (ev.model.bindings.length + 2) hle
  cases h with
  | @unidentified h s' hp =>
    have hne := hp.not_exhausted hfs hM hn hf hs (by omega)
    exact fun heq => hne (by simpa using heq)
  | @recalled _ _ _ answer _ _ _ => cases answer <;> simp [outcomeOf]
  | @invoked _ _ _ _ _ answer _ _ _ _ => cases answer <;> simp [outcomeOf]
  | @starved h args s' halt s'' hp _ hr =>
    have hadv := hp.advances (ev.answer_advances n)
    obtain ⟨-, -, t, hrun, rfl⟩ := hp.of_ok
    have hready := (hs.identified hadv).advances (.missed _ ev.caching)
    have hadv' := hadv.trans (.missed _ ev.caching)
    have hne := run_not_exhausted hfs hM hn (inputs_walks ev (some f.label) args [])
      (arguments_inputs_within hfs hf hrun) (ev.model.below_length _) hready
      (by rw [hadv'.idle]; exact hdepth)
    rw [hr] at hne
    exact fun heq => hne (by simpa using heq)

theorem Builds.not_exhausted {o : Except Halt BuildResult}
    (h : Builds ev (ev.answer n) f s o s') (hs : s.Ready)
    (hdepth : s.idle fs * (ev.model.bindings.length + 2) < n + 1) : o ≠ .error .exhausted := by
  cases h with
  | remembered _ => simp
  | failed _ => simp
  | entered _ => simp
  | @anew _ s' hp hb =>
    have hbut : ReadyBut (s.setProgress f .building) f := by
      intro g hg
      rw [BuildState.setProgress, BuildState.feature_update, if_neg (Ne.symm hg)]
      exact hs g
    cases hh : (s.feature f).hashing with
    | true =>
      -- The feature is being identified, which is noticed before anything is evaluated.
      have hstill : ((s.setProgress f .building).feature f).hashing = true := by
        rwa [BuildState.hashing_setProgress]
      have hentered : ∀ {o s'}, Fingerprints ev (ev.answer n) f (s.setProgress f .building) o s' →
          o = .error (.failed (.circularDependency f.label)) := by
        intro o s' hp
        cases hp with
        | entered _ => rfl
        | stopped hidle _ => rw [hstill] at hidle; cases hidle
        | finished hidle _ => rw [hstill] at hidle; cases hidle
      cases hb with
      | unidentified hp =>
        obtain rfl := Except.error.inj (hentered hp)
        simp
      | recalled hp _ _ => cases hentered hp
      | starved hp _ _ => cases hentered hp
      | invoked hp _ _ _ => cases hentered hp
    | false =>
      have hidle : (s.feature f).isIdle = true := by
        rw [FeatureState.isIdle_iff, hp]
        exact ⟨hh, by simp⟩
      have hlt : (s.setProgress f .building).idle fs < s.idle fs :=
        BuildState.idle_update_lt (by simp [FeatureState.isIdle]) hf hidle
      exact hb.not_exhausted hfs hM hn hf hbut (entered_depth hlt hdepth)

end Entering

/-- Every depth gives the answers for which it suffices. -/
theorem ample (hfs : Closed ev.model fs) (hM : ev.model.Ordered) (n : Nat) : ev.Ample fs n := by
  induction n with
  | zero =>
    intro d s _ _ hfits
    cases d with
    | hash f => exact absurd hfits (Nat.not_lt_zero _)
    | build f => exact absurd hfits (Nat.not_lt_zero _)
    | _ =>
      obtain ⟨i, -, hlt⟩ := hfits
      exact absurd hlt (Nat.not_lt_zero _)
  | succ n ih =>
    intro d s hs hd hfits
    cases d with
    | hash f =>
      have hf := hd f.mem_constructions
      exact (hashOver_cases ev _ f s).not_exhausted hfs hM ih hf hs hfits
    | build f =>
      have hf := hd f.mem_constructions
      exact (buildOver_cases ev _ f s).not_exhausted hfs hM ih hf hs hfits
    | scalar user value =>
      obtain ⟨i, hi, hlt⟩ := hfits
      exact run_not_exhausted hfs hM ih (ev.scalar_walks user [] value)
        (value.items_within.mono hd) hi hs (by omega)
    | vector user value =>
      obtain ⟨i, hi, hlt⟩ := hfits
      exact run_not_exhausted hfs hM ih (ev.vector_walks user [] value)
        (value.items_within.mono hd) hi hs (by omega)
    | datum user value =>
      obtain ⟨i, hi, hlt⟩ := hfits
      exact run_not_exhausted hfs hM ih (ev.datum_walks user [] value)
        (value.items_within.mono hd) hi hs (by omega)
    | selection user value =>
      obtain ⟨i, hi, hlt⟩ := hfits
      exact run_not_exhausted hfs hM ih (ev.selection_walks user [] value)
        (value.items_within.mono hd) hi hs (by omega)

/-- No question about a model is cut off, if the constructions that it can meet are no more
than those of the model and `extra` others. -/
theorem answers_not_exhausted (hfs : Closed ev.model fs) (hM : ev.model.Ordered) {extra : Nat}
    (hextra : fs.length ≤ ev.model.constructions.length + extra) {user : Option String}
    {α : Type} {known : List StructuralHash} {items : List Item} {p : Plan α}
    (hp : p.Walks ev.model user known items) (hitems : ItemsWithin fs items) {s : BuildState}
    (hs : s.Ready) : (p.run (ev.answers extra) s).1 ≠ .error .exhausted := by
  refine run_not_exhausted hfs hM (ample hfs hM _) hp hitems (ev.model.below_length _) hs ?_
  have hidle : s.idle fs ≤ fs.length := List.countP_le_length
  have hmul := Nat.mul_le_mul_right (ev.model.bindings.length + 2)
    (Nat.le_trans hidle hextra)
  unfold depth
  rw [Nat.add_mul _ 2]
  omega

end Evaluation

end PartScript
