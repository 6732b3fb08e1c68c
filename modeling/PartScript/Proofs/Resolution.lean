/-
  What evaluated arguments are made of. An evaluated feature is where its reference leads,
  with the identity that was given for it; an evaluated selection has the identity and the
  result of the feature that it picks from.
-/
import PartScript.Proofs.Walk

namespace PartScript

/-! ## Values of plans -/

/-- Every value that a plan can end in satisfies `Q`, if the answers to its demands satisfy
`A` and what it describes satisfies `L`. -/
inductive Plan.Ensures (A : (d : Demand) → d.Answer → Prop) (L : Description → Prop) {α : Type}
    (Q : α → Prop) : Plan α → Prop where
  | done {a} : Q a → Ensures A L Q (.done a)
  | stop {e} : Ensures A L Q (.stop e)
  | demand {d : Demand} {reported : Option String} {next} :
      (∀ a, A d a → Ensures A L Q (next a)) → Ensures A L Q (.demand d reported next)
  | identify {d : Description} {next} : (L d → Ensures A L Q (next d.hash)) →
      Ensures A L Q (.identify d next)

namespace Plan.Ensures

variable {A : (d : Demand) → d.Answer → Prop} {L : Description → Prop} {α β : Type}
  {Q : α → Prop} {Q' : β → Prop}

theorem bind {p : Plan α} {f : α → Plan β} (h : p.Ensures A L Q)
    (hf : ∀ a, Q a → (f a).Ensures A L Q') : (p >>= f).Ensures A L Q' := by
  induction h with
  | done h => exact hf _ h
  | stop => exact .stop
  | demand _ ih => exact .demand ih
  | identify _ ih => exact .identify ih

theorem trivial (p : Plan α) : p.Ensures A L fun _ => True := by
  induction p with
  | done a => exact .done True.intro
  | stop e => exact .stop
  | demand d user next ih => exact .demand fun a _ => ih a
  | identify d next ih => exact .identify fun _ => ih _

theorem ofExcept (x : Except BuildError α) : (Plan.ofExcept x).Ensures A L fun a => x = .ok a := by
  cases x with
  | error e => exact .stop
  | ok a => exact .done rfl

/-- The value of a run, where nothing is assumed of answers and descriptions. -/
theorem run {ask : Answers} {p : Plan α} (h : p.Ensures (fun _ _ => True) (fun _ => True) Q)
    {s s' : BuildState} {a : α} (hr : p.run ask s = (.ok a, s')) : Q a := by
  induction h generalizing s with
  | done h =>
    obtain ⟨rfl, -⟩ : _ = a ∧ _ = s' := by simpa using hr
    exact h
  | stop => simp at hr
  | @demand d user next _ ih =>
    rw [run_demand] at hr
    rcases hx : ask d s with ⟨_ | x, s1⟩
    · simp [hx] at hr
    · rw [hx] at hr
      exact ih x True.intro hr
  | identify _ ih => exact ih True.intro hr

end Plan.Ensures

/-! ## Evaluated references, selections and arguments -/

variable (M : Model) (A : (d : Demand) → d.Answer → Prop) (L : Description → Prop)

/-- An evaluated feature is where a reference leads. Its identity is the one given for the
construction, or that of a sub-result of it. -/
structure ResolvedFeature.Backed (reference : FeatureRef) (r : ResolvedFeature) : Prop where
  target : M.target reference = .ok (r.root, r.path)
  identity : ∃ h, A (.hash r.root) h ∧
    (r.path = [] ∧ r.hash = h ∨
      r.path ≠ [] ∧ L (.subResult h r.path) ∧ r.hash = (Description.subResult h r.path).hash)

/-- What holds of the selections that selection expressions evaluate to: a query of a feature
gives it, and it depends on ids in no way, so that it passes from the first operand to a
combination, and from what a name is bound to, to the name. -/
structure Selection.Stable (fs : List Feature) (S : SelectionExpr → Selection → Prop) :
    Prop where
  query : ∀ (reference : FeatureRef) (r : ResolvedFeature) (result shape : BuildResult)
    (kind : EntityKind) (filter : String) (ids : IdSet), r.Backed M A L reference → r.root ∈ fs →
    A (.build r.root) result → result.descend r.root.label r.path = .ok shape →
    S (.query kind reference filter) ⟨r.hash, r.label, kind, ids, shape⟩
  union : ∀ left right t ids, S left t → S (.union left right) { t with ids := ids }
  difference : ∀ left right t ids, S left t → S (.difference left right) { t with ids := ids }
  symbol : ∀ user name b value t, M.binding? name = some b → b.value = .selection value →
    value.constructions ⊆ fs → A (.selection user value) t → S (.symbol name) t

/-- Features among evaluated arguments belong to `fs` and are where references lead, and
selections satisfy `S`. -/
def ResolvedArgument.Backed (fs : List Feature) (S : Selection → Prop) : ResolvedArgument → Prop
  | .feature r => (∃ reference, r.Backed M A L reference) ∧ r.root ∈ fs
  | .selection t => S t
  | _ => True

namespace Evaluation

variable {A L} {ev : Evaluation} {fs : List Feature}

theorem resolve_ensures (user : Option String) (reference : FeatureRef) :
    (ev.resolve user reference).Ensures A L
      fun r => r.Backed ev.model A L reference := by
  unfold resolve
  refine (Plan.Ensures.ofExcept _).bind fun t ht => ?_
  obtain ⟨root, path⟩ := t
  refine .demand fun h hh => ?_
  by_cases hp : path.isEmpty = true
  · simp only [hp]
    exact .done ⟨ht, h, hh, .inl ⟨List.isEmpty_iff.mp hp, rfl⟩⟩
  · simp only [hp]
    refine .identify fun hl => .done ⟨ht, h, hh, .inr ⟨?_, hl, rfl⟩⟩
    intro hnil
    exact hp (List.isEmpty_iff.mpr hnil)

/-- A combination is its first operand with other ids. -/
theorem combine_ensures {Q : Selection → Prop} {op : IdSet → IdSet → IdSet} {t u : Selection}
    (h : t.source = u.source → t.kind = u.kind → Q { t with ids := op t.ids u.ids }) :
    (combine op t u).Ensures A L Q := by
  unfold combine
  split
  · next heq => exact .done (h heq.1 heq.2)
  · exact .stop

variable (hfs : Closed ev.model fs)
include hfs

section Selections

variable {S : SelectionExpr → Selection → Prop} (hS : Selection.Stable ev.model A L fs S)
include hS

theorem query_ensures (user : Option String) (kind : EntityKind) {reference : FeatureRef}
    (hr : reference.constructions ⊆ fs) (filter : String) :
    (ev.query user kind reference filter).Ensures A L (S (.query kind reference filter)) := by
  unfold query
  refine (resolve_ensures user reference).bind fun r hback => ?_
  refine Plan.Ensures.bind (Q := fun shape => ∃ result, A (.build r.root) result ∧
    result.descend r.root.label r.path = .ok shape) ?_ ?_
  · refine .demand fun result hresult => ?_
    show Plan.Ensures A L _ (Plan.ofExcept (result.descend r.root.label r.path))
    cases hd : result.descend r.root.label r.path with
    | error e => exact .stop
    | ok shape => exact .done ⟨result, hresult, hd⟩
  · rintro shape ⟨result, hresult, hshape⟩
    cases ev.backend.select shape kind filter with
    | error source => exact .stop
    | ok ids =>
      have hroot := hfs.target hr hback.target
      exact .done (hS.query reference r result shape kind filter ids hback hroot hresult hshape)

theorem selection_ensures (user : Option String) : (e : SelectionExpr) →
    e.constructions ⊆ fs → (ev.selection user e).Ensures A L (S e)
  | .query kind feature filter, he => query_ensures hfs hS user kind he filter
  | .union left right, he => by
    obtain ⟨hl, hr⟩ := List.append_subset.mp he
    refine (selection_ensures user left hl).bind fun s hs => ?_
    exact (selection_ensures user right hr).bind fun t _ =>
      combine_ensures fun _ _ => hS.union left right s _ hs
  | .difference left right, he => by
    obtain ⟨hl, hr⟩ := List.append_subset.mp he
    refine (selection_ensures user left hl).bind fun s hs => ?_
    exact (selection_ensures user right hr).bind fun t _ =>
      combine_ensures fun _ _ => hS.difference left right s _ hs
  | .symbol name, _ => by
    unfold selection bound
    cases hb : ev.model.binding? name with
    | none => exact .stop
    | some b =>
      cases hv : b.value with
      | selection value =>
        simp only [hv, Plan.pure_eq, Plan.done_bind]
        have hsub := hfs.bindings b (Model.mem_of_binding? hb).1
        rw [hv] at hsub
        exact .demand fun t ht => .done (hS.symbol user name b value t hb hv hsub ht)
      | _ =>
        simp only [hv, Plan.pure_eq, Plan.done_bind]
        exact .stop

end Selections

variable {S : Selection → Prop} (hS : Selection.Stable ev.model A L fs fun _ => S)
include hS

theorem argument_ensures (user : Option String) (a : Argument) (ha : a.constructions ⊆ fs) :
    (ev.argument user a).Ensures A L (ResolvedArgument.Backed ev.model A L fs S) := by
  unfold argument
  cases a with
  | feature value =>
    refine (resolve_ensures user value).bind fun r hr => .done ⟨⟨value, hr⟩, ?_⟩
    exact hfs.target ha hr.target
  | selection value => exact (selection_ensures hfs hS user value ha).bind fun t ht => .done ht
  | keyword word => exact .done True.intro
  | scalar value => exact (Plan.Ensures.trivial _).bind fun x _ => .done True.intro
  | vector value => exact (Plan.Ensures.trivial _).bind fun v _ => .done True.intro
  | datum value => exact (Plan.Ensures.trivial _).bind fun d _ => .done True.intro

theorem argumentList_ensures (user : Option String) (as : List Argument)
    (has : Argument.constructionsIn as ⊆ fs) :
    (ev.argumentList user as).Ensures A L
      fun args => ∀ a ∈ args, ResolvedArgument.Backed ev.model A L fs S a := by
  induction as with
  | nil => exact .done (by simp)
  | cons a rest ih =>
    obtain ⟨ha, hrest⟩ := List.append_subset.mp has
    refine (argument_ensures hfs hS user a ha).bind fun x hx => ?_
    refine (ih hrest).bind fun xs hxs => .done ?_
    intro y hy
    rcases List.mem_cons.mp hy with rfl | hy
    · exact hx
    · exact hxs y hy

omit hfs hS in
/-- There are as many evaluated arguments as arguments. -/
theorem arguments_length (f : Feature) :
    (ev.arguments f).Ensures A L fun args => args.length = f.arguments.length := by
  have hlist : ∀ (user : Option String) (as : List Argument),
      (ev.argumentList user as).Ensures A L fun args => args.length = as.length := by
    intro user as
    induction as with
    | nil => exact .done rfl
    | cons a rest ih =>
      exact (Plan.Ensures.trivial _).bind fun x _ => ih.bind fun xs hxs =>
        .done (congrArg (· + 1) hxs)
  exact hlist _ _

/-- The evaluated arguments of a construction. -/
theorem arguments_ensures {f : Feature} (hf : f ∈ fs) :
    (ev.arguments f).Ensures A L
      fun args => ∀ a ∈ args, ResolvedArgument.Backed ev.model A L fs S a :=
  argumentList_ensures hfs hS _ _ (hfs.arguments f hf)

omit hS in
/-- The features among evaluated arguments belong to the collection. -/
theorem arguments_inputs_within {f : Feature} (hf : f ∈ fs) {ask : Answers} {s s' : BuildState}
    {args : List ResolvedArgument} (hr : (ev.arguments f).run ask s = (.ok args, s')) :
    ItemsWithin fs (inputItems args) := by
  have hstable : Selection.Stable ev.model (fun _ _ => True) (fun _ => True) fs
      fun _ _ => True := ⟨by simp, by simp, by simp, by simp⟩
  have hback := (arguments_ensures hfs hstable hf).run hr
  intro item hitem
  obtain ⟨r, hr, rfl⟩ := mem_inputItems hitem
  exact hfs.constructions (hback _ hr).2

end Evaluation

end PartScript
