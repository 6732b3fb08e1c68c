/-
  Evaluation ends. Answers that are not cut off are the same at every greater depth, and no
  query of a workbench is cut off, so the depth bounds nothing that a query comes to: it is
  the answer of the recursion without a bound. The same holds of following names.
-/
import PartScript.Proofs.Acyclicity

namespace PartScript

/-! ## Computations that go further -/

namespace Build

variable {α β : Type}

/-- `m'` does the same as `m` wherever `m` is not cut off. -/
def Refines (m m' : Build α) : Prop :=
  ∀ s, (m s).1 ≠ .error .exhausted → m' s = m s

namespace Refines

variable {m m' : Build α} {k k' : α → Build β}

theorem refl (m : Build α) : m.Refines m := fun _ _ => rfl

theorem bind (hm : m.Refines m') (hk : ∀ a, (k a).Refines (k' a)) :
    (m >>= k).Refines (m' >>= k') := by
  intro s hne
  have hs := hm s
  rw [bind_apply] at hne
  rw [bind_apply, bind_apply]
  rcases hr : m s with ⟨h | a, t⟩
  · rw [hr] at hne hs
    rw [hs (by simpa using hne)]
  · rw [hr] at hne hs
    rw [hs (by simp)]
    exact hk a t hne

/-- What goes on after an attempt goes further, if it does not hide that the attempt was
cut off. -/
theorem attempt {k : Except Halt α → Build β} (hm : m.Refines m')
    (hcut : ∀ s, (k (.error .exhausted) s).1 = .error .exhausted) :
    (attempt m >>= k).Refines (attempt m' >>= k) := by
  intro s hne
  have hs : m' s = m s := by
    refine hm s fun hm => hne ?_
    simp only [bind_apply, Build.attempt, hm]
    exact hcut _
  simp only [bind_apply, Build.attempt, hs]

end Refines

end Build

/-- Answers that go further. -/
def Answers.Refines (ask ask' : Answers) : Prop := ∀ d, (ask d).Refines (ask' d)

namespace Evaluation

variable {ask ask' : Answers} (hask : ask.Refines ask')
include hask

theorem run_refines {α : Type} (p : Plan α) : (p.run ask).Refines (p.run ask') := by
  induction p with
  | done a => exact .refl _
  | stop e => exact .refl _
  | demand d user next ih =>
    refine Build.Refines.bind (fun s hne => ?_) ih
    rw [Build.asInput_apply] at hne ⊢
    rw [Build.asInput_apply]
    rcases hr : ask d s with ⟨h | a, t⟩
    · rw [hr] at hne
      have hnot : h ≠ .exhausted := by
        rintro rfl
        exact hne (by cases user <;> rfl)
      rw [hask d s (by rw [hr]; simpa using hnot), hr]
    · rw [hask d s (by rw [hr]; simp), hr]
  | identify d next ih => exact Build.Refines.bind (.refl _) ih

theorem fingerprint_refines (ev : Evaluation) (f : Feature) :
    (ev.fingerprint ask f).Refines (ev.fingerprint ask' f) := by
  unfold fingerprint
  refine .bind (.refl _) fun state => ?_
  split
  · exact .refl _
  · refine .bind (.refl _) fun _ => .attempt (run_refines hask _) fun s => ?_
    rfl

theorem hashOver_refines (ev : Evaluation) (f : Feature) :
    (ev.hashOver ask f).Refines (ev.hashOver ask' f) := by
  unfold hashOver
  refine .bind (.refl _) fun state => ?_
  split
  · exact .refl _
  · exact .bind (fingerprint_refines hask ev f) fun _ => .refl _

theorem buildAnew_refines (ev : Evaluation) (f : Feature) :
    (ev.buildAnew ask f).Refines (ev.buildAnew ask' f) := by
  unfold buildAnew
  refine .bind (fingerprint_refines hask ev f) fun x => ?_
  dsimp only
  -- With a cache or without one, there is a known answer or none.
  split
  all_goals
    refine .bind (.refl _) fun known => ?_
    cases known with
    | none => exact .bind (run_refines hask _) fun _ => .refl _
    | some answer => exact .refl _

theorem buildOver_refines (ev : Evaluation) (f : Feature) :
    (ev.buildOver ask f).Refines (ev.buildOver ask' f) := by
  unfold buildOver
  refine .bind (.refl _) fun state => ?_
  split
  · exact .refl _
  · exact .refl _
  · exact .refl _
  · refine .bind (.refl _) fun _ => .attempt (buildAnew_refines hask ev f) fun s => ?_
    rfl

theorem answerOver_refines (ev : Evaluation) :
    Answers.Refines (ev.answerOver ask) (ev.answerOver ask') := by
  intro d
  cases d with
  | hash f => exact hashOver_refines hask ev f
  | build f => exact buildOver_refines hask ev f
  | _ => exact run_refines hask _

omit hask in
/-- At a greater depth answers go further. -/
theorem answer_refines (ev : Evaluation) {n n' : Nat} (hn : n ≤ n') :
    Answers.Refines (ev.answer n) (ev.answer n') := by
  induction n generalizing n' with
  | zero => exact fun d s hne => absurd rfl hne
  | succ n ih =>
    obtain ⟨n', rfl⟩ := Nat.exists_eq_add_of_le' (Nat.lt_of_lt_of_le (Nat.succ_pos n) hn)
    exact fun d => answerOver_refines (ih (Nat.le_of_succ_le_succ hn)) ev d

end Evaluation

/-! ## Names -/

namespace Model

variable {M : Model}

/-- Names that have been followed leave as many steps as are needed. -/
theorem Followed.targetOfName_eq {n n' : Nat} {seen : List String} (h : M.Followed n seen)
    (hn : n ≤ n') (name : String) : M.targetOfName n' seen name = M.targetOfName n seen name := by
  induction n generalizing n' seen name with
  | zero => exact absurd h.pos (Nat.lt_irrefl 0)
  | succ n ih =>
    obtain ⟨n', rfl⟩ := Nat.exists_eq_add_of_le' (Nat.lt_of_lt_of_le (Nat.succ_pos n) hn)
    unfold targetOfName
    by_cases hmem : name ∈ seen
    · rw [if_pos (by simpa using hmem), if_pos (by simpa using hmem)]
    · rw [if_neg (by simpa using hmem), if_neg (by simpa using hmem)]
      cases hb : M.binding? name with
      | none => rfl
      | some b =>
        have hbelow : M.targetOfName n' (name :: seen) = M.targetOfName n (name :: seen) :=
          funext (ih (h.cons hmem (by simp [hb])) (Nat.le_of_succ_le_succ hn))
        rw [hbelow]

/-- Where a reference leads is not a matter of how many names may be followed. -/
theorem targetOver_eq {n : Nat} (hn : M.bindings.length + 1 ≤ n) (r : FeatureRef) :
    r.targetOver (M.targetOfName n []) = M.target r := by
  have heq : M.targetOfName n [] = M.targetOfName (M.bindings.length + 1) [] :=
    funext ((Followed.nil M).targetOfName_eq hn)
  rw [heq, target]

end Model

/-! ## Queries -/

namespace Workbench

variable {registry : Registry} {b : Workbench} {id : Nat} {q : Query}

/-- What a query comes to at every depth that is great enough. -/
theorem Keeps.outcome_eq (h : b.Keeps registry id) (hq : q.constructions ⊆ b.constructions id)
    {n : Nat} (hn : (b.shop.evaluation id).depth (b.made id).length ≤ n) :
    (q.plan (b.shop.evaluation id)).run ((b.shop.evaluation id).answer n) (b.shop.state id) =
      b.outcome id q :=
  Evaluation.run_refines ((b.shop.evaluation id).answer_refines hn) _ _ (h.ended hq)

/-- Every query ends with a value or an error. This is what it comes to at every depth from
an explicit bound on, so nesting has no more levels than that, and cyclic scripts are no
exception. Following names ends as well, within one step for each binding and one more. -/
theorem evaluation_ends {registries : Nat → Registry} {backend : Backend} {scope : CacheScope}
    {b : Workbench} (hb : Reachable registries backend scope b) (id : Nat) :
    (∀ q : Query, q.constructions ⊆ b.constructions id →
      ∃ (answer : Except BuildError q.Answer) (after : BuildState),
        b.ask id q = (answer.mapError .failed, { b with shop := b.shop.setState id after }) ∧
        ∀ n, (b.shop.evaluation id).depth (b.made id).length ≤ n →
          (q.plan (b.shop.evaluation id)).run ((b.shop.evaluation id).answer n)
            (b.shop.state id) = (answer.mapError .failed, after)) ∧
    ∀ (r : FeatureRef) n, (b.shop.session id).model.bindings.length + 1 ≤ n →
      r.targetOver ((b.shop.session id).model.targetOfName n []) =
        (b.shop.session id).model.target r := by
  have hkeeps := hb.kept.sessions id
  refine ⟨fun q hq => ?_, fun r n hn => Model.targetOver_eq hn r⟩
  have hended : (b.outcome id q).1 ≠ .error .exhausted := hkeeps.ended hq
  obtain ⟨answer, hanswer⟩ : ∃ answer : Except BuildError q.Answer,
      answer.mapError .failed = (b.outcome id q).1 := by
    cases ho : (b.outcome id q).1 with
    | ok a => exact ⟨.ok a, rfl⟩
    | error h =>
      cases h with
      | failed e => exact ⟨.error e, rfl⟩
      | exhausted => exact absurd ho hended
  refine ⟨answer, (b.outcome id q).2, ?_, fun n hn => ?_⟩
  · rw [hanswer]
    exact ask_eq b id q
  · rw [hanswer]
    exact hkeeps.outcome_eq hq hn

set_option maxRecDepth 100000 in
/-- Building either of two compounds that are parts of each other ends with an error, at every
depth from 16 on. -/
theorem evaluation_ends_entangled : ∃ f ∈ entangled.constructions 0, ∃ e after,
    (∀ n, 16 ≤ n →
      ((Query.result f).plan (entangled.shop.evaluation 0)).run
          ((entangled.shop.evaluation 0).answer n) (entangled.shop.state 0) =
        (.error (.failed e), after)) ∧
      e.rootCause = .circularDependency "a" := by
  have hreachable : Reachable (fun _ => Catalog.registry) (Symbolic.backend []) .session entangled :=
    .single (.works (.load 0 _))
  have hfound : (entangled.constructions 0).any
      (fun f => circularLabel? (entangled.ask 0 (.result f)).1 = some "a") = true := by
    decide +kernel
  have hdepth : (entangled.shop.evaluation 0).depth (entangled.made 0).length = 16 := by
    decide +kernel
  obtain ⟨f, hf, hcircular⟩ := List.any_eq_true.mp hfound
  have hcircular := of_decide_eq_true hcircular
  obtain ⟨e, hanswer, hcause⟩ := of_circularLabel? hcircular
  have hq := (hreachable.kept.sessions 0).closed.constructions hf
  obtain ⟨answer, after, hask, hdeeper⟩ := (evaluation_ends hreachable 0).1 (.result f) hq
  have heq : answer.mapError Halt.failed = .error (.failed e) := by
    rw [← hanswer, hask]
  rw [heq, hdepth] at hdeeper
  exact ⟨f, hf, e, after, hdeeper, hcause⟩

end Workbench

end PartScript
