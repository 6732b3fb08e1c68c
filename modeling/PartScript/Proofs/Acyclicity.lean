/-
  Circular dependencies are found exactly where there are some: in every session of every
  workbench, whatever was asked before, a construction is identified or built only if no
  cycle can be reached from it, and called circular only if one can.
-/
import PartScript.Catalog
import PartScript.Build.Symbolic
import PartScript.Proofs.Cycles
import PartScript.Proofs.Invariants

namespace PartScript

open Relation

/-! ## Constructions without cycles -/

/-- No construction that `f` depends on, by any number of steps, depends on itself. -/
def Model.Acyclic (M : Model) (f : Feature) : Prop :=
  ∀ g, ReflTransGen M.DependsOn f g → ¬ TransGen M.DependsOn g g

theorem Model.Acyclic.of_acc {M : Model} {f : Feature} (h : Acc (fun g f => M.DependsOn f g) f) :
    M.Acyclic f := by
  induction h with
  | intro f _ ih =>
    intro g hg hcycle
    rcases ReflTransGen.cases_head hg with rfl | ⟨k, hfk, hkg⟩
    · -- The first step of a cycle leads to a construction on the same cycle.
      obtain ⟨k, hfk, hkf⟩ := TransGen.head'_iff.mp hcycle
      exact ih k hfk k .refl (.tail' hkf hfk)
    · exact ih k hfk g hkg hcycle

namespace Workbench

/-! ## Answers about a construction -/

variable {registry : Registry} {b : Workbench} {id : Nat} {f : Feature} {q : Query}

theorem Keeps.ended (h : b.Keeps registry id) (hq : q.constructions ⊆ b.constructions id) :
    (b.ask id q).1 ≠ .error .exhausted := by
  obtain ⟨user, hwalks⟩ := q.plan_walks (b.shop.evaluation id)
  have hlength : (b.constructions id).length ≤
      (b.shop.session id).model.constructions.length + (b.made id).length :=
    Nat.le_of_eq List.length_append
  exact Evaluation.answers_not_exhausted h.closed (Model.ordered_of_scoped h.proper.names)
    hlength hwalks
    (Query.items_within (List.subset_append_left _ _) hq) h.resting.ready

/-- A construction that has an identity after a query depends on no cycle. -/
theorem Keeps.acyclic (h : b.Keeps registry id) (hq : q.constructions ⊆ b.constructions id)
    (hf : f ∈ b.constructions id) (hhash : ((b.outcome id q).2.feature f).hash? ≠ none) :
    (b.shop.session id).model.Acyclic f := by
  have hfounded := (h.founded _ h.closed (List.Subset.refl _)).changes
    (h.changes_ask hq h.closed (List.Subset.refl _))
  exact .of_acc (hfounded _ (.refl _) h.closed f hf hhash)

theorem Keeps.acyclic_identity (h : b.Keeps registry id) (hf : f ∈ b.constructions id)
    {hash : StructuralHash} (hanswer : (b.ask id (.identity f)).1 = .ok hash) :
    (b.shop.session id).model.Acyclic f := by
  have hq : (Query.identity f).constructions ⊆ b.constructions id := h.closed.constructions hf
  obtain ⟨-, hrecalls⟩ := h.recollects_ask hq h.closed (List.Subset.refl _)
  obtain ⟨x, hx, -⟩ := (hrecalls hash hanswer).of_demand
  have hhash : ((b.outcome id (.identity f)).2.feature f).hash? = some x := hx
  exact h.acyclic hq hf (by rw [hhash]; exact Option.some_ne_none x)

theorem Keeps.acyclic_result (h : b.Keeps registry id) (hf : f ∈ b.constructions id)
    {result : BuildResult} (hanswer : (b.ask id (.result f)).1 = .ok result) :
    (b.shop.session id).model.Acyclic f := by
  have hq : (Query.result f).constructions ⊆ b.constructions id := h.closed.constructions hf
  obtain ⟨hrecollects, hrecalls⟩ := h.recollects_ask hq h.closed (List.Subset.refl _)
  obtain ⟨x, hx, -⟩ := (hrecalls result hanswer).of_demand
  exact h.acyclic hq hf (hrecollects.built f hf x hx)

theorem Keeps.tangled (h : b.Keeps registry id) (hf : f ∈ b.constructions id)
    (hq : q = .identity f ∨ q = .result f) {e : BuildError}
    (hanswer : (b.ask id q).1 = .error (.failed e)) (hcircular : e.cause = .circular) :
    (b.shop.session id).model.Tangled f := by
  have hsub := h.closed.constructions hf
  rcases hq with rfl | rfl
  · exact Model.snarled_inline (.inl rfl)
      (((h.accounts_ask (q := .identity f) hsub h.closed (List.Subset.refl _)).2 e hanswer).snarled
        hcircular)
  · exact Model.snarled_inline (.inr rfl)
      (((h.accounts_ask (q := .result f) hsub h.closed (List.Subset.refl _)).2 e hanswer).snarled
        hcircular)

/-- What the backend was invoked for depends on no cycle. -/
theorem Kept.request_acyclic {registries : Nat → Registry} (h : b.Kept registries)
    {r : Nat × Origin × BuildRequest} (hr : r ∈ b.shop.requests) :
    ∃ f ∈ b.constructions r.1, f.origin = r.2.1 ∧ (b.shop.session r.1).model.Acyclic f := by
  obtain ⟨f, hf, horigin, -, hhash⟩ := h.requested r hr
  have hclosed := (h.sessions r.1).closed
  have hfounded := (h.sessions r.1).founded _ hclosed (List.Subset.refl _)
  exact ⟨f, hf, horigin, .of_acc (hfounded _ (.refl _) hclosed f hf hhash)⟩

/-! ## Circular dependencies are found exactly -/

/-- Circular dependencies are found exactly. A construction is identified or built only if no
cycle can be reached from it. A circular dependency is reported only if there is a cycle of
constructions, or of aliases, that can be reached. One of both is always answered, or another
error. The backend is never invoked for a construction that depends on itself. -/
theorem cycles_exact {registries : Nat → Registry} {backend : Backend} {scope : CacheScope}
    {b : Workbench} (hb : Reachable registries backend scope b) :
    (∀ id, ∀ f ∈ b.constructions id,
      let M := (b.shop.session id).model
      let identified := (b.ask id (.identity f)).1
      let built := (b.ask id (.result f)).1
      ((∃ hash, identified = .ok hash) ∨ (∃ result, built = .ok result) → M.Acyclic f) ∧
      (∀ e label, identified = .error (.failed e) ∨ built = .error (.failed e) →
        e.rootCause = .circularDependency label → M.Tangled f) ∧
      identified ≠ .error .exhausted ∧ built ≠ .error .exhausted) ∧
    ∀ r ∈ b.shop.requests, (∃ f ∈ b.constructions r.1, f.origin = r.2.1) ∧
      ∀ f ∈ b.constructions r.1, f.origin = r.2.1 →
        ¬ TransGen (b.shop.session r.1).model.DependsOn f f := by
  have hkept := hb.kept
  refine ⟨fun id f hf => ⟨?_, fun e label herror hcause => ?_, ?_, ?_⟩, fun r hr => ?_⟩
  · rintro (⟨hash, hanswer⟩ | ⟨result, hanswer⟩)
    · exact (hkept.sessions id).acyclic_identity hf hanswer
    · exact (hkept.sessions id).acyclic_result hf hanswer
  · have hcircular : e.cause = .circular := by
      rw [← e.cause_rootCause, hcause]
      rfl
    rcases herror with hanswer | hanswer
    · exact (hkept.sessions id).tangled hf (.inl rfl) hanswer hcircular
    · exact (hkept.sessions id).tangled hf (.inr rfl) hanswer hcircular
  · exact (hkept.sessions id).ended ((hkept.sessions id).closed.constructions hf)
  · exact (hkept.sessions id).ended ((hkept.sessions id).closed.constructions hf)
  · obtain ⟨f, hf, horigin, hacyclic⟩ := hkept.request_acyclic hr
    refine ⟨⟨f, hf, horigin⟩, fun g hg heq => ?_⟩
    obtain rfl := (hkept.sessions r.1).closed.unique g hg f hf (heq.trans horigin.symm)
    exact hacyclic g .refl

/-- Two compounds, each a part of the other. -/
def entangled : Workbench :=
  (create Catalog.registry (Symbolic.backend []) .session).load Catalog.registry 0
    (.script "a = Compound(b); b = Compound(a);")

/-- Where a circular dependency is the answer, what it is reported of. -/
def circularLabel? {α : Type} : Except Halt α → Option String
  | .error (.failed e) =>
    match e.rootCause with
    | .circularDependency label => some label
    | _ => none
  | _ => none

theorem of_circularLabel? {α : Type} {o : Except Halt α} {label : String}
    (h : circularLabel? o = some label) :
    ∃ e, o = .error (.failed e) ∧ e.rootCause = .circularDependency label := by
  unfold circularLabel? at h
  split at h
  · next e =>
    split at h
    · next hcause => exact ⟨e, rfl, hcause.trans (congrArg _ (Option.some.inj h))⟩
    · cases h
  · cases h

set_option maxRecDepth 100000 in
theorem cycles_exact_entangled : ∃ f ∈ entangled.constructions 0,
    circularLabel? (entangled.ask 0 (.identity f)).1 = some "a" ∧
      (entangled.shop.session 0).model.Tangled f := by
  have hreachable : Reachable (fun _ => Catalog.registry) (Symbolic.backend []) .session entangled :=
    .single (.works (.load 0 _))
  have hfound : (entangled.constructions 0).any
      (fun f => circularLabel? (entangled.ask 0 (.identity f)).1 = some "a") = true := by
    decide +kernel
  obtain ⟨f, hf, hcircular⟩ := List.any_eq_true.mp hfound
  have hcircular := of_decide_eq_true hcircular
  obtain ⟨e, hanswer, hcause⟩ := of_circularLabel? hcircular
  obtain ⟨-, htangled, -⟩ := (cycles_exact hreachable).1 0 f hf
  exact ⟨f, hf, hcircular, htangled e "a" (.inl hanswer) hcause⟩

end Workbench

end PartScript
