/-
  Questions about names and outputs. Every question is answered, and by what it means: two
  sessions that hold the same names and whose memories are faithful give the same answer.
-/
import PartScript.Proofs.Answering
import PartScript.Proofs.Workshops

namespace PartScript

/-! ## Questions -/

/-- What a session is asked: what a name is bound to, the identity or the result of what a
name designates, or all outputs. -/
inductive Question where
  | scalar (name : String)
  | vector (name : String)
  | datum (name : String)
  | selection (name : String)
  | hash (name : String)
  | build (name : String)
  | outputs

/-- Outputs that differ in related results only. -/
structure BuiltOutput.Related (B : BuildResult → BuildResult → Prop) (x x' : BuiltOutput) :
    Prop where
  label : x.label = x'.label
  path : x.path = x'.path
  hash : x.hash = x'.hash
  result : B x.result x'.result

namespace Question

def Answer : Question → Type
  | scalar _ => Float
  | vector _ => Vec3
  | datum _ => Datum
  | selection _ => Selection
  | hash _ => StructuralHash
  | build _ => BuildResult
  | outputs => List BuiltOutput

/-- How a question is evaluated. -/
def plan (ev : Evaluation) : (q : Question) → Plan q.Answer
  | scalar name => ev.scalarNamed name
  | vector name => ev.vectorNamed name
  | datum name => ev.datumNamed name
  | selection name => ev.selectionNamed name
  | hash name => ev.hashNamed name
  | build name => ev.buildNamed name
  | outputs => ev.buildOutputs

/-- Related answers to a question. -/
def Related (B : BuildResult → BuildResult → Prop) : (q : Question) → q.Answer → q.Answer → Prop
  | scalar _ => Eq
  | vector _ => Eq
  | datum _ => Eq
  | selection _ => Selection.Related B
  | hash _ => Eq
  | build _ => B
  | outputs => List.Forall₂ (BuiltOutput.Related B)

end Question

/-- What building an output asks for. -/
def OutputTarget.items (output : OutputTarget) : List Item :=
  [.identity output.feature, .result output.feature]

/-- What a question asks for. -/
def Question.items (M : Model) : Question → List Item
  | scalar name => [.symbol .scalar name]
  | vector name => [.symbol .vector name]
  | datum name => [.symbol .datum name]
  | selection name => [.symbol .selection name]
  | hash name => [.identity (.named name)]
  | build name => [.result (.named name)]
  | outputs => M.outputTargets.flatMap OutputTarget.items

namespace Question

theorem Related.eq {q : Question} {a b : q.Answer} (h : q.Related Eq a b) : a = b := by
  cases q with
  | selection name => exact Selection.Related.eq h
  | outputs =>
    have hall : ∀ {xs ys : List BuiltOutput}, List.Forall₂ (BuiltOutput.Related Eq) xs ys →
        xs = ys := by
      intro xs ys hxs
      induction hxs with
      | nil => rfl
      | @cons x y xs ys hx _ ih =>
        obtain ⟨label, path, hash, result⟩ := x
        obtain ⟨rfl, rfl, rfl, rfl⟩ := hx
        rw [ih]
    exact hall h
  | _ => exact h

/-- Answers that are alike the same answer are alike. -/
theorem Related.join (q : Question) {a b c : q.Answer} (h : q.Related BuildResult.Alike a c)
    (h' : q.Related BuildResult.Alike b c) : q.Related BuildResult.Alike a b := by
  cases q with
  | selection name =>
    exact ⟨h.source.trans h'.source.symm, h.sourceLabel.trans h'.sourceLabel.symm,
      h.kind.trans h'.kind.symm, h.ids.trans h'.ids.symm, h.shape.trans h'.shape.symm⟩
  | build name => exact BuildResult.Alike.trans h (BuildResult.Alike.symm h')
  | outputs =>
    have hboth : ∀ {xs ys zs : List BuiltOutput},
        List.Forall₂ (BuiltOutput.Related BuildResult.Alike) xs zs →
        List.Forall₂ (BuiltOutput.Related BuildResult.Alike) ys zs →
        List.Forall₂ (BuiltOutput.Related BuildResult.Alike) xs ys := by
      intro xs ys zs hx
      induction hx generalizing ys with
      | nil =>
        intro hy
        cases hy
        exact .nil
      | cons hx _ ih =>
        intro hy
        cases hy with
        | cons hy hys =>
          exact .cons ⟨hx.label.trans hy.label.symm, hx.path.trans hy.path.symm,
            hx.hash.trans hy.hash.symm, hx.result.trans hy.result.symm⟩ (ih hys)
    exact hboth h h'
  | _ => exact Eq.trans h (Eq.symm h')

end Question

/-! ## Keeping step -/

namespace Question

section Matching

variable {c : Pairing} (hc : c.Sound)
include hc

theorem buildOutput_matches (output : OutputTarget) (known : List StructuralHash) :
    Plan.Matches c none (BuiltOutput.Related c.B) known output.items (c.ev.buildOutput output)
      (c.ev'.buildOutput output) := by
  refine (Evaluation.resolve_matches hc none output.feature known).bind ?_
  rintro r _ ⟨rfl, -⟩
  exact (Evaluation.buildReference_matches hc none output.feature []).map
    fun x x' hx => .done ⟨rfl, rfl, rfl, hx⟩

theorem buildEach_matches (outputs : List OutputTarget) (known : List StructuralHash) :
    Plan.Matches c none (List.Forall₂ (BuiltOutput.Related c.B)) known
      (outputs.flatMap OutputTarget.items) (c.ev.buildEach outputs) (c.ev'.buildEach outputs) := by
  induction outputs generalizing known with
  | nil => exact .done .nil
  | cons output rest ih =>
    exact (buildOutput_matches hc output known).bind fun x x' hx =>
      (ih []).map fun xs xs' hxs => .done (.cons hx hxs)

/-- Two evaluations over one model keep step on every question. -/
theorem plan_matches (hmodel : c.ev'.model = c.ev.model) (q : Question) :
    (q.plan c.ev).Matches c none (q.Related c.B) [] (q.items c.ev.model) (q.plan c.ev') := by
  cases q with
  | scalar name => exact Evaluation.scalar_matches hc none [] (.symbol name)
  | vector name => exact Evaluation.vector_matches hc none [] (.symbol name)
  | datum name => exact Evaluation.datum_matches hc none [] (.symbol name)
  | selection name => exact Evaluation.selection_matches hc none [] (.symbol name)
  | hash name =>
    refine (Evaluation.resolve_matches hc none (.named name) []).map ?_
    rintro r _ ⟨rfl, -⟩
    exact .done rfl
  | build name => exact Evaluation.buildReference_matches hc none (.named name) []
  | outputs =>
    show Plan.Matches c none _ [] _ c.ev.buildOutputs c.ev'.buildOutputs
    unfold Evaluation.buildOutputs
    rw [hmodel]
    split
    · exact .stop rfl ⟨nofun, nofun⟩
    · exact buildEach_matches hc _ []

end Matching

theorem plan_walks (ev : Evaluation) (q : Question) :
    (q.plan ev).Walks ev.model none [] (q.items ev.model) :=
  (plan_matches (Pairing.same_sound ev) rfl q).walks

/-- A question asks for nothing that is not written in the model. -/
theorem items_within (M : Model) (q : Question) : ItemsWithin M.constructions (q.items M) := by
  cases q with
  | outputs =>
    have htargets : ∀ output ∈ M.outputTargets,
        output.feature.constructions ⊆ M.constructions := by
      intro output houtput
      unfold Model.outputTargets at houtput
      split at houtput
      · split at houtput
        · obtain rfl := List.mem_singleton.mp houtput
          exact List.nil_subset _
        · cases houtput
      · obtain ⟨requested, hmem, rfl⟩ := List.mem_map.mp houtput
        intro f hf
        exact List.mem_append_right _ (List.mem_flatMap.mpr ⟨requested, hmem, hf⟩)
    intro item hitem
    obtain ⟨output, houtput, hitem⟩ := List.mem_flatMap.mp hitem
    rcases List.mem_cons.mp hitem with rfl | hitem
    · exact htargets output houtput
    · obtain rfl := List.mem_singleton.mp hitem
      exact htargets output houtput
  | _ => exact .single (List.nil_subset _)

end Question

end PartScript
