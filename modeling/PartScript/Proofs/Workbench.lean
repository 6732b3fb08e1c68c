/-
  Workbenches: any number of sessions in a workshop, with the constructions that were made in
  them without a binding. Every session loads, makes constructions and asks in any order, and
  caches are cleared in between.
-/
import PartScript.Proofs.Dependencies
import PartScript.Proofs.Questions

namespace PartScript

open Relation

/-! ## Queries -/

/-- What can be asked in a session: a question about its names, a value, the identity or the
result of what a reference designates, and the identity or the result of a construction. -/
inductive Query where
  | named (question : Question)
  | value (demand : Demand) (isValue : demand.IsValue)
  | resolve (reference : FeatureRef)
  | shape (reference : FeatureRef)
  | identity (f : Feature)
  | result (f : Feature)

namespace Query

def Answer : Query → Type
  | named question => question.Answer
  | value demand _ => demand.Answer
  | resolve _ => ResolvedFeature
  | shape _ => BuildResult
  | identity _ => StructuralHash
  | result _ => BuildResult

/-- How a query is evaluated. -/
def plan (ev : Evaluation) : (q : Query) → Plan q.Answer
  | named question => question.plan ev
  | value demand _ => ev.plan demand
  | resolve reference => ev.resolve none reference
  | shape reference => ev.buildReference none reference
  | identity f => Plan.hash none f
  | result f => Plan.build none f

/-- What a query asks for. -/
def items (M : Model) : Query → List Item
  | named question => question.items M
  | value demand _ => demand.items
  | resolve reference => [.identity reference]
  | shape reference => [.result reference]
  | identity f => [.identity (.inline f)]
  | result f => [.result (.inline f)]

/-- The constructions written in a query. -/
def constructions : Query → List Feature
  | named _ => []
  | value demand _ => demand.constructions
  | resolve reference => reference.constructions
  | shape reference => reference.constructions
  | identity f => f.constructions
  | result f => f.constructions

theorem plan_walks (ev : Evaluation) (q : Query) :
    ∃ user, (q.plan ev).Walks ev.model user [] (q.items ev.model) := by
  cases q with
  | named question => exact ⟨none, question.plan_walks ev⟩
  | value demand isValue => exact ⟨_, ev.value_walks isValue⟩
  | resolve reference => exact ⟨none, ev.resolve_walks none [] reference⟩
  | shape reference => exact ⟨none, ev.buildReference_walks none [] reference⟩
  | identity f => exact ⟨none, .demand (.identity rfl) fun _ => .done⟩
  | result f => exact ⟨none, .demand (.result rfl) fun _ => .done⟩

theorem items_within {M : Model} {fs : List Feature} {q : Query} (hM : M.constructions ⊆ fs)
    (hq : q.constructions ⊆ fs) : ItemsWithin fs (q.items M) := by
  cases q with
  | named question => exact (question.items_within M).mono hM
  | value demand _ => exact demand.items_within.mono hq
  | resolve reference => exact .single hq
  | shape reference => exact .single hq
  | identity f => exact .single hq
  | result f => exact .single hq

/-- Related answers to a query. -/
def Related (B : BuildResult → BuildResult → Prop) : (q : Query) → q.Answer → q.Answer → Prop
  | named question => question.Related B
  | value demand _ => demand.Related B
  | resolve _ => Eq
  | shape _ => B
  | identity _ => Eq
  | result _ => B

theorem Related.eq {q : Query} {a b : q.Answer} (h : q.Related Eq a b) : a = b := by
  cases q with
  | named question => exact Question.Related.eq h
  | value demand _ => exact Demand.Related.eq h
  | _ => exact h

/-- A query whose subject does not change when more is loaded, unlike the outputs that have
been requested so far. -/
def Lasting : Query → Prop
  | named .outputs => False
  | _ => True

/-- Two evaluations keep step on every query that lasts. -/
theorem plan_matches {c : Pairing} (hc : c.Sound) {q : Query} (hq : q.Lasting) :
    ∃ user, (q.plan c.ev).Matches c user (q.Related c.B) [] (q.items c.ev.model)
      (q.plan c.ev') := by
  have hresolve := fun r => Evaluation.resolve_matches hc none r []
  have hshape := fun r => Evaluation.buildReference_matches hc none r []
  cases q with
  | named question =>
    refine ⟨none, ?_⟩
    cases question with
    | scalar name => exact Evaluation.scalar_matches hc none [] (.symbol name)
    | vector name => exact Evaluation.vector_matches hc none [] (.symbol name)
    | datum name => exact Evaluation.datum_matches hc none [] (.symbol name)
    | selection name => exact Evaluation.selection_matches hc none [] (.symbol name)
    | hash name =>
      exact (hresolve (.named name)).map fun r r' hr => .done (congrArg ResolvedFeature.hash hr.1)
    | build name => exact hshape (.named name)
    | outputs => exact hq.elim
  | value demand isValue =>
    cases demand with
    | scalar user e => exact ⟨user, Evaluation.scalar_matches hc user [] e⟩
    | vector user e => exact ⟨user, Evaluation.vector_matches hc user [] e⟩
    | datum user e => exact ⟨user, Evaluation.datum_matches hc user [] e⟩
    | selection user e => exact ⟨user, Evaluation.selection_matches hc user [] e⟩
    | hash f => exact isValue.elim
    | build f => exact isValue.elim
  | resolve r => exact ⟨none, (hresolve r).imp fun _ _ h => h.1⟩
  | shape r => exact ⟨none, hshape r⟩
  | identity f =>
    have hmakes : ∀ M, (Item.identity (.inline f)).Makes M none (.hash f) := fun _ =>
      .identity rfl
    exact ⟨none, .demand (hmakes _) (hmakes _) fun _ _ h => .done h⟩
  | result f =>
    have hmakes : ∀ M, (Item.result (.inline f)).Makes M none (.build f) := fun _ => .result rfl
    exact ⟨none, .demand (hmakes _) (hmakes _) fun _ _ h => .done h⟩

end Query

/-! ## Workbenches -/

/-- The number of the text or construction that an origin belongs to. -/
def Origin.number : Origin → Nat
  | .text number _ => number
  | .made serial => serial

theorem Origin.isBefore_iff {origin : Origin} {source : Nat} :
    origin.IsBefore source 0 ↔ origin.number < source := by
  cases origin with
  | text number span => exact ⟨fun h => h.elim id fun h => absurd h.2 (Nat.not_lt_zero _), .inl⟩
  | made serial => exact Iff.rfl

/-- Constructions are added under the number of the next source. -/
theorem Model.Proper.make {registry : Registry} {M : Model} {made fs : List Feature}
    (h : M.Proper registry made 0) (hnumber : ∀ f ∈ fs, f.origin.number = M.sources)
    (hdistinct : (fs.map (·.origin)).Nodup)
    (hargs : ∀ f ∈ fs, Argument.constructionsIn f.arguments ⊆ M.constructions ++ made ++ fs) :
    M.nextSource.Proper registry (made ++ fs) 0 where
  origins := fun f hf => by
    rw [← List.append_assoc] at hf
    rcases List.mem_append.mp hf with hf | hf
    · exact h.nextSource.origins f hf
    · refine Origin.isBefore_iff.mpr ?_
      rw [hnumber f hf]
      exact Nat.lt_succ_self _
  distinct := by
    rw [← List.append_assoc, List.map_append]
    refine List.Nodup.append h.distinct hdistinct fun origin ho ho' => ?_
    obtain ⟨f, hf, rfl⟩ := List.mem_map.mp ho
    obtain ⟨g, hg, heq⟩ := List.mem_map.mp ho'
    have hlt := Origin.isBefore_iff.mp (h.origins f hf)
    rw [← heq, hnumber g hg] at hlt
    exact Nat.lt_irrefl _ hlt
  registered := h.registered
  enclosed := fun f hf => by
    rw [← List.append_assoc]
    rcases List.mem_append.mp hf with hf | hf
    · exact List.Subset.trans (h.enclosed f hf) (List.subset_append_left _ _)
    · exact hargs f hf
  names := h.names

/-- A workshop, and for each session the constructions that its model does not hold. -/
structure Workbench where
  shop : Workshop
  made : Nat → List Feature

namespace Workbench

def create (registry : Registry) (backend : Backend) (scope : CacheScope) : Workbench :=
  ⟨.create registry backend scope, fun _ => []⟩

/-- All constructions of a session. -/
def constructions (b : Workbench) (id : Nat) : List Feature :=
  (b.shop.session id).model.constructions ++ b.made id

/-- Loads into a session that has a registry of its own. -/
def load (b : Workbench) (registry : Registry) (id : Nat) (what : Load) : Workbench :=
  { b with shop := ({ b.shop with registry := registry }.load id what).2 }

/-- Adds constructions to a session, under the number of its next source. -/
def make (b : Workbench) (id : Nat) (fs : List Feature) : Workbench where
  shop := b.shop.setModel id (b.shop.session id).model.nextSource
  made other := if id = other then b.made id ++ fs else b.made other

/-- Asks in a session. -/
def ask (b : Workbench) (id : Nat) (q : Query) : Except Halt q.Answer × Workbench :=
  let (outcome, shop) := b.shop.ask id (b.made id).length q.plan
  (outcome, { b with shop := shop })

def clear (b : Workbench) (id : Nat) : Workbench := { b with shop := b.shop.clearCache id }

/-- One session works: it loads, with success or without, makes constructions, or is asked
about what is written with its own constructions. -/
inductive Works (registries : Nat → Registry) (b : Workbench) : Workbench → Prop where
  | load (id : Nat) (what : Load) : Works registries b (b.load (registries id) id what)
  | make {id : Nat} {fs : List Feature} :
      (∀ f ∈ fs, f.origin.number = (b.shop.session id).model.sources) →
      (fs.map (·.origin)).Nodup →
      (∀ f ∈ fs, Argument.constructionsIn f.arguments ⊆ b.constructions id ++ fs) →
      Works registries b (b.make id fs)
  | ask {id : Nat} {q : Query} : q.constructions ⊆ b.constructions id →
      Works registries b (b.ask id q).2

theorem Works.make_one {registries : Nat → Registry} {b : Workbench} {id : Nat} {f : Feature}
    (hnumber : f.origin.number = (b.shop.session id).model.sources)
    (hargs : Argument.constructionsIn f.arguments ⊆ b.constructions id ++ [f]) :
    Works registries b (b.make id [f]) :=
  .make (List.forall_mem_singleton.mpr hnumber) (List.nodup_singleton _)
    (List.forall_mem_singleton.mpr hargs)

/-- One session works, or a cache is cleared. -/
inductive Step (registries : Nat → Registry) (b : Workbench) : Workbench → Prop where
  | works {b' : Workbench} : Works registries b b' → Step registries b b'
  | clear (id : Nat) : Step registries b (b.clear id)

/-- The workbenches that sessions with one backend and these registries can come to. -/
def Reachable (registries : Nat → Registry) (backend : Backend) (scope : CacheScope) :
    Workbench → Prop :=
  ReflTransGen (Step registries) (create (registries 0) backend scope)

end Workbench

end PartScript
