/-
  At most one invocation for each construction, with and without a cache. The backend is
  invoked for a construction that has an identity and is under way, and the build of this
  construction has come to its end from then on.
-/
import Mathlib.Data.List.Nodup
import PartScript.Proofs.Changes

namespace PartScript

open Relation

/-- A build has come to its end. -/
def Progress.Settled : Progress → Prop
  | .built _ => True
  | .failed _ => True
  | _ => False

/-- What has come to its end or has an identity keeps it. -/
structure FeatureState.Keeps (a b : FeatureState) : Prop where
  settled : a.progress.Settled → b.progress.Settled
  hash? : a.hash? ≠ none → b.hash? ≠ none

theorem FeatureState.Keeps.refl (a : FeatureState) : a.Keeps a := ⟨id, id⟩

theorem FeatureState.Keeps.trans {a b c : FeatureState} (h : a.Keeps b) (h' : b.Keeps c) :
    a.Keeps c := ⟨fun hs => h'.settled (h.settled hs), fun hh => h'.hash? (h.hash? hh)⟩

namespace BuildState

/-- From one state to another the backend was invoked with the requests in `fresh`, for
different constructions. Each of them had not come to its end before, and has afterwards. -/
structure Invokes (fs : List Feature) (s : BuildState) (fresh : List (Origin × BuildRequest))
    (s' : BuildState) : Prop where
  requests : s'.requests = s.requests ++ fresh
  distinct : (fresh.map (·.1)).Nodup
  invoked : ∀ q ∈ fresh, ∃ f ∈ fs, f.origin = q.1 ∧ ¬ (s.feature f).progress.Settled ∧
    (s'.feature f).progress.Settled ∧ (s'.feature f).hash? ≠ none
  keeps : ∀ f, (s.feature f).Keeps (s'.feature f)

variable {fs : List Feature} {s s' s'' : BuildState} {fresh fresh' : List (Origin × BuildRequest)}

theorem Invokes.none (hrequests : s'.requests = s.requests)
    (hkeeps : ∀ f, (s.feature f).Keeps (s'.feature f)) : s.Invokes fs [] s' :=
  ⟨by simpa using hrequests, List.nodup_nil, nofun, hkeeps⟩

theorem Invokes.trans (h : s.Invokes fs fresh s') (h' : s'.Invokes fs fresh' s'') :
    s.Invokes fs (fresh ++ fresh') s'' where
  requests := by rw [h'.requests, h.requests, List.append_assoc]
  distinct := by
    rw [List.map_append]
    refine List.Nodup.append h.distinct h'.distinct fun origin ho ho' => ?_
    -- What was invoked at first has come to its end when the second part begins.
    obtain ⟨q, hq, rfl⟩ := List.mem_map.mp ho
    obtain ⟨q', hq', heq⟩ := List.mem_map.mp ho'
    obtain ⟨f, -, hf, -, hsettled, -⟩ := h.invoked q hq
    obtain ⟨g, -, hg, hnot, -⟩ := h'.invoked q' hq'
    rw [s'.feature_congr (hg.trans (heq.trans hf.symm))] at hnot
    exact hnot hsettled
  invoked := fun q hq => by
    rcases List.mem_append.mp hq with hq | hq
    · obtain ⟨f, hf, horigin, hnot, hsettled, hhash⟩ := h.invoked q hq
      have hkeeps := h'.keeps f
      exact ⟨f, hf, horigin, hnot, hkeeps.settled hsettled, hkeeps.hash? hhash⟩
    · obtain ⟨f, hf, horigin, hnot, hsettled, hhash⟩ := h'.invoked q hq
      exact ⟨f, hf, horigin, fun hs => hnot ((h.keeps f).settled hs), hsettled, hhash⟩
  keeps := fun f => (h.keeps f).trans (h'.keeps f)

theorem keeps_update {f : Feature} {change : FeatureState → FeatureState}
    (h : (s.feature f).Keeps (change (s.feature f))) (g : Feature) :
    (s.feature g).Keeps ((s.update f change).feature g) := by
  rw [feature_update]
  split
  · next hfg =>
    rw [← s.feature_congr hfg]
    exact h
  · exact .refl _

end BuildState

namespace Evaluation

variable {ev : Evaluation} {fs : List Feature} {s s' : BuildState}

theorem settled_outcomeOf (f : Feature) (answer : BuildAnswer) :
    (progressAfter (outcomeOf f answer)).Settled := by
  cases answer <;> exact True.intro

/-- One change invokes the backend at most once. -/
theorem Change.invokes (h : ev.Change fs s s') : ∃ fresh, s.Invokes fs fresh s' := by
  cases h with
  | describe d => exact ⟨[], .none rfl fun _ => .refl _⟩
  | hashing f b => exact ⟨[], .none rfl (BuildState.keeps_update ⟨id, id⟩)⟩
  | @identify f args hf hs hargs =>
    refine ⟨[], .none rfl fun g => ?_⟩
    rw [BuildState.feature_identified]
    split
    · exact ⟨id, fun hh => by simp⟩
    · exact .refl _
  | hit => exact ⟨[], .none rfl fun _ => .refl _⟩
  | missed caching =>
    refine ⟨[], .none (BuildState.requests_missed s caching) fun f => ?_⟩
    rw [BuildState.feature_missed]
    exact .refl _
  | begin hp =>
    exact ⟨[], .none rfl (BuildState.keeps_update ⟨fun hs => (hp ▸ hs).elim, id⟩)⟩
  | settle outcome hp =>
    exact ⟨[], .none rfl (BuildState.keeps_update ⟨fun hs => (hp ▸ hs).elim, id⟩)⟩
  | @invoke f request answer hf hhash hp =>
    have hafter : ((s.invoked ev.caching f request answer).setProgress f
        (progressAfter (outcomeOf f answer))).feature f =
          { s.feature f with progress := progressAfter (outcomeOf f answer) } := by
      rw [BuildState.setProgress, BuildState.feature_update, if_pos rfl]
      rfl
    refine ⟨[(f.origin, request)], rfl, List.nodup_singleton _, fun q hq => ?_, fun g => ?_⟩
    · obtain rfl := List.mem_singleton.mp hq
      refine ⟨f, hf, rfl, fun hs => (hp ▸ hs).elim, ?_, ?_⟩
      · rw [hafter]
        exact settled_outcomeOf f answer
      · rw [hafter]
        exact hhash
    · exact BuildState.keeps_update (s := s.invoked ev.caching f request answer)
        ⟨fun _ => settled_outcomeOf f answer, id⟩ g

/-- Evaluation invokes the backend at most once for each construction. -/
theorem Changes.invokes (h : ev.Changes fs s s') : ∃ fresh, s.Invokes fs fresh s' := by
  induction h with
  | refl => exact ⟨[], .none rfl fun _ => .refl _⟩
  | tail _ hchange ih =>
    obtain ⟨fresh, hfresh⟩ := ih
    obtain ⟨last, hlast⟩ := hchange.invokes
    exact ⟨fresh ++ last, hfresh.trans hlast⟩

end Evaluation

end PartScript
