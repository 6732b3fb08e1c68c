/-
  Evaluation in small steps. Every turn of an evaluation is made up of changes of a few kinds;
  what every such change keeps, every evaluation keeps.
-/
import PartScript.Proofs.Turns

namespace PartScript

open Relation

namespace Evaluation

/-- One change of what is remembered, and when it is made. The answer of the backend is
remembered as soon as it is given. -/
inductive Change (ev : Evaluation) (fs : List Feature) : BuildState → BuildState → Prop where
  | describe (s : BuildState) (d : Description) : Change ev fs s (s.describe d)
  | hashing (s : BuildState) (f : Feature) (b : Bool) : Change ev fs s (s.setHashing f b)
  | identify {s : BuildState} {f : Feature} {args : List ResolvedArgument} : f ∈ fs →
      ev.Recollects fs s → (ev.arguments f).Recalls ev s args →
      Change ev fs s (s.identified f args)
  | hit (s : BuildState) : Change ev fs s s.hit
  | missed (s : BuildState) (caching : Bool) : Change ev fs s (s.missed caching)
  | begin {s : BuildState} {f : Feature} : (s.feature f).progress = .unbuilt →
      Change ev fs s (s.setProgress f .building)
  | settle {s : BuildState} {f : Feature} (outcome : Except Halt BuildResult) :
      (s.feature f).progress = .building →
      Change ev fs s (s.setProgress f (progressAfter outcome))
  | invoke {s : BuildState} {f : Feature} (request : BuildRequest) (answer : BuildAnswer) :
      f ∈ fs → (s.feature f).hash? ≠ none → (s.feature f).progress = .building →
      Change ev fs s ((s.invoked ev.caching f request answer).setProgress f
        (progressAfter (outcomeOf f answer)))

/-- Changes in sequence. -/
abbrev Changes (ev : Evaluation) (fs : List Feature) : BuildState → BuildState → Prop :=
  ReflTransGen (Change ev fs)

variable {ev : Evaluation} {fs : List Feature} {s t : BuildState}

/-- Every turn is made up of changes. -/
theorem Turn.changes (h : ev.Turn fs s t) : ev.Changes fs s t := by
  cases h with
  | describe d => exact .single (.describe s d)
  | hashing f b => exact .single (.hashing s f b)
  | identify hf hs hargs => exact .single (.identify hf hs hargs)
  | missed caching => exact .single (.missed s caching)
  | begin _ hp => exact .single (.begin hp)
  | stop _ hp _ => exact .single (.settle _ hp)
  | cached hid hp _ _ => exact .tail (.single (.hit s)) (.settle _ hp)
  | invoke hid hp _ => exact .single (.invoke _ _ hid.mem (by simp [hid.hash?]) hp)

theorem Turns.changes (h : ev.Turns fs s t) : ev.Changes fs s t := by
  induction h with
  | refl => exact .refl
  | tail _ hturn ih => exact ih.trans hturn.changes

end Evaluation

end PartScript
