/-
  Evaluation turn by turn, with all that is known when a turn is made. The backend is invoked
  for a construction with the inputs of its evaluated arguments, an answer from the cache is
  that to the identity of the construction, and every other end of a build is an error of what
  its arguments or its inputs ask for.
-/
import PartScript.Proofs.Recall

namespace PartScript

open Relation

/-- The answer of a backend to the request with a number, which a result keeps. -/
def Backend.answerTo (backend : Backend) (number : Nat) (request : BuildRequest) : BuildAnswer :=
  (backend.build request).map fun result => { result with serial := number }

theorem Backend.built_of_answerTo {backend : Backend} {number : Nat} {request : BuildRequest}
    {result : BuildResult} (h : Except.ok result = backend.answerTo number request) :
    ∃ r, backend.build request = .ok r ∧ result = { r with serial := number } := by
  unfold answerTo at h
  cases hbuild : backend.build request with
  | error source =>
    rw [hbuild] at h
    cases h
  | ok r =>
    rw [hbuild] at h
    exact ⟨r, rfl, Except.ok.inj h⟩

theorem Backend.refused_of_answerTo {backend : Backend} {number : Nat} {request : BuildRequest}
    {source : BackendError} (h : .error source = backend.answerTo number request) :
    backend.build request = .error source := by
  unfold answerTo at h
  cases hbuild : backend.build request with
  | error e =>
    rw [hbuild] at h
    exact h.symm
  | ok r =>
    rw [hbuild] at h
    cases h

namespace Evaluation

/-- Why the build of a construction ends without an answer to it: its arguments are being
evaluated already, or they or its inputs have no value. -/
inductive Stops (ev : Evaluation) (f : Feature) : Halt → Prop where
  | entered : Stops ev f (.failed (.circularDependency f.label))
  | arguments {n s halt t} : (ev.arguments f).run (ev.answer n) s = (.error halt, t) →
      Stops ev f halt
  | inputs {n args s halt t} :
      (inputs (some f.label) args).run (ev.answer n) s = (.error halt, t) → Stops ev f halt

/-- A construction has an identity, which is that of its arguments. -/
structure Identified (ev : Evaluation) (fs : List Feature) (s : BuildState) (f : Feature)
    (hash : StructuralHash) (args : List ResolvedArgument) : Prop where
  mem : f ∈ fs
  recollects : ev.Recollects fs s
  hash? : (s.feature f).hash? = some hash
  arguments : (ev.arguments f).Recalls ev s args
  hash_eq : hash = (Description.feature f.typeName args).hash

/-- One turn of an evaluation within a closed collection. -/
inductive Turn (ev : Evaluation) (fs : List Feature) : BuildState → BuildState → Prop where
  | describe (s : BuildState) (d : Description) : Turn ev fs s (s.describe d)
  | hashing (s : BuildState) (f : Feature) (b : Bool) : Turn ev fs s (s.setHashing f b)
  | identify {s f args} : f ∈ fs → ev.Recollects fs s → (ev.arguments f).Recalls ev s args →
      Turn ev fs s (s.identified f args)
  | missed (s : BuildState) (caching : Bool) : Turn ev fs s (s.missed caching)
  | begin {s f} : f ∈ fs → (s.feature f).progress = .unbuilt →
      Turn ev fs s (s.setProgress f .building)
  | stop {s f halt} : f ∈ fs → (s.feature f).progress = .building → ev.Stops f halt →
      Turn ev fs s (s.setProgress f (progressAfter (.error halt)))
  | cached {s f hash args answer} : ev.Identified fs s f hash args →
      (s.feature f).progress = .building → ev.caching = true →
      s.cache.entries.get? hash = some answer →
      Turn ev fs s (s.hit.setProgress f (progressAfter (outcomeOf f answer)))
  | invoke {s f hash args ins} : ev.Identified fs s f hash args →
      (s.feature f).progress = .building → (inputs (some f.label) args).Recalls ev s ins →
      Turn ev fs s ((s.invoked ev.caching f (request f hash ins)
        (ev.backend.answerTo s.requests.length (request f hash ins))).setProgress f
          (progressAfter
            (outcomeOf f (ev.backend.answerTo s.requests.length (request f hash ins)))))

/-- Turns in sequence. -/
abbrev Turns (ev : Evaluation) (fs : List Feature) : BuildState → BuildState → Prop :=
  ReflTransGen (Turn ev fs)

/-- The answers to a depth change what is remembered turn by turn. -/
def TurnsAt (ev : Evaluation) (fs : List Feature) (n : Nat) : Prop :=
  ∀ (d : Demand) (s : BuildState), d.constructions ⊆ fs → ev.Recollects fs s →
    ev.Turns fs s (ev.answer n d s).2

variable {ev : Evaluation} {fs : List Feature} {n : Nat}

/-- What every turn keeps, all of them keep. -/
theorem Turns.keeps {I : BuildState → Prop} {s t : BuildState} (h : ev.Turns fs s t)
    (hI : ∀ s t, ev.Turn fs s t → I s → I t) (hs : I s) : I t := by
  induction h with
  | refl => exact hs
  | tail _ hturn ih => exact hI _ _ hturn ih

variable (hfs : Closed ev.model fs)
include hfs

theorem run_turns (hn : ev.TurnsAt fs n) {user : Option String} {α : Type}
    {known : List StructuralHash} {items : List Item} {p : Plan α}
    (hp : p.Walks ev.model user known items) (hitems : ItemsWithin fs items) {s : BuildState}
    (hknown : ∀ g ∈ known, Description.Logged s.described g) (hs : ev.Recollects fs s)
    {o : Except Halt α} {s' : BuildState} (hr : p.run (ev.answer n) s = (o, s')) :
    ev.Turns fs s s' := by
  induction hp generalizing s with
  | done | stop _ =>
    obtain ⟨-, rfl⟩ : _ = o ∧ s = s' := by simpa using hr
    exact .refl
  | @demand known item items d reported next hm _ ih =>
    have hd := hfs.makes (hitems item List.mem_cons_self) hm
    have hturns := hn d s hd hs
    obtain ⟨hs1, hx1⟩ := ev.recollects_at hfs n d s hd hs
    have hadv := ev.answer_advances n d s
    rw [Plan.run_demand] at hr
    rcases hx : ev.answer n d s with ⟨h | x, s1⟩
    · rw [hx] at hr hturns
      obtain ⟨-, rfl⟩ : _ = o ∧ s1 = s' := by simpa using hr
      exact hturns
    · rw [hx] at hr hturns hs1 hx1 hadv
      have hknown1 := hs1.knows hd (hx1 x rfl) fun g hg =>
        (hknown g hg).mono hadv.described.subset
      exact hturns.trans
        (ih x (fun y hy => hitems y (List.mem_cons_of_mem _ hy)) hknown1 hs1 hr)
  | @identify known items d next hrefs _ ih =>
    have hs1 := hs.describe fun g hg => hknown g (hrefs hg)
    exact .head (.describe s d) (ih d.hash hitems
      (fun g hg => (hknown g hg).mono (List.subset_cons_self _ _)) hs1 hr)

section Entering

variable (hn : ev.TurnsAt fs n) {f : Feature} (hf : f ∈ fs) {s s' : BuildState}
  (hs : ev.Recollects fs s)
include hn hf hs

theorem Fingerprints.turns {o : Except Halt (StructuralHash × List ResolvedArgument)}
    (h : Fingerprints ev (ev.answer n) f s o s') : ev.Turns fs s s' := by
  have hrun : ∀ {o t}, (ev.arguments f).run (ev.answer n) (s.setHashing f true) = (o, t) →
      ev.Turns fs s t := fun hr =>
    .head (.hashing s f true) (run_turns hfs hn (ev.arguments_walks [] f) (hfs.items hf)
      (by simp) (hs.setHashing f true) hr)
  cases h with
  | entered _ => exact .refl
  | stopped _ hr => exact (hrun hr).tail (.hashing _ f false)
  | @finished args t _ hr =>
    obtain ⟨ht, hargs⟩ := run_recollects hfs (ev.recollects_at hfs n) (ev.arguments_walks [] f)
      (hfs.items hf) (by simp) (hs.setHashing f true) hr
    exact (hrun hr).tail (.identify hf ht (hargs args rfl))

theorem Identifies.turns {o : Except Halt StructuralHash}
    (h : Identifies ev (ev.answer n) f s o s') : ev.Turns fs s s' := by
  cases h with
  | remembered _ => exact .refl
  | halted _ hp => exact hp.turns hfs hn hf hs
  | computed _ hp => exact hp.turns hfs hn hf hs

theorem inputs_turns {x : StructuralHash × List ResolvedArgument} {t t' : BuildState}
    (h : Fingerprints ev (ev.answer n) f s (.ok x) t) {o : Except Halt (List Input)}
    (hr : (inputs (some f.label) x.2).run (ev.answer n) (t.missed ev.caching) = (o, t')) :
    ev.Turns fs s t' := by
  have ht := h.recollects hfs (ev.recollects_at hfs n) hf hs
  obtain ⟨-, -, t0, hrun, -⟩ := h.of_ok
  have hinputs := run_turns hfs hn (inputs_walks ev (some f.label) x.2 [])
    (arguments_inputs_within hfs hf hrun) (by simp) (ht.missed ev.caching) hr
  exact ((h.turns hfs hn hf hs).tail (.missed t ev.caching)).trans hinputs

omit hn in
theorem Fingerprints.identified {hash : StructuralHash} {args : List ResolvedArgument}
    {t : BuildState} (h : Fingerprints ev (ev.answer n) f s (.ok (hash, args)) t) :
    ev.Identified fs t f hash args := by
  obtain ⟨ht, hhash, hargs, -, heq⟩ := h.identifies hfs (ev.recollects_at hfs n) hf hs
  exact ⟨hf, ht, hhash, hargs, heq⟩

theorem Builds.turns {o : Except Halt BuildResult} (h : Builds ev (ev.answer n) f s o s') :
    ev.Turns fs s s' := by
  cases h with
  | remembered _ => exact .refl
  | failed _ => exact .refl
  | entered _ => exact .refl
  | @anew _ t hp hb =>
    have hbegin : ev.Turns fs s (s.setProgress f .building) := .single (.begin hf hp)
    have hs1 := hs.setBuilding hp
    have hbuilding : ((s.setProgress f .building).feature f).progress = .building := by
      rw [BuildState.progress_setProgress, if_pos rfl]
    have hadv := hb.advances (ev.answer_advances n)
    have hstill := (hadv.feature f).building hbuilding
    cases hb with
    | unidentified hp =>
      have hstops : ∀ {halt}, Fingerprints ev (ev.answer n) f (s.setProgress f .building)
          (.error halt) t → ev.Stops f halt := fun hp => by
        cases hp with
        | entered _ => exact .entered
        | stopped _ hr => exact .arguments hr
      exact (hbegin.trans (hp.turns hfs hn hf hs1)).tail (.stop hf hstill (hstops hp))
    | @recalled _ _ t _ hp hc hentry =>
      have hid := hp.identified hfs hf hs1
      exact (hbegin.trans (hp.turns hfs hn hf hs1)).tail (.cached hid hstill hc hentry)
    | starved hp _ hr =>
      exact (hbegin.trans (inputs_turns hfs hn hf hs1 hp hr)).tail
        (.stop hf hstill (.inputs hr))
    | @invoked h args t ins t' answer hp _ hr hanswer =>
      subst hanswer
      obtain ⟨hf, ht, hhash, hargs, heq⟩ := hp.identified hfs hf hs1
      obtain ⟨-, -, t0, hrun, -⟩ := hp.of_ok
      have hadv := Plan.run_advances (ev.answer_advances n) (inputs (some f.label) args)
        (t.missed ev.caching)
      rw [hr] at hadv
      have hlater := (BuildState.Advances.missed t ev.caching).trans hadv
      obtain ⟨ht', hins⟩ := run_recollects hfs (ev.recollects_at hfs n)
        (inputs_walks ev (some f.label) args []) (arguments_inputs_within hfs hf hrun) (by simp)
        (ht.missed ev.caching) hr
      have hid : ev.Identified fs t' f h args :=
        ⟨hf, ht', (hlater.feature f).hash? hhash, hargs.mono hlater.remembers, heq⟩
      exact (hbegin.trans (inputs_turns hfs hn hf hs1 hp hr)).tail
        (.invoke hid hstill (hins ins rfl))

end Entering

/-- Every answer changes what is remembered turn by turn. -/
theorem turns_at (n : Nat) : ev.TurnsAt fs n := by
  induction n with
  | zero => exact fun d s _ _ => .refl
  | succ n ih =>
    intro d s hd hs
    cases d with
    | hash f => exact (hashOver_cases ev _ f s).turns hfs ih (hd f.mem_constructions) hs
    | build f => exact (buildOver_cases ev _ f s).turns hfs ih (hd f.mem_constructions) hs
    | scalar user value =>
      exact run_turns hfs ih (ev.scalar_walks user [] value) (value.items_within.mono hd)
        (by simp) hs rfl
    | vector user value =>
      exact run_turns hfs ih (ev.vector_walks user [] value) (value.items_within.mono hd)
        (by simp) hs rfl
    | datum user value =>
      exact run_turns hfs ih (ev.datum_walks user [] value) (value.items_within.mono hd)
        (by simp) hs rfl
    | selection user value =>
      exact run_turns hfs ih (ev.selection_walks user [] value) (value.items_within.mono hd)
        (by simp) hs rfl

end Evaluation

end PartScript
