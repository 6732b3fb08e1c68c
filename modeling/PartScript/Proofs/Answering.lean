/-
  Every answer is what its demand means. An evaluation that starts where everything
  remembered is faithful, and every feature under way waits for it, ends in what it means and
  leaves everything remembered faithful.
-/
import PartScript.Proofs.Faithful

namespace PartScript

namespace Evaluation

/-- The answers to a depth are what the demands mean, as long as nothing but what is in `log`
is described. -/
def FaithfulAt (ev : Evaluation) (fs : List Feature) (log : List Description) (n : Nat) : Prop :=
  ∀ (d : Demand) (s : BuildState), d.constructions ⊆ fs → ev.Recollects fs s →
    ev.Faithful fs s → ev.Awaits fs s (fun k => ev.meaning k d ≠ none) →
      (ev.answer n d s).2.described ⊆ log →
        ev.Faithful fs (ev.answer n d s).2 ∧ ev.Tells d (ev.answer n d s).1

variable {ev : Evaluation} {fs : List Feature} {log : List Description} {n : Nat}

section Running

variable (hfs : Closed ev.model fs) (hn : ev.FaithfulAt fs log n)
include hfs hn

/-- A run of a plan ends in what a matching plan means. -/
theorem run_faithful {user : Option String} {α : Type} {R : α → α → Prop}
    {known : List StructuralHash} {items : List Item} {p p' : Plan α}
    (hp : p.Matches (.alike ev) user R known items p') (hitems : ItemsWithin fs items)
    {s : BuildState} (hknown : ∀ g ∈ known, Description.Logged s.described g)
    (hs : ev.Recollects fs s) (hf : ev.Faithful fs s)
    (hw : ev.Awaits fs s fun k => p'.eval (ev.meaning k) ≠ none) {o : Except Halt α}
    {s' : BuildState} (hr : p.run (ev.answer n) s = (o, s')) (hlog : s'.described ⊆ log) :
    ev.Faithful fs s' ∧ p'.Meets ev R o := by
  induction hp generalizing s with
  | done h =>
    obtain ⟨rfl, rfl⟩ : _ = o ∧ s = s' := by simpa using hr
    exact ⟨hf, _, ⟨0, rfl⟩, h⟩
  | @stop known items e e' h _ =>
    obtain ⟨rfl, rfl⟩ : _ = o ∧ s = s' := by simpa using hr
    refine ⟨hf, ?_⟩
    simp only [Plan.Meets]
    split
    · next hc => exact fun k => by rw [Plan.eval, if_pos (h ▸ hc)]
    · next hc => exact ⟨0, by rw [Plan.eval, if_neg (h ▸ hc), h]⟩
  | unbound hl _ => exact hl.elim
  | @demand known item items d reported next next' hm _ _ ih =>
    have hd := hfs.makes (hitems item List.mem_cons_self) hm
    have hadv := ev.answer_advances n d s
    have hwd : ev.Awaits fs s fun k => ev.meaning k d ≠ none := by
      refine hw.imp fun k hk hnone => hk ?_
      rw [Plan.eval, hnone]
    obtain ⟨hs1, hx1⟩ := ev.recollects_at hfs n d s hd hs
    have hmeets := hn d s hd hs hf hwd
    rw [Plan.run_demand] at hr
    rcases hx : ev.answer n d s with ⟨h | x, s1⟩
    · rw [hx] at hr hmeets
      obtain ⟨rfl, rfl⟩ : _ = o ∧ s1 = s' := by simpa using hr
      obtain ⟨hf1, htells⟩ := hmeets hlog
      exact ⟨hf1, (htells.within reported Plan.Meets.bind_error).demand⟩
    · rw [hx] at hr hs1 hx1 hadv hmeets
      have hr : (next x).run (ev.answer n) s1 = (o, s') := hr
      have hadv' := Plan.run_advances (ev.answer_advances n) (next x) s1
      rw [hr] at hadv'
      obtain ⟨hf1, x', hx', hrel⟩ := hmeets (List.Subset.trans hadv'.described.subset hlog)
      have hknown1 := hs1.knows hd (hx1 x rfl) fun g hg => (hknown g hg).mono hadv.described.subset
      -- Where the whole plan has a meaning, the demand means `x'` and what follows has one.
      have hw1 : ev.Awaits fs s1 fun k => (next' x').eval (ev.meaning k) ≠ none := by
        refine (hw.advances hadv).imp fun k hk hnone => hk ?_
        rw [Plan.eval]
        cases hdk : ev.meaning k d with
        | none => rfl
        | some y =>
          cases k with
          | zero => cases hdk
          | succ k =>
            obtain rfl := Plan.Settles.unique ⟨k, hdk⟩ hx'
            exact hnone
      obtain ⟨hf', ho⟩ := ih x x' hrel (fun y hy => hitems y (List.mem_cons_of_mem _ hy)) hknown1
        hs1 hf1 hw1 hr
      exact ⟨hf', (Plan.Meets.bind hx' ho).demand⟩
  | @identify known items d next next' hrefs _ ih =>
    have hs1 := hs.describe fun g hg => hknown g (hrefs hg)
    exact ih d.hash hitems (fun g hg => (hknown g hg).mono (List.subset_cons_self _ _)) hs1
      (hf.describe d) (hw.advances (.describe s d)) hr

end Running

/-- The answer of the backend to inputs that are alike. -/
theorem answered_meets {f : Feature} {answer answer' : BuildAnswer}
    (h : BuildAnswer.Alike answer answer') :
    (answeredPlan f answer').Meets ev BuildResult.Alike (outcomeOf f answer) := by
  cases answer <;> cases answer'
  · next source source' =>
    have hcause : (BuildError.backend f.label source').cause ≠ .circular := fun hc => by cases hc
    refine ⟨0, ?_⟩
    rw [answeredPlan, Plan.eval, if_neg hcause]
    exact congrArg (fun refusal => some (Except.error (Cause.backend refusal))) h.symm
  · exact h.elim
  · exact h.elim
  · exact ⟨_, ⟨0, rfl⟩, h⟩

section Entering

variable (hfs : Closed ev.model fs) (hblind : ev.backend.Blind) (hshare : ev.Shares fs log)
  (hn : ev.FaithfulAt fs log n) {f : Feature} (hf : f ∈ fs) {s s' : BuildState}
  (hs : ev.Recollects fs s) (hfaith : ev.Faithful fs s)
include hfs hblind hn hf hs hfaith

theorem Fingerprints.faithful {o : Except Halt (StructuralHash × List ResolvedArgument)}
    (h : Fingerprints ev (ev.answer n) f s o s')
    (hentered : (s.feature f).hashing = true → (ev.arguments f).Loops ev)
    (hw : ev.Awaits fs s fun k => (ev.arguments f).eval (ev.meaning k) ≠ none)
    (hlog : s'.described ⊆ log) :
    ev.Faithful fs s' ∧ (ev.arguments f).Meets ev
      (List.Forall₂ (ResolvedArgument.Related BuildResult.Alike)) (o.map (·.2)) := by
  have hrun : ∀ {o t}, (ev.arguments f).run (ev.answer n) (s.setHashing f true) = (o, t) →
      t.described ⊆ log → ev.Faithful fs t ∧ (ev.arguments f).Meets ev
        (List.Forall₂ (ResolvedArgument.Related BuildResult.Alike)) o := fun hr ht =>
    run_faithful hfs hn (arguments_matches (Pairing.alike_complete hblind).toSound f [])
      (hfs.items hf) (by simp) (hs.setHashing f true) (hfaith.setHashing f true)
      (hw.setHashing hfs hf fun k hk => meaning_hash_iff.mp hk) hr ht
  cases h with
  | entered hh =>
    refine ⟨hfaith, ?_⟩
    show Plan.Meets ev _ _ (.error (.failed (.circularDependency f.label)))
    simpa [Plan.Meets, BuildError.cause] using hentered hh
  | stopped _ hr =>
    obtain ⟨ht, hmeets⟩ := hrun hr hlog
    exact ⟨ht.setHashing f false, hmeets⟩
  | @finished args t _ hr =>
    obtain ⟨ht, hmeets⟩ := hrun hr (List.Subset.trans (List.subset_cons_self _ _) hlog)
    refine ⟨ht.identified hfs hf ?_, hmeets⟩
    obtain ⟨args', hargs', hrel⟩ := hmeets
    exact ⟨_, Plan.Settles.bind hargs' ⟨0, rfl⟩, ResolvedArgument.Related.hash_eq hrel f.typeName⟩

theorem Identifies.faithful {o : Except Halt StructuralHash}
    (h : Identifies ev (ev.answer n) f s o s')
    (hw : ev.Awaits fs s fun k => ev.meaning k (.hash f) ≠ none) (hlog : s'.described ⊆ log) :
    ev.Faithful fs s' ∧ ev.Tells (.hash f) o := by
  have hentered : (s.feature f).hashing = true → (ev.arguments f).Loops ev := fun hh =>
    arguments_loop (loops_of_descent (hw.hashing f hf hh))
  have hwargs : ev.Awaits fs s fun k => (ev.arguments f).eval (ev.meaning k) ≠ none := by
    exact hw.imp fun k hk => meaning_hash_iff.mp (meaning_ne_none (Nat.le_succ k) hk)
  cases h with
  | remembered hh => exact ⟨hfaith, hfaith.hash? f hf _ hh⟩
  | halted _ hp =>
    obtain ⟨hs', hmeets⟩ := hp.faithful hfs hblind hn hf hs hfaith hentered hwargs hlog
    exact ⟨hs', Plan.Meets.bind_error hmeets⟩
  | computed _ hp =>
    obtain ⟨hs', args', hargs', hrel⟩ :=
      hp.faithful hfs hblind hn hf hs hfaith hentered hwargs hlog
    obtain ⟨-, hx, -⟩ := hp.of_ok
    refine ⟨hs', _, Plan.Settles.bind hargs' ⟨0, rfl⟩, ?_⟩
    exact hx.trans (ResolvedArgument.Related.hash_eq hrel f.typeName)

include hshare in
theorem BuildsAnew.faithful {o : Except Halt BuildResult}
    (h : BuildsAnew ev (ev.answer n) f s o s')
    (hentered : (s.feature f).hashing = true → (ev.arguments f).Loops ev)
    (hw : ev.Awaits fs s fun k => ev.meaning (k + 1) (.build f) ≠ none)
    (hlog : s'.described ⊆ log) : ev.Faithful fs s' ∧ ev.Tells (.build f) o := by
  have hwargs : ev.Awaits fs s fun k => (ev.arguments f).eval (ev.meaning k) ≠ none :=
    hw.imp fun k hk => meaning_build_arguments hk
  have hinputs : ∀ {x : StructuralHash × List ResolvedArgument} {t t' : BuildState}
      {o : Except Halt (List Input)}, Fingerprints ev (ev.answer n) f s (.ok x) t →
      (inputs (some f.label) x.2).run (ev.answer n) (t.missed ev.caching) = (o, t') →
      t'.described ⊆ log → ev.Faithful fs t' ∧ ∃ args', (ev.arguments f).Settles ev (.ok args') ∧
        x.1 = (Description.feature f.typeName args').hash ∧
        (inputs (some f.label) args').Meets ev
          (List.Forall₂ (Input.Related BuildResult.Alike)) o := by
    intro x t t' o hp hr ht'
    have hadv := Plan.run_advances (ev.answer_advances n) (inputs (some f.label) x.2)
      (t.missed ev.caching)
    rw [hr] at hadv
    have ht : t.described ⊆ log := by
      have hsub := hadv.described.subset
      rw [BuildState.described_missed] at hsub
      exact List.Subset.trans hsub ht'
    obtain ⟨hft, args', hargs', hrel⟩ :=
      hp.faithful hfs hblind hn hf hs hfaith hentered hwargs ht
    obtain ⟨-, hx, u, hrun, rfl⟩ := hp.of_ok
    have hwt : ev.Awaits fs ((u.identified f x.2).missed ev.caching) fun k =>
        (inputs (some f.label) args').eval (ev.meaning k) ≠ none :=
      (hw.advances ((hp.advances (ev.answer_advances n)).trans (.missed _ _))).imp
        fun k hk => meaning_build_inputs hargs' hk
    obtain ⟨hft', hins⟩ := run_faithful hfs hn
      (inputs_matches (Pairing.alike_complete hblind).toSound (some f.label) hrel [])
      (arguments_inputs_within hfs hf hrun) (by simp)
      ((hp.recollects hfs (ev.recollects_at hfs n) hf hs).missed _) (hft.missed _) hwt hr ht'
    exact ⟨hft', args', hargs', hx.trans (ResolvedArgument.Related.hash_eq hrel f.typeName), hins⟩
  cases h with
  | unidentified hp =>
    obtain ⟨hs', hmeets⟩ := hp.faithful hfs hblind hn hf hs hfaith hentered hwargs hlog
    exact ⟨hs', Plan.Meets.bind_error hmeets⟩
  | @recalled h args t answer hp hc hfound =>
    obtain ⟨ht, -⟩ := hp.faithful hfs hblind hn hf hs hfaith hentered hwargs hlog
    obtain ⟨hrt, hh, -⟩ := hp.identifies hfs (ev.recollects_at hfs n) hf hs
    obtain ⟨g, hg, hgh, htells⟩ := ht.cached hc h answer hfound
    exact ⟨ht.hit, hshare hc t hrt ht hlog f hf g hg h hh hgh answer htells⟩
  | starved hp _ hr =>
    obtain ⟨hs', args', hargs', -, hins⟩ := hinputs hp hr hlog
    exact ⟨hs', tells_build hargs' (Plan.Meets.bind_error hins)⟩
  | @invoked h args t ins t' answer hp _ hr hanswer =>
    obtain ⟨ht', args', hargs', hx, ins', hins', hrel⟩ := hinputs hp hr hlog
    have hadv := Plan.run_advances (ev.answer_advances n) (inputs (some f.label) args)
      (t.missed ev.caching)
    rw [hr] at hadv
    obtain ⟨-, hh, -⟩ := hp.identifies hfs (ev.recollects_at hfs n) hf hs
    have hh' : (t'.feature f).hash? = some h :=
      (hadv.feature f).hash? (by rw [BuildState.feature_missed]; exact hh)
    have halike : BuildAnswer.Alike answer (ev.backend.build (request f h ins')) := by
      have hrequests : (request f h ins).Alike (request f h ins') :=
        ⟨rfl, rfl, hrel.imp fun _ _ hx => Pairing.input_alike hx⟩
      rw [hanswer]
      exact (hblind.build hrequests).withSerial _
    have htells : ev.Tells (.build f) (outcomeOf f answer) := by
      refine tells_build hargs' (Plan.Meets.bind hins' ?_)
      rw [← hx]
      exact answered_meets halike
    exact ⟨ht'.invoked hf hh' htells, htells⟩

include hshare in
theorem Builds.faithful {o : Except Halt BuildResult} (h : Builds ev (ev.answer n) f s o s')
    (hw : ev.Awaits fs s fun k => ev.meaning k (.build f) ≠ none) (hlog : s'.described ⊆ log) :
    ev.Faithful fs s' ∧ ev.Tells (.build f) o := by
  cases h with
  | remembered hp => exact ⟨hfaith, hfaith.built f hf _ hp⟩
  | failed hp => exact ⟨hfaith, (hfaith.failed f hf _ hp).2⟩
  | entered hp =>
    have hloops := loops_of_descent (hw.building f hf hp)
    refine ⟨hfaith, ?_⟩
    simpa [Tells, Plan.Meets, BuildError.cause] using hloops
  | @anew _ t hp hb =>
    have hentered : ((s.setProgress f .building).feature f).hashing = true →
        (ev.arguments f).Loops ev := by
      intro hh
      rw [BuildState.hashing_setProgress] at hh
      exact arguments_loop (loops_of_descent fun k hk =>
        meaning_build_hash (hw.hashing f hf hh k hk))
    have hw1 : ev.Awaits fs (s.setProgress f .building) fun k =>
        ev.meaning (k + 1) (.build f) ≠ none := by
      exact Awaits.setBuilding (hw.imp fun k hk => meaning_ne_none (Nat.le_succ k) hk) hfs hf
        fun k hk => hk
    obtain ⟨ht, htells⟩ := hb.faithful hfs hblind hshare hn hf (hs.setBuilding hp)
      (hfaith.setBuilding f) hentered hw1 hlog
    exact ⟨ht.setProgress hfs hf htells, htells⟩

end Entering

/-- Every answer is what its demand means. -/
theorem faithful_at (hfs : Closed ev.model fs) (hblind : ev.backend.Blind)
    (hshare : ev.Shares fs log) (n : Nat) : ev.FaithfulAt fs log n := by
  induction n with
  | zero => exact fun d s _ _ hf _ _ => ⟨hf, True.intro⟩
  | succ n ih =>
    intro d s hd hs hfaith hw hlog
    have hc := (Pairing.alike_complete hblind).toSound
    cases d with
    | hash f =>
      have hf := hd f.mem_constructions
      exact (hashOver_cases ev _ f s).faithful hfs hblind ih hf hs hfaith hw hlog
    | build f =>
      have hf := hd f.mem_constructions
      exact (buildOver_cases ev _ f s).faithful hfs hblind hshare ih hf hs hfaith hw hlog
    | scalar user value =>
      exact run_faithful hfs ih (scalar_matches hc user [] value) (value.items_within.mono hd)
        (by simp) hs hfaith (hw.imp fun k hk => meaning_plan hk) rfl hlog
    | vector user value =>
      exact run_faithful hfs ih (vector_matches hc user [] value) (value.items_within.mono hd)
        (by simp) hs hfaith (hw.imp fun k hk => meaning_plan hk) rfl hlog
    | datum user value =>
      exact run_faithful hfs ih (datum_matches hc user [] value) (value.items_within.mono hd)
        (by simp) hs hfaith (hw.imp fun k hk => meaning_plan hk) rfl hlog
    | selection user value =>
      exact run_faithful hfs ih (selection_matches hc user [] value) (value.items_within.mono hd)
        (by simp) hs hfaith (hw.imp fun k hk => meaning_plan hk) rfl hlog

end Evaluation

end PartScript
