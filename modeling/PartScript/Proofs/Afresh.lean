/-
  Identities that read nothing are the same from what is remembered as from nothing. A construction
  whose identity is remembered is identified again as it was, since its arguments need nothing but
  identities that are remembered too. So two evaluations of which one remembers more, and which
  identify the same constructions, come to the same.
-/
import PartScript.Proofs.Unread

namespace PartScript

open Relation

/-! ## States -/

namespace BuildState

/-- Where `s` remembers identities that `u` does, they are the same. -/
def Agrees (u s : BuildState) : Prop :=
  ∀ f h k, (s.feature f).hash? = some h → (u.feature f).hash? = some k → h = k

/-- The identities that are remembered in `t`, but not in `s`, are those of `u`. -/
def Restores (u s t : BuildState) : Prop :=
  ∀ f h, (t.feature f).hash? = some h →
    (s.feature f).hash? = some h ∨ (u.feature f).hash? = some h

/-- What `t` remembers is what `s` and `u` remember together, and in `t` the same constructions are
being identified as in `s`. -/
structure Joins (u s t : BuildState) : Prop where
  hashing : ∀ f, (t.feature f).hashing = (s.feature f).hashing
  hash? : ∀ f, (t.feature f).hash? = (s.feature f).hash?.or (u.feature f).hash?
  agrees : u.Agrees s

variable {u s s' t t' : BuildState}

theorem Restores.refl (u s : BuildState) : u.Restores s s := fun _ _ => .inl

theorem Restores.trans (h : u.Restores s t) (h' : u.Restores t t') : u.Restores s t' :=
  fun f k hk => (h' f k hk).elim (h f k) .inr

theorem Restores.identified {f : Feature} {args : List ResolvedArgument} (h : u.Restores s t)
    (hf : (u.feature f).hash? = some (Description.feature f.typeName args).hash) :
    u.Restores s (t.identified f args) := by
  intro g k hk
  rw [feature_identified] at hk
  split at hk
  · next hfg =>
    rcases Option.or_eq_some_iff.mp hk with hk | ⟨-, hk⟩
    · exact h g k hk
    · rw [← u.feature_congr hfg, hf]
      exact .inr hk
  · exact h g k hk

theorem Agrees.restores (h : u.Agrees s) (h' : u.Restores s t) : u.Agrees t := by
  intro f x y hx hy
  rcases h' f x hx with hx | hx
  · exact h f x y hx hy
  · exact Option.some.inj (hx.symm.trans hy)

/-- Remembering what `u` does as well changes nothing of what is remembered together. -/
theorem Joins.restores (h : u.Joins s t) (hadv : s.Advances s') (hrestores : u.Restores s s') :
    u.Joins s' t where
  hashing := fun f => (h.hashing f).trans (hadv.feature f).hashing.symm
  hash? := fun f => by
    rw [h.hash? f]
    cases hs : (s.feature f).hash? with
    | some k => rw [(hadv.feature f).hash? hs, Option.some_or]
    | none =>
      cases hs' : (s'.feature f).hash? with
      | none => rfl
      | some k =>
        have hu := (hrestores f k hs').resolve_left (by rw [hs]; nofun)
        rw [hu, Option.none_or, Option.some_or]
  agrees := h.agrees.restores hrestores

theorem Joins.setHashing (h : u.Joins s t) (f : Feature) (b : Bool) :
    u.Joins (s.setHashing f b) (t.setHashing f b) where
  hashing := fun g => by rw [hashing_setHashing, hashing_setHashing, h.hashing g]
  hash? := fun g => by rw [hash?_setHashing, hash?_setHashing, h.hash? g]
  agrees := fun g x y hx hy => by
    rw [hash?_setHashing] at hx
    exact h.agrees g x y hx hy

theorem Joins.identified {f : Feature} (h : u.Joins s t) (hf : (u.feature f).hash? = none)
    (args : List ResolvedArgument) : u.Joins (s.identified f args) (t.identified f args) where
  hashing := fun g => by
    rw [feature_identified, feature_identified]
    split
    · rfl
    · exact h.hashing g
  hash? := fun g => by
    rw [feature_identified, feature_identified]
    split
    · next hfg =>
      rw [u.feature_congr hfg] at hf
      rw [h.hash? g, hf, Option.or_none, Option.or_none]
    · exact h.hash? g
  agrees := fun g x y hx hy => by
    rw [feature_identified] at hx
    split at hx
    · next hfg =>
      rw [u.feature_congr hfg, hy] at hf
      cases hf
    · exact h.agrees g x y hx hy

/-- Nothing is remembered. -/
def blank : BuildState := ⟨[], .empty, [], []⟩

theorem Resting.joins (h : u.Resting) : u.Joins blank u where
  hashing := fun f => (h f).1
  hash? := fun _ => rfl
  agrees := nofun

end BuildState

namespace Plan

variable {ask : Answers} {α : Type} {d : Demand} {reported : Option String} {next : d.Answer → Plan α}
  {s : BuildState}

theorem run_demand_ok {x : d.Answer} (h : (ask d s).1 = .ok x) :
    (demand d reported next).run ask s = (next x).run ask (ask d s).2 := by
  rw [run_demand, show ask d s = (.ok x, (ask d s).2) from Prod.ext h rfl]

/-- A run is not cut off by the answer to its first demand. -/
theorem demand_not_exhausted
    (h : ((demand d reported next).run ask s).1 ≠ .error .exhausted) :
    (ask d s).1 ≠ .error .exhausted := by
  intro hx
  refine h ?_
  rw [run_demand, show ask d s = (.error .exhausted, (ask d s).2) from Prod.ext hx rfl]
  cases reported <;> rfl

end Plan

/-- What a value mentions, the item for which it is demanded leads to. -/
theorem Item.Makes.reaches {M : Model} {user : Option String} {item : Item} {d : Demand}
    (hm : item.Makes M user d) (hv : d.IsValue) {g : Feature} (h : M.Reaches d.items g) :
    M.Reaches [item] g := by
  refine hm.leads ?_
  cases d with
  | hash f => exact hv.elim
  | build f => exact hv.elim
  | _ => exact h

namespace Evaluation

section Hash

variable (ev : Evaluation) {f : Feature} {s : BuildState}

theorem answer_hash_remembered {h : StructuralHash} (hh : (s.feature f).hash? = some h) (n : Nat) :
    ev.answer (n + 1) (.hash f) s = (.ok h, s) := by
  show ev.hashOver (ev.answer n) f s = _
  unfold hashOver
  rw [Build.bind_apply]
  simp only [Build.featureState, hh]
  rfl

theorem answer_hash_entered (hh : (s.feature f).hash? = none) (hmark : (s.feature f).hashing = true)
    (n : Nat) :
    ev.answer (n + 1) (.hash f) s = (.error (.failed (.circularDependency f.label)), s) := by
  show ev.hashOver (ev.answer n) f s = _
  unfold hashOver fingerprint
  simp only [Build.bind_apply, Build.featureState, hh, hmark]
  rfl

/-- What becomes of a construction that is being identified, with its arguments or without. -/
def conclude (f : Feature) (args : Except Halt (List ResolvedArgument)) (s : BuildState) :
    Except Halt StructuralHash × BuildState :=
  match args with
  | .error halt => (.error halt, s.setHashing f false)
  | .ok args => (.ok (Description.feature f.typeName args).hash, s.identified f args)

/-- A construction without an identity is identified by its arguments. -/
theorem answer_hash_computed (hh : (s.feature f).hash? = none)
    (hidle : (s.feature f).hashing = false) (n : Nat) :
    ev.answer (n + 1) (.hash f) s =
      conclude f ((ev.arguments f).run (ev.answer n) (s.setHashing f true)).1
        ((ev.arguments f).run (ev.answer n) (s.setHashing f true)).2 := by
  have hcases := hashOver_cases ev (ev.answer n) f s
  show ev.hashOver (ev.answer n) f s = _
  revert hcases
  generalize ev.hashOver (ev.answer n) f s = r
  obtain ⟨o, t⟩ := r
  intro hcases
  cases hcases with
  | remembered hs => cases hh.symm.trans hs
  | halted _ hprints =>
    cases hprints with
    | entered hmark => cases hidle.symm.trans hmark
    | stopped _ hr =>
      rw [hr]
      rfl
  | @computed _ args _ _ hprints =>
    obtain ⟨-, heq, u, hr, rfl⟩ := hprints.of_ok
    obtain rfl : _ = (Description.feature f.typeName args).hash := heq
    rw [hr]
    rfl

end Hash

theorem conclude_not_exhausted {f : Feature} {args : Except Halt (List ResolvedArgument)}
    {s : BuildState} (h : (conclude f args s).1 ≠ .error .exhausted) : args ≠ .error .exhausted := by
  rintro rfl
  exact h rfl

/-! ## Identities that are remembered -/

section Recovering

/-- A construction is identified again as in `u`, wherever nothing that it depends on is being
identified. -/
def Recovers (ev : Evaluation) (u : BuildState) (f : Feature) : Prop :=
  ∀ n s h, (u.feature f).hash? = some h → u.Agrees s →
    (∀ g, ReflTransGen ev.model.DependsOn f g → (s.feature g).hashing = false) →
    (ev.answer n (.hash f) s).1 ≠ .error .exhausted →
    (ev.answer n (.hash f) s).1 = .ok h ∧ u.Restores s (ev.answer n (.hash f) s).2

variable {ev : Evaluation} {r : FeatureRef} {u : BuildState} {f : Feature}
  (hunread : ∀ g, ¬ ev.model.Needs r g)
include hunread

/-- A plan that has a value from what `u` remembers has the same one again. -/
theorem run_recovers (hdepends : ∀ g, ev.model.DependsOn f g → ev.Recovers u g) {α : Type}
    {p : Plan α} {a : α} (hp : p.Recalls ev u a) {user : Option String}
    {known : List StructuralHash} {items : List Item} (hwalks : p.Walks ev.model user known items)
    (hallow : ∀ item ∈ items, ∀ user d, item.Makes ev.model user d → ev.model.Allows r d)
    (hitems : ∀ g, ev.model.Reaches items g → ev.model.DependsOn f g) (n : Nat) {s : BuildState}
    (hagrees : u.Agrees s)
    (hidle : ∀ g, TransGen ev.model.DependsOn f g → (s.feature g).hashing = false)
    (hne : (p.run (ev.answer n) s).1 ≠ .error .exhausted) :
    (p.run (ev.answer n) s).1 = .ok a ∧ u.Restores s (p.run (ev.answer n) s).2 := by
  have hlater : ∀ {s s' : BuildState}, s.Advances s' →
      (∀ g, TransGen ev.model.DependsOn f g → (s.feature g).hashing = false) →
      ∀ g, TransGen ev.model.DependsOn f g → (s'.feature g).hashing = false :=
    fun hadv h g hg => (hadv.feature g).hashing.trans (h g hg)
  induction hp generalizing user known items n s with
  | done => exact ⟨rfl, .refl u s⟩
  | @hash _ g reported next h _ hh _ ih =>
    cases hwalks with
    | @demand _ item rest _ _ _ hm hnext =>
      have hg : ev.model.DependsOn f g :=
        hitems g (Model.Reaches.of_item (hm.leads rfl) List.mem_cons_self)
      obtain ⟨hok, hrestores⟩ := hdepends g hg n s h hh hagrees (fun k hk => hidle k (.head' hg hk))
        (Plan.demand_not_exhausted hne)
      have hrun : (Plan.demand (.hash g) reported next).run (ev.answer n) s =
          (next h).run (ev.answer n) (ev.answer n (.hash g) s).2 := Plan.run_demand_ok hok
      rw [hrun] at hne ⊢
      obtain ⟨hvalue, hrest⟩ := ih (hnext h) (fun i hi => hallow i (List.mem_cons_of_mem _ hi))
        (fun k hk => hitems k (hk.mono (List.subset_cons_self _ _))) n
        (hagrees.restores hrestores) (hlater (ev.answer_advances n _ s) hidle) hne
      exact ⟨hvalue, hrestores.trans hrest⟩
  | @build _ g =>
    cases hwalks with
    | demand hm _ => exact absurd (hallow _ List.mem_cons_self _ _ hm) (hunread g)
  | @value _ d _ _ x _ hv _ _ ihx ih =>
    cases hwalks with
    | @demand _ item rest _ _ _ hm hnext =>
      have hd := hallow _ List.mem_cons_self _ _ hm
      have hreaches : ∀ g, ev.model.Reaches d.items g → ev.model.DependsOn f g := fun g hg =>
        hitems g (Model.Reaches.of_item (hm.reaches hv hg) List.mem_cons_self)
      have hanswer : (ev.answer n d s).1 = .ok x ∧ u.Restores s (ev.answer n d s).2 := by
        have hne' := Plan.demand_not_exhausted hne
        cases n with
        | zero => exact absurd rfl hne'
        | succ n =>
          rw [ev.answer_value hv] at hne' ⊢
          exact ihx (ev.value_walks hv) (fun i hi user d' hm' => hd.item hv hi hm') hreaches n
            hagrees hidle hne'
      rw [Plan.run_demand_ok hanswer.1] at hne ⊢
      obtain ⟨hvalue, hrest⟩ := ih (hnext x) (fun i hi => hallow i (List.mem_cons_of_mem _ hi))
        (fun k hk => hitems k (hk.mono (List.subset_cons_self _ _))) n
        (hagrees.restores hanswer.2) (hlater (ev.answer_advances n _ s) hidle) hne
      exact ⟨hvalue, hanswer.2.trans hrest⟩
  | @identify _ d next _ _ _ ih =>
    cases hwalks with
    | identify _ hnext => exact ih (hnext _) hallow hitems n (s := s.describe d) hagrees hidle hne

variable {fs : List Feature} (hfs : Closed ev.model fs) (hu : ev.Recollects fs u)
include hfs hu

/-- A construction that is identified without reading anything and depends on no cycle. -/
theorem recovers (hacc : Acc (fun g f => ev.model.DependsOn f g) f) (hf : f ∈ fs)
    (hwith : ev.model.IdentifiedWith r f) : ev.Recovers u f := by
  induction hacc with
  | intro f hacc ih =>
    intro n s h hh hagrees hidle hne
    have hacyclic : ¬ TransGen ev.model.DependsOn f f :=
      Model.Acyclic.of_acc (.intro f hacc) f .refl
    have hdepends : ∀ g, ev.model.DependsOn f g → ev.Recovers u g := fun g hg =>
      ih g hg (hg.within hfs (hfs.items hf)) (hg.cases.elim hwith.takes fun hread =>
        absurd ⟨f, g, hwith, hread, .refl⟩ (hunread g))
    obtain ⟨args, hargs, -, rfl⟩ := hu.identified f hf h hh
    cases n with
    | zero => exact absurd rfl hne
    | succ n =>
      cases hs : (s.feature f).hash? with
      | some k =>
        rw [ev.answer_hash_remembered hs]
        exact ⟨congrArg _ (hagrees f _ _ hs hh), .refl u s⟩
      | none =>
        have hrun := run_recovers hunread hdepends hargs (ev.arguments_walks [] f)
          (fun item hitem user d hm => hwith.allows hitem hm) (fun g hg => hg) n
          (s := s.setHashing f true) (fun g x y hx hy => by
            rw [BuildState.hash?_setHashing] at hx
            exact hagrees g x y hx hy) (fun g hg => by
            have horigin : f.origin ≠ g.origin := fun heq => hacyclic
              (hfs.unique f hf g (Model.depends_within hfs hf hg.to_reflTransGen) heq ▸ hg)
            rw [BuildState.hashing_setHashing, if_neg horigin]
            exact hidle g hg.to_reflTransGen)
        rw [ev.answer_hash_computed hs (hidle f .refl)] at hne ⊢
        obtain ⟨hok, hrestores⟩ := hrun (conclude_not_exhausted hne)
        rw [hok]
        refine ⟨rfl, BuildState.Restores.identified ?_ hh⟩
        intro g k hk
        rw [← BuildState.hash?_setHashing s f g true]
        exact hrestores g k hk

end Recovering

/-! ## Evaluations that remember more -/

/-- Constructions that nothing is remembered of are concluded alike. -/
theorem conclude_joins {u s t : BuildState} {f : Feature} (h : u.Joins s t)
    (hf : (u.feature f).hash? = none) (args : Except Halt (List ResolvedArgument)) :
    (conclude f args t).1 = (conclude f args s).1 ∧
      u.Joins (conclude f args s).2 (conclude f args t).2 := by
  cases args with
  | error halt => exact ⟨rfl, h.setHashing f false⟩
  | ok args => exact ⟨rfl, h.identified hf args⟩

/-- Answers are the same with what `u` remembers and without. -/
def JoinsAt (ev : Evaluation) (fs : List Feature) (r : FeatureRef) (u : BuildState) (n : Nat) : Prop :=
  ∀ (d : Demand) (s t : BuildState), d.constructions ⊆ fs → ev.model.Allows r d →
    Pending ev.model fs s (d.Leads ev.model) → u.Joins s t →
    (ev.answer n d s).1 ≠ .error .exhausted →
      (ev.answer n d t).1 = (ev.answer n d s).1 ∧
        u.Joins (ev.answer n d s).2 (ev.answer n d t).2

section Joining

variable {ev : Evaluation} {fs : List Feature} {r : FeatureRef} {u s t : BuildState} {n : Nat}
  {f : Feature} (hfs : Closed ev.model fs)
include hfs

theorem run_joins (hn : ev.JoinsAt fs r u n) {α : Type} {p : Plan α} {user : Option String}
    {known : List StructuralHash} {items : List Item} (hp : p.Walks ev.model user known items)
    (hitems : ItemsWithin fs items)
    (hallow : ∀ item ∈ items, ∀ user d, item.Makes ev.model user d → ev.model.Allows r d)
    (hpending : Pending ev.model fs s (ev.model.Reaches items)) (hjoins : u.Joins s t)
    (hne : (p.run (ev.answer n) s).1 ≠ .error .exhausted) :
    (p.run (ev.answer n) t).1 = (p.run (ev.answer n) s).1 ∧
      u.Joins (p.run (ev.answer n) s).2 (p.run (ev.answer n) t).2 := by
  induction hp generalizing s t with
  | done => exact ⟨rfl, hjoins⟩
  | stop _ => exact ⟨rfl, hjoins⟩
  | @demand known item items d reported next hm _ ih =>
    have hd := hfs.makes (hitems item List.mem_cons_self) hm
    have hleads : Pending ev.model fs s (d.Leads ev.model) :=
      hpending.advances (.refl s) fun g hg => (hm.leads hg).of_item List.mem_cons_self
    obtain ⟨heq, hafter⟩ := hn d s t hd (hallow item List.mem_cons_self user d hm) hleads hjoins
      (Plan.demand_not_exhausted hne)
    have hadv := ev.answer_advances n d s
    have hsame : ev.answer n d t = ((ev.answer n d s).1, (ev.answer n d t).2) := Prod.ext heq rfl
    rw [Plan.run_demand] at hne ⊢
    rw [Plan.run_demand, hsame]
    rcases hx : ev.answer n d s with ⟨halt | a, s'⟩
    · rw [hx] at hafter
      exact ⟨rfl, hafter⟩
    · rw [hx] at hne hadv hafter
      exact ih a (fun i hi => hitems i (List.mem_cons_of_mem _ hi))
        (fun i hi => hallow i (List.mem_cons_of_mem _ hi))
        (hpending.advances hadv fun g hg => hg.mono (List.subset_cons_self _ _)) hafter hne
  | @identify known items d next _ _ ih =>
    exact ih d.hash hitems hallow (s := s.describe d) (t := t.describe d) hpending
      ⟨hjoins.hashing, hjoins.hash?, hjoins.agrees⟩ hne

variable (hunread : ∀ g, ¬ ev.model.Needs r g) (hu : ev.Recollects fs u)
  (hacc : ∀ f ∈ fs, (u.feature f).hash? ≠ none → Acc (fun g f => ev.model.DependsOn f g) f)
include hunread hu hacc

theorem hash_joins (hn : ev.JoinsAt fs r u n) (hf : f ∈ fs) (hwith : ev.model.IdentifiedWith r f)
    (hpending : Pending ev.model fs s (f = ·)) (hjoins : u.Joins s t)
    (hne : (ev.answer (n + 1) (.hash f) s).1 ≠ .error .exhausted) :
    (ev.answer (n + 1) (.hash f) t).1 = (ev.answer (n + 1) (.hash f) s).1 ∧
      u.Joins (ev.answer (n + 1) (.hash f) s).2 (ev.answer (n + 1) (.hash f) t).2 := by
  have ht := hjoins.hash? f
  cases hs : (s.feature f).hash? with
  | some h =>
    rw [hs, Option.some_or] at ht
    rw [ev.answer_hash_remembered hs, ev.answer_hash_remembered ht]
    exact ⟨rfl, hjoins⟩
  | none =>
    rw [hs, Option.none_or] at ht
    cases hk : (u.feature f).hash? with
    | some h =>
      -- Only the second remembers the construction, the first identifies it again.
      have hacc := hacc f hf (by rw [hk]; nofun)
      have hidle : ∀ g, ReflTransGen ev.model.DependsOn f g → (s.feature g).hashing = false := by
        intro g hg
        by_contra hmark
        have hgf := hpending g (Model.depends_within hfs hf hg) (.inl (by simpa using hmark)) f rfl
        exact Model.Acyclic.of_acc hacc f .refl (TransGen.trans_right hg hgf)
      obtain ⟨hok, hrestores⟩ :=
        recovers hunread hfs hu hacc hf hwith (n + 1) s h hk hjoins.agrees hidle hne
      rw [hk] at ht
      rw [ev.answer_hash_remembered ht, hok]
      exact ⟨rfl, hjoins.restores (ev.answer_advances _ _ s) hrestores⟩
    | none =>
      rw [hk] at ht
      have hmark := hjoins.hashing f
      cases hh : (s.feature f).hashing with
      | true =>
        rw [hh] at hmark
        rw [ev.answer_hash_entered hs hh, ev.answer_hash_entered ht hmark]
        exact ⟨rfl, hjoins⟩
      | false =>
        rw [hh] at hmark
        rw [ev.answer_hash_computed hs hh] at hne ⊢
        rw [ev.answer_hash_computed ht hmark]
        have hrun := run_joins (s := s.setHashing f true) hfs hn (ev.arguments_walks [] f) (hfs.items hf)
          (fun item hitem user d hm => hwith.allows hitem hm) (hpending.depends.enter hfs hf)
          (hjoins.setHashing f true)
        obtain ⟨heq, hafter⟩ := hrun (conclude_not_exhausted hne)
        rw [heq]
        exact conclude_joins hafter hk _

/-- Where nothing is read, answers are the same with what is remembered and without. -/
theorem joins_at (n : Nat) : ev.JoinsAt fs r u n := by
  induction n with
  | zero => exact fun d s t _ _ _ _ hne => absurd rfl hne
  | succ n ih =>
    intro d s t hd hallow hpending hjoins hne
    have hvalue : d.IsValue → ((ev.plan d).run (ev.answer n) s).1 ≠ .error .exhausted →
        ((ev.plan d).run (ev.answer n) t).1 = ((ev.plan d).run (ev.answer n) s).1 ∧
          u.Joins ((ev.plan d).run (ev.answer n) s).2 ((ev.plan d).run (ev.answer n) t).2 :=
      fun hv => run_joins hfs ih (ev.value_walks hv) (d.items_within.mono hd)
        (fun item hitem user d' hm => hallow.item hv hitem hm)
        (hpending.advances (.refl s) fun g hg => by
          cases d with
          | hash f => exact hv.elim
          | build f => exact hv.elim
          | _ => exact hg) hjoins
    cases d with
    | hash f =>
      exact hash_joins hfs hunread hu hacc ih (hd f.mem_constructions)
        (hallow.resolve_right (hunread f)) hpending hjoins hne
    | build f => exact absurd hallow (hunread f)
    | scalar user value => exact hvalue True.intro hne
    | vector user value => exact hvalue True.intro hne
    | datum user value => exact hvalue True.intro hne
    | selection user value => exact hvalue True.intro hne

end Joining

end Evaluation

end PartScript
