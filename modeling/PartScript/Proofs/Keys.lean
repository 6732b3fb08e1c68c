/-
  The keys of the cache. Whenever a construction is fingerprinted again, its arguments come to
  what they came to when its identity was set, and the identity to the one that is remembered.
  So the outcome of a construction is looked up in a cache, and kept there, under the remembered
  identity and under no other key.
-/
import PartScript.Proofs.Returns

namespace PartScript

open Relation

/-! ## Where identities are set -/

/-- Each identity that is remembered for one of the constructions was set by a fingerprint of
which `P` holds. -/
def BuildState.SetBy (s : BuildState) (fs : List Feature)
    (P : Feature → StructuralHash × List ResolvedArgument → Prop) : Prop :=
  ∀ f ∈ fs, ∀ hash, (s.feature f).hash? = some hash → ∃ args, P f (hash, args)

namespace Evaluation

variable {ev : Evaluation} {C : Call → Prop} {fs : List Feature} {n : Nat} {f : Feature}
  {s s' t : BuildState}

theorem Fingerprints.eq {ask : Answers}
    {o : Except Halt (StructuralHash × List ResolvedArgument)}
    (h : Fingerprints ev ask f s o s') : ev.fingerprint ask f s = (o, s') := by
  obtain ⟨ho, hs⟩ := h.unique (fingerprint_cases ev ask f s)
  exact Prod.ext ho.symm hs.symm

/-- A fingerprint begins with the identities that are remembered when its construction is
called for. -/
theorem Begins.exists_call (h : Begins C n f s) : ∃ c, C c ∧ f ∈ c.demand.constructions ∧
    ∀ g, (s.feature g).hash? = (c.state.feature g).hash? := by
  cases h with
  | identity hc _ => exact ⟨_, hc, f.mem_constructions, fun _ => rfl⟩
  | @build s hc _ =>
    exact ⟨_, hc, f.mem_constructions, fun g => BuildState.hash?_setProgress s f g _⟩

theorem Begins.mem (hwithin : ∀ c, C c → c.demand.constructions ⊆ fs) (h : Begins C n f s) :
    f ∈ fs := by
  obtain ⟨c, hc, hf, -⟩ := h.exists_call
  exact hwithin c hc hf

theorem Begins.recollects (hC : ∀ c, C c → ev.Recollects fs c.state) (h : Begins C n f s) :
    ev.Recollects fs s := by
  cases h with
  | identity hc _ => exact hC _ hc
  | build hc hp => exact (hC _ hc).setBuilding hp

/-- A build that ends with a result has been fingerprinted. -/
theorem BuildsAnew.of_ok {ask : Answers} {result : BuildResult}
    (h : BuildsAnew ev ask f s (.ok result) s') : ∃ x u, Fingerprints ev ask f s (.ok x) u := by
  generalize ho : (Except.ok result : Except Halt BuildResult) = o at h
  cases h with
  | unidentified _ => cases ho
  | recalled hprints _ _ => exact ⟨_, _, hprints⟩
  | starved hprints _ _ => exact ⟨_, _, hprints⟩
  | invoked hprints _ _ _ => exact ⟨_, _, hprints⟩

/-- A build ends with the answer that the cache has for its fingerprint. -/
theorem BuildsAnew.of_found {ask : Answers} {o : Except Halt BuildResult}
    (h : BuildsAnew ev ask f s o s') {x : StructuralHash × List ResolvedArgument}
    (hprints : Fingerprints ev ask f s (.ok x) t) (hcaching : ev.caching = true)
    {answer : BuildAnswer} (hentry : t.cache.entries.get? x.1 = some answer) :
    o = outcomeOf f answer := by
  cases h with
  | unidentified hp => cases (hp.unique hprints).1
  | recalled hp _ hentry' =>
    obtain ⟨heq, rfl⟩ := hp.unique hprints
    cases heq
    rw [Option.some.inj (hentry'.symm.trans hentry)]
  | starved hp hmiss _ =>
    obtain ⟨heq, rfl⟩ := hp.unique hprints
    cases heq
    cases (hmiss hcaching).symm.trans hentry
  | invoked hp hmiss _ _ =>
    obtain ⟨heq, rfl⟩ := hp.unique hprints
    cases heq
    cases (hmiss hcaching).symm.trans hentry

/-- A deed sets an identity only where a fingerprint has found none. -/
theorem Deed.setBy (hfs : Closed ev.model fs)
    (hwithin : ∀ c, C c → c.demand.constructions ⊆ fs)
    {P : Feature → StructuralHash × List ResolvedArgument → Prop}
    (hP : ∀ n f s x s', Begins C n f s → (s.feature f).hash? = none →
      ev.fingerprint (ev.answer n) f s = (.ok x, s') → P f x)
    (h : ev.Deed C s t) (hs : s.SetBy fs P) : t.SetBy fs P := by
  have hsame : (∀ g, (t.feature g).hash? = (s.feature g).hash?) → t.SetBy fs P :=
    fun heq g hg hash hh => hs g hg hash ((heq g).symm.trans hh)
  cases h with
  | describe _ => exact hs
  | hashing _ _ => exact hsame fun g => BuildState.hash?_setHashing s _ g _
  | missed _ => exact hsame fun g => by rw [BuildState.feature_missed]
  | begin _ => exact hsame fun g => BuildState.hash?_setProgress s _ g _
  | fail _ _ _ => exact hsame fun g => BuildState.hash?_setProgress s _ g _
  | cached _ _ _ => exact hsame fun g => BuildState.hash?_setProgress s.hit _ g _
  | invoke _ _ => exact hsame fun g => BuildState.hash?_setProgress (s.invoked _ _ _ _) _ g _
  | @identify n u f args _ hbegins hidle hr =>
    intro g hg hash hh
    by_cases hfg : f.origin = g.origin
    · obtain rfl := hfs.unique f (hbegins.mem hwithin) g hg hfg
      rw [BuildState.feature_identified, if_pos rfl] at hh
      cases hcell : (s.feature f).hash? with
      | some k =>
        simp only [hcell, Option.some_or] at hh
        exact hs f hg hash (hcell.trans hh)
      | none =>
        simp only [hcell, Option.none_or] at hh
        obtain rfl := Option.some.inj hh
        -- None is remembered once the arguments are evaluated, so none was before.
        have hadv := Plan.run_advances (ev.answer_advances n) (ev.arguments f) (u.setHashing f true)
        rw [hr] at hadv
        have hnone := (hadv.feature f).hash?_eq_none hcell
        rw [BuildState.hash?_setHashing] at hnone
        have hprints : Fingerprints ev (ev.answer n) f u (.ok (_, args)) _ := .finished hidle hr
        exact ⟨args, hP n f u _ _ hbegins hnone hprints.eq⟩
    · rw [BuildState.feature_identified, if_neg hfg] at hh
      exact hs g hg hash hh

end Evaluation

/-! ## Fingerprints in a run -/

namespace Workbench

variable {registries : Nat → Registry} {backend : Backend} {scope : CacheScope}
  {b b' : Workbench} {id : Nat} {q : Query} {f : Feature}
  {x y : StructuralHash × List ResolvedArgument} {s s' u : BuildState} {key : StructuralHash}

/-- While a query is answered, a fingerprint of a construction is completed. It began with `s`
remembered and leaves `s'`; `x` is the identity with the evaluated arguments. -/
inductive Prints (b : Workbench) (id : Nat) (q : Query) (f : Feature) (s : BuildState)
    (x : StructuralHash × List ResolvedArgument) (s' : BuildState) : Prop where
  | call {n} : Evaluation.Begins (b.Calls id q) n f s →
      (b.shop.evaluation id).fingerprint ((b.shop.evaluation id).answer n) f s = (.ok x, s') →
      Prints b id q f s x s'

/-- Before the workbench was come to, a fingerprint of the construction that found no identity
remembered came to `x`, in answering some query of the session. -/
inductive Printed (registries : Nat → Registry) (backend : Backend) (scope : CacheScope)
    (b : Workbench) (id : Nat) (f : Feature) (x : StructuralHash × List ResolvedArgument) :
    Prop where
  | ask {b₀ q s s'} :
      ReflTransGen (Event registries) (create (registries 0) backend scope) b₀ →
      q.constructions ⊆ b₀.constructions id → b₀.Prints id q f s x s' →
      (s.feature f).hash? = none → ReflTransGen (Event registries) (b₀.ask id q).2 b →
      Printed registries backend scope b id f x

theorem Printed.later (h : Printed registries backend scope b id f x)
    (hrun : ReflTransGen (Event registries) b b') : Printed registries backend scope b' id f x := by
  cases h with
  | ask hb hq hprints hnone hbefore => exact .ask hb hq hprints hnone (hbefore.trans hrun)

/-- What a session remembers settles the fingerprint of a construction. -/
structure Settled (b : Workbench) (id : Nat) (f : Feature)
    (x : StructuralHash × List ResolvedArgument) : Prop where
  remembered : ((b.shop.state id).feature f).hash? = some x.1
  hashed : x.1 = (Description.feature f.typeName x.2).hash
  recalled : ((b.shop.evaluation id).arguments f).Recalls (b.shop.evaluation id)
    (b.shop.state id) x.2

theorem Settled.unique (h : Settled b id f x) (h' : Settled b id f y) : x = y := by
  have hargs := h.recalled.unique h'.recalled
  refine Prod.ext ?_ hargs
  rw [h.hashed, h'.hashed, hargs]

theorem Settled.later (h : Settled b id f x) (hlater : Later b b' id) : Settled b' id f x where
  remembered := hlater.remembers.hash? h.remembered
  hashed := h.hashed
  recalled := by
    have hc : (Pairing.later (b.shop.evaluation id) (b'.shop.session id).model
        b'.shop.backend).Sound := Pairing.later_sound hlater.model.toExtends hlater.select
    rw [hlater.evaluation]
    exact (h.recalled.mono hlater.remembers).alongside hc rfl
      (fun _ _ => ResolvedArgument.forall₂_eq) (Evaluation.arguments_matches hc f [])

section Kept

variable (hb : b.Kept registries) (hq : q.constructions ⊆ b.constructions id)
include hb hq

/-- A fingerprint leaves the identity that it comes to remembered, whether one was so before or
not, and what it has read is remembered from then on. -/
theorem Prints.identifies (h : b.Prints id q f s x s') :
    (s'.feature f).hash? = some x.1 ∧ x.1 = (Description.feature f.typeName x.2).hash ∧
      ((b.shop.evaluation id).arguments f).Recalls (b.shop.evaluation id) s' x.2 ∧
      s.Advances s' ∧ (b.outcome id q).2.Retains s' := by
  obtain @⟨n, hbegins, hprint⟩ := h
  have hprints := Evaluation.fingerprint_cases (b.shop.evaluation id)
    ((b.shop.evaluation id).answer n) f s
  rw [hprint] at hprints
  have hkeeps := hb.sessions id
  obtain ⟨-, hhash, hargs, -, heq⟩ := hprints.identifies hkeeps.closed
    ((b.shop.evaluation id).recollects_at hkeeps.closed n)
    (hbegins.mem fun c hc => hc.within hkeeps hq)
    (hbegins.recollects fun c hc => hc.recollects hkeeps hq)
  obtain ⟨c, hc, hafter⟩ := hbegins.after hprints
  exact ⟨hhash, heq, hargs, hprints.advances ((b.shop.evaluation id).answer_advances n),
    hafter.trans hc.after⟩

/-- An identity that was remembered when a fingerprint began is the one that it comes to. -/
theorem Prints.same (h : b.Prints id q f s x s') {hash : StructuralHash}
    (hh : (s.feature f).hash? = some hash) : x.1 = hash := by
  obtain ⟨hhash, -, -, hadv, -⟩ := h.identifies hb hq
  exact Option.some.inj (hhash.symm.trans ((hadv.feature f).hash? hh))

/-- A fingerprint is settled when the query has been answered. -/
theorem Prints.settled (h : b.Prints id q f s x s') : Settled (b.ask id q).2 id f x := by
  obtain ⟨hhash, heq, hargs, -, hend⟩ := h.identifies hb hq
  refine ⟨?_, heq, ?_⟩
  · rw [state_ask]
    exact hend.hash? hhash
  · rw [state_ask, evaluation_ask]
    exact hargs.mono hend.toRemembers

end Kept

/-- What a fingerprint came to when it set the identity is settled from then on. -/
theorem Printed.settled (h : Printed registries backend scope b id f x) : Settled b id f x := by
  obtain @⟨b₀, q, s, s', hb, hq, hprints, -, hrun⟩ := h
  have hkept := kept_of_events hb
  have hasked : (b₀.ask id q).2.Kept registries := Step.kept (.works (.ask hq)) hkept
  exact (hprints.settled hkept hq).later (hasked.later hrun id).2

/-! ## Identities in a run -/

/-- Whatever a query adds, each identity is set by a fingerprint that is then on record; so it
is at every call of the query as well. -/
theorem setBy_ask
    (hb : ReflTransGen (Event registries) (create (registries 0) backend scope) b)
    (hq : q.constructions ⊆ b.constructions id) {fs : List Feature}
    (hfs : Closed (b.shop.session id).model fs) (hsub : b.constructions id ⊆ fs)
    (h : (b.shop.state id).SetBy fs (Printed registries backend scope b id)) :
    (b.outcome id q).2.SetBy fs (Printed registries backend scope (b.ask id q).2 id) ∧
      ∀ c, b.Calls id q c →
        c.state.SetBy fs (Printed registries backend scope (b.ask id q).2 id) := by
  have hkeeps := (kept_of_events hb).sessions id
  refine kept_ask (fun s t => Evaluation.Deed.setBy hfs
    (fun c hc => List.Subset.trans (hc.within hkeeps hq) hsub)
    fun n f s x s' hbegins hnone hprint => .ask hb hq (.call hbegins hprint) hnone .refl) ?_
  intro f hf hash hh
  obtain ⟨args, hprinted⟩ := h f hf hash hh
  exact ⟨args, hprinted.later (.single (.step (.works (.ask hq))))⟩

/-- Each identity that a session remembers was set by a fingerprint in some query of the run. -/
theorem setBy_printed
    (hb : ReflTransGen (Event registries) (create (registries 0) backend scope) b)
    {fs : List Feature} (hfs : Closed (b.shop.session id).model fs)
    (hsub : b.constructions id ⊆ fs) :
    (b.shop.state id).SetBy fs (Printed registries backend scope b id) := by
  induction hb generalizing fs with
  | refl => exact fun f _ hash hh => by cases hh
  | @tail b b' hrun hevent ih =>
    have hkept := kept_of_events hrun
    have hlater := hevent.later hkept id
    have hclosed := hfs.of_continues hlater.model
    have hwithin := List.Subset.trans hlater.constructions hsub
    have hbefore := ih hclosed hwithin
    -- A session that is not asked remembers the same identities.
    have hsame : (∀ f, (b'.shop.state id).feature f = (b.shop.state id).feature f) →
        (b'.shop.state id).SetBy fs (Printed registries backend scope b' id) := by
      intro heq f hf hash hh
      rw [heq] at hh
      obtain ⟨args, hprinted⟩ := hbefore f hf hash hh
      exact ⟨args, hprinted.later (.single hevent)⟩
    cases hevent with
    | refit build => exact hsame fun f => rfl
    | step hstep =>
      rcases hstep.views hkept id with ⟨q, hq, rfl⟩ | hstands
      · rw [state_ask]
        exact (setBy_ask hrun hq hclosed hwithin hbefore).1
      · exact hsame hstands.feature

/-- The identity that a fingerprint finds remembered was set by one that came to the same. -/
theorem Prints.printed
    (hb : ReflTransGen (Event registries) (create (registries 0) backend scope) b)
    (hq : q.constructions ⊆ b.constructions id) (h : b.Prints id q f s x s') :
    Printed registries backend scope (b.ask id q).2 id f x := by
  have hkept := kept_of_events hb
  have hkeeps := hkept.sessions id
  cases hh : (s.feature f).hash? with
  | none => exact .ask hb hq h hh .refl
  | some hash =>
    have hsettled := h.settled hkept hq
    obtain @⟨n, hbegins, hprint⟩ := h
    obtain ⟨c, hc, hf, hstart⟩ := hbegins.exists_call
    have hset := (setBy_ask hb hq hkeeps.closed (List.Subset.refl _)
      (setBy_printed hb hkeeps.closed (List.Subset.refl _))).2 c hc
    obtain ⟨args, hprinted⟩ := hset f (hc.within hkeeps hq hf) hash ((hstart f).symm.trans hh)
    obtain rfl := hprinted.settled.unique hsettled
    exact hprinted

/-! ## Keys -/

/-- In the course of a query, the outcome of a construction is looked up in the cache under a
key. `u` is what is remembered then, and the last argument is what the build ends with. -/
inductive LooksUp (b : Workbench) (id : Nat) (q : Query) (f : Feature) (key : StructuralHash)
    (u : BuildState) : Except Halt BuildResult → Prop where
  | build {n s args} : b.Calls id q ⟨n + 1, .build f, s⟩ → (s.feature f).progress = .unbuilt →
      (b.shop.evaluation id).fingerprint ((b.shop.evaluation id).answer n) f
        (s.setProgress f .building) = (.ok (key, args), u) →
      (b.shop.evaluation id).caching = true →
      LooksUp b id q f key u ((b.shop.evaluation id).answer (n + 1) (.build f) s).1

/-- In the course of a query, the backend's answer for a construction is kept in the cache under
a key; `u` is what is remembered until then. -/
inductive Deposits (b : Workbench) (id : Nat) (q : Query) (f : Feature) (key : StructuralHash)
    (u : BuildState) : BuildAnswer → Prop where
  | build {n s args ins} : b.Calls id q ⟨n + 1, .build f, s⟩ →
      (b.shop.evaluation id).Readies ((b.shop.evaluation id).answer n) f s key args ins u →
      (b.shop.evaluation id).caching = true → Deposits b id q f key u
        ((b.shop.evaluation id).numbered u (Evaluation.request f key ins))

/-- A key of the cache is an identity that is remembered, and comes from a fingerprint. -/
theorem LooksUp.remembered (hb : b.Kept registries) (hq : q.constructions ⊆ b.constructions id)
    {o : Except Halt BuildResult} (h : b.LooksUp id q f key u o) :
    (u.feature f).hash? = some key ∧ ∃ s args s', b.Prints id q f s (key, args) s' := by
  obtain ⟨hc, hp, hprint, -⟩ := h
  have hprints : b.Prints id q f _ _ u := .call (.build hc hp) hprint
  exact ⟨(hprints.identifies hb hq).1, _, _, _, hprints⟩

/-- The build ends with the answer that is found. -/
theorem LooksUp.found {o : Except Halt BuildResult} (h : b.LooksUp id q f key u o)
    {answer : BuildAnswer} (hentry : u.cache.entries.get? key = some answer) :
    o = Evaluation.outcomeOf f answer := by
  obtain @⟨n, s, args, hc, hp, hprint, hcaching⟩ := h
  obtain ⟨v, hanew, -⟩ := (Evaluation.buildOver_cases (b.shop.evaluation id)
    ((b.shop.evaluation id).answer n) f s).of_unbuilt hp
  have hprints := Evaluation.fingerprint_cases (b.shop.evaluation id)
    ((b.shop.evaluation id).answer n) f (s.setProgress f .building)
  rw [hprint] at hprints
  exact hanew.of_found hprints hcaching hentry

theorem Deposits.remembered (hb : b.Kept registries) (hq : q.constructions ⊆ b.constructions id)
    {answer : BuildAnswer} (h : b.Deposits id q f key u answer) : (u.feature f).hash? = some key ∧
      ∃ s args s', b.Prints id q f s (key, args) s' := by
  obtain ⟨hc, hready, -⟩ := h
  have hkeeps := hb.sessions id
  obtain ⟨v, hprints, -⟩ := hready.steps
  have hf := hc.within hkeeps hq f.mem_constructions
  exact ⟨(hready.remembers hkeeps.closed hf (hc.recollects hkeeps hq)).1, _, _, v,
    .call (.build hc hready.unbuilt) hprints.eq⟩

/-- Every answer in the cache was there when the query began, or is kept there for one of its
constructions. -/
def Filled (b : Workbench) (id : Nat) (q : Query) (s : BuildState) : Prop :=
  ∀ key answer, s.cache.entries.get? key = some answer →
    (b.shop.state id).cache.entries.get? key = some answer ∨ ∃ f u, b.Deposits id q f key u answer

theorem deed_filled (h : (b.shop.evaluation id).Deed (b.Calls id q) s s')
    (hs : b.Filled id q s) : b.Filled id q s' := by
  cases h with
  | missed caching =>
    unfold BuildState.missed
    split <;> exact hs
  | @invoke n f u hash args ins _ hc hready =>
    cases hcaching : (b.shop.evaluation id).caching with
    | false => exact hs
    | true =>
      intro key answer hentry
      have hinsert : (s.cache.entries.insert hash ((b.shop.evaluation id).numbered s
          (Evaluation.request f hash ins))).get? key = some answer := hentry
      rw [Table.get?_insert] at hinsert
      split at hinsert
      · next heq =>
        obtain rfl : hash = key := heq
        obtain rfl := Option.some.inj hinsert
        exact .inr ⟨f, s, .build hc hready hcaching⟩
      · exact hs key answer hinsert
  | _ => exact hs

theorem filled_ask (b : Workbench) (id : Nat) (q : Query) : b.Filled id q (b.outcome id q).2 :=
  (b.kept_ask (fun _ _ => deed_filled) fun _ _ => .inl).1

/-- A construction that gets built is fingerprinted and looked up in the cache, if caches are in
use, with the identities that the session remembers. -/
theorem exists_prints (hp : ((b.shop.state id).feature f).progress = .unbuilt)
    {result : BuildResult} (hresult : (b.ask id (.result f)).1 = .ok result) :
    ∃ s x s', b.Prints id (.result f) f s x s' ∧
      (∀ g, (s.feature g).hash? = ((b.shop.state id).feature g).hash?) ∧
      ((b.shop.evaluation id).caching = true →
        b.LooksUp id (.result f) f x.1 s' (.ok result)) := by
  have hcall : b.Calls id (.result f)
      ⟨(b.shop.evaluation id).depth (b.made id).length, .build f, b.shop.state id⟩ := .ask .here
  have hown := Plan.run_own ((b.shop.evaluation id).answers (b.made id).length) (.build f)
    (b.shop.state id)
  have hbuilt : ((b.shop.evaluation id).answer
      ((b.shop.evaluation id).depth (b.made id).length) (.build f) (b.shop.state id)).1 =
        .ok result := (congrArg Prod.fst hown).symm.trans hresult
  generalize (b.shop.evaluation id).depth (b.made id).length = depth at hcall hbuilt
  cases depth with
  | zero => cases hbuilt
  | succ n =>
    obtain ⟨u, hanew, -⟩ := (Evaluation.buildOver_cases (b.shop.evaluation id)
      ((b.shop.evaluation id).answer n) f (b.shop.state id)).of_unbuilt hp
    rw [show (Evaluation.buildOver _ _ f _).1 = .ok result from hbuilt] at hanew
    obtain ⟨x, v, hprints⟩ := hanew.of_ok
    exact ⟨_, x, v, .call (.build hcall hp) hprints.eq,
      fun g => BuildState.hash?_setProgress _ f g _,
      fun hcaching => hbuilt ▸ .build hcall hp hprints.eq hcaching⟩

/-- In every run of any number of sessions, whatever they load, make and ask, whichever caches
are cleared, and however the backend comes to build: a fingerprint comes to what it came to when
the identity of the construction was set, arguments included; so to the identity that it finds
remembered, if there is one. The outcome of a construction is looked up in a cache, and kept
there, under the identity that is remembered for it at that moment and from then on. A build
ends with what is found, and a query brings nothing else to the cache. -/
theorem keys_are_identities
    (hb : ReflTransGen (Event registries) (create (registries 0) backend scope) b)
    (hq : q.constructions ⊆ b.constructions id) :
    (∀ f s x s', b.Prints id q f s x s' →
      (∀ hash, (s.feature f).hash? = some hash → x.1 = hash) ∧
      ∀ y, Printed registries backend scope (b.ask id q).2 id f y ↔ y = x) ∧
    (∀ f key u, (∃ o, b.LooksUp id q f key u o) ∨ (∃ answer, b.Deposits id q f key u answer) →
      (u.feature f).hash? = some key ∧
      ∀ b', ReflTransGen (Event registries) (b.ask id q).2 b' →
        ((b'.shop.state id).feature f).hash? = some key) ∧
    (∀ f key u o answer, b.LooksUp id q f key u o → u.cache.entries.get? key = some answer →
      o = Evaluation.outcomeOf f answer) ∧
    ∀ key answer, ((b.ask id q).2.shop.state id).cache.entries.get? key = some answer →
      (b.shop.state id).cache.entries.get? key = some answer ∨
        ∃ f u, b.Deposits id q f key u answer := by
  have hkept := kept_of_events hb
  refine ⟨fun f s x s' hprints => ⟨fun hash hh => hprints.same hkept hq hh, fun y => ?_⟩,
    fun f key u huse => ?_, fun f key u o answer hlooks => hlooks.found, ?_⟩
  · have hprinted := hprints.printed hb hq
    exact ⟨fun hy => hy.settled.unique hprinted.settled, fun heq => heq ▸ hprinted⟩
  · have hremembered : (u.feature f).hash? = some key ∧
        ∃ s args s', b.Prints id q f s (key, args) s' :=
      huse.elim (fun ⟨_, hlooks⟩ => hlooks.remembered hkept hq) fun ⟨_, hdeposits⟩ =>
        hdeposits.remembered hkept hq
    obtain ⟨hkey, s, args, s', hprints⟩ := hremembered
    exact ⟨hkey, fun b' hrun => ((hprints.printed hb hq).later hrun).settled.remembered⟩
  · rw [state_ask]
    exact b.filled_ask id q

/-- The build of a compound has been put off, because one of its inputs was not bound. By then
the other input has been identified, but not built. Then the missing input is bound. -/
def putOff : Workbench :=
  let loaded := (create Catalog.registry (Symbolic.backend []) .session).load Catalog.registry 0
    (.script "s = Sphere([0, 0, 0], 1); c = Compound(s, d);")
  (loaded.ask 0 (.named (.build "c"))).2.load Catalog.registry 0 (.script "d = Compound(s);")

set_option maxRecDepth 100000 in
theorem keys_are_identities_put_off : ∃ f ∈ putOff.constructions 0, f.label = "s" ∧
    ∃ s x s', putOff.Prints 0 (.result f) f s x s' ∧ (s.feature f).hash? = some x.1 ∧
      Printed (fun _ => Catalog.registry) (Symbolic.backend []) .session
        (putOff.ask 0 (.result f)).2 0 f x ∧
      (∃ o, putOff.LooksUp 0 (.result f) f x.1 s' o) ∧ (s'.feature f).hash? = some x.1 := by
  have hreachable : ReflTransGen (Event fun _ => Catalog.registry)
      (create Catalog.registry (Symbolic.backend []) .session) putOff :=
    ((ReflTransGen.single (.step (.works (.load 0 _)))).tail
      (.step (.works (.ask (List.nil_subset _))))).tail (.step (.works (.load 0 _)))
  obtain ⟨f, hf, hlabel, hstage, hhash, hok⟩ : ∃ f ∈ putOff.constructions 0, f.label = "s" ∧
      ((putOff.shop.state 0).feature f).progress.stage = .unbuilt ∧
      ((putOff.shop.state 0).feature f).hash?.isSome ∧
      (putOff.ask 0 (.result f)).1.isOk := by
    decide +kernel
  obtain ⟨hash, hhash⟩ := Option.isSome_iff_exists.mp hhash
  obtain ⟨result, hresult⟩ := exists_ok hok
  obtain ⟨s, x, s', hprints, hstart, hlooks⟩ :=
    exists_prints (Progress.stage_unbuilt hstage) hresult
  have hown : f.constructions ⊆ putOff.constructions 0 :=
    ((kept_of_events hreachable).sessions 0).closed.constructions hf
  obtain ⟨hfresh, hkeys, -, -⟩ := keys_are_identities (q := .result f) hreachable hown
  obtain ⟨hsame, hfirst⟩ := hfresh f s x s' hprints
  have hlooks : ∃ o, putOff.LooksUp 0 (.result f) f x.1 s' o := ⟨_, hlooks (by decide +kernel)⟩
  have hfound : (s.feature f).hash? = some hash := (hstart f).trans hhash
  refine ⟨f, hf, hlabel, s, x, s', hprints, ?_, (hfirst x).mpr rfl, hlooks,
    (hkeys f x.1 s' (.inl hlooks)).1⟩
  rw [hsame hash hfound]
  exact hfound

end Workbench

end PartScript
