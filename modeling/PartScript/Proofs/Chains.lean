/-
  Chains of failures. A construction that fails reports an error of its own, or once, under its
  own label, the error with which a construction failed that its arguments mention. So an
  error lists the labels along a path of dependencies, and its root cause is the error of the
  construction at the end of the path. This holds of errors that are computed, whether for an
  identity or for a result, and of errors that are remembered or answered from a cache.
-/
import Mathlib.Data.List.Chain
import PartScript.Build.Symbolic
import PartScript.Catalog
import PartScript.Proofs.Calls
import PartScript.Proofs.Stability

namespace PartScript

open Relation

/-! ## What a plan reports -/

/-- An error that is neither that of an input nor the refusal of a construction. -/
def BuildError.Plain : BuildError → Prop
  | .failedInput _ _ => False
  | .backend _ _ => False
  | _ => True

/-- A plan reports the errors of constructions as those of inputs of `user`, and those of
values as they are; its own errors are plain. -/
inductive Plan.Reports (user : Option String) {α : Type} : Plan α → Prop where
  | done {a} : Reports user (.done a)
  | stop {e} : e.Plain → Reports user (.stop e)
  | value {d next} : d.IsValue → (∀ a, Reports user (next a)) → Reports user (.demand d none next)
  | enter {d f next} : d.Enters f → (∀ a, Reports user (next a)) →
      Reports user (.demand d user next)
  | identify {d next} : (∀ h, Reports user (next h)) → Reports user (.identify d next)

namespace Plan.Reports

variable {user : Option String} {α β : Type}

theorem bind {p : Plan α} {f : α → Plan β} (h : p.Reports user) (hf : ∀ a, (f a).Reports user) :
    (p >>= f).Reports user := by
  induction h with
  | done => exact hf _
  | stop he => exact .stop he
  | value hv _ ih => exact .value hv ih
  | enter hd _ ih => exact .enter hd ih
  | identify _ ih => exact .identify ih

theorem ofExcept {x : Except BuildError α} (h : ∀ e, x = .error e → e.Plain) :
    (Plan.ofExcept x).Reports user := by
  cases x with
  | error e => exact .stop (h e rfl)
  | ok a => exact .done

end Plan.Reports

theorem Model.targetOfName_plain (M : Model) (n : Nat) (seen : List String) (name : String)
    (e : BuildError) (h : M.targetOfName n seen name = .error e) : e.Plain := by
  induction n generalizing seen name with
  | zero =>
    cases h
    exact True.intro
  | succ n ih =>
    rw [targetOfName] at h
    split at h
    · cases h
      exact True.intro
    · split at h
      · cases h
        exact True.intro
      · split at h
        · obtain ⟨name', -, h⟩ := FeatureRef.targetOver_error h
          exact ih _ name' h
        · cases h
          exact True.intro

theorem Model.target_plain {M : Model} {r : FeatureRef} (e : BuildError)
    (h : M.target r = .error e) : e.Plain := by
  obtain ⟨name, -, h⟩ := FeatureRef.targetOver_error h
  exact M.targetOfName_plain _ _ name e h

theorem BuildResult.descend_plain {owner : String} {result : BuildResult} {path : List String}
    (e : BuildError) (h : result.descend owner path = .error e) : e.Plain := by
  induction path generalizing owner result with
  | nil => cases h
  | cons name path ih =>
    rw [descend] at h
    split at h
    · exact ih h
    · cases h
      exact True.intro

namespace Evaluation

variable (ev : Evaluation) (user : Option String)

theorem resolve_reports (r : FeatureRef) : (ev.resolve user r).Reports user := by
  unfold resolve
  refine (Plan.Reports.ofExcept Model.target_plain).bind fun t => ?_
  refine .enter (.inl rfl) fun h => ?_
  split
  · exact .done
  · exact .identify fun _ => .done

theorem buildBelow_reports (root : Feature) (path : List String) :
    (buildBelow user root path).Reports user :=
  .enter (.inr rfl) fun _ => .ofExcept BuildResult.descend_plain

theorem buildReference_reports (r : FeatureRef) : (ev.buildReference user r).Reports user :=
  (Plan.Reports.ofExcept Model.target_plain).bind fun t => buildBelow_reports user t.1 t.2

theorem bound_reports (name : String) (kind : SymbolKind) : (ev.bound name kind).Reports user := by
  unfold bound
  split
  · exact .done
  · exact .stop True.intro

theorem direction_reports (what : String) (v : Vec3) : (direction what v).Reports user := by
  unfold direction
  split
  · exact .done
  · exact .stop True.intro

mutual

theorem scalar_reports : (e : ScalarExpr) → (ev.scalar user e).Reports user
  | .literal _ => .done
  | .symbol name => by
    rw [scalar]
    refine (ev.bound_reports user name .scalar).bind fun v => ?_
    cases v with
    | scalar value => exact .value True.intro fun _ => .done
    | _ => exact .stop True.intro
  | .neg operand => (scalar_reports operand).bind fun _ => .done
  | .binary _ left right =>
    (scalar_reports left).bind fun _ => (scalar_reports right).bind fun _ => .done
  | .call _ operand => (scalar_reports operand).bind fun _ => .done
  | .dot left right =>
    (vector_reports left).bind fun _ => (vector_reports right).bind fun _ => .done
  | .magnitude operand => (vector_reports operand).bind fun _ => .done
  | .component operand _ => (vector_reports operand).bind fun _ => .done
  | .value feature name => by
    rw [scalar]
    refine (ev.buildReference_reports user feature).bind fun result => ?_
    split
    · exact .done
    · exact .stop True.intro

theorem vector_reports : (e : VectorExpr) → (ev.vector user e).Reports user
  | .literal x y z => (scalar_reports x).bind fun _ => (scalar_reports y).bind fun _ =>
    (scalar_reports z).bind fun _ => .done
  | .symbol name => by
    rw [vector]
    refine (ev.bound_reports user name .vector).bind fun v => ?_
    cases v with
    | vector value => exact .value True.intro fun _ => .done
    | _ => exact .stop True.intro
  | .neg operand => (vector_reports operand).bind fun _ => .done
  | .add left right =>
    (vector_reports left).bind fun _ => (vector_reports right).bind fun _ => .done
  | .sub left right =>
    (vector_reports left).bind fun _ => (vector_reports right).bind fun _ => .done
  | .scale operand factor =>
    (vector_reports operand).bind fun _ => (scalar_reports factor).bind fun _ => .done
  | .divide operand divisor =>
    (vector_reports operand).bind fun _ => (scalar_reports divisor).bind fun _ => .done
  | .cross left right =>
    (vector_reports left).bind fun _ => (vector_reports right).bind fun _ => .done
  | .normalize operand => (vector_reports operand).bind fun v => direction_reports user _ v
  | .point feature name => by
    rw [vector]
    refine (ev.buildReference_reports user feature).bind fun result => ?_
    split
    · exact .done
    · exact .stop True.intro
  | .part datum part => by
    rw [vector]
    refine (datum_reports datum).bind fun value => ?_
    split
    · exact .done
    · exact .stop True.intro

theorem datum_reports : (e : DatumExpr) → (ev.datum user e).Reports user
  | .point location => (vector_reports location).bind fun _ => .done
  | .axis origin along => (vector_reports origin).bind fun _ =>
    (vector_reports along).bind fun d => (direction_reports user _ d).bind fun _ => .done
  | .plane origin normal => (vector_reports origin).bind fun _ =>
    (vector_reports normal).bind fun n => (direction_reports user _ n).bind fun _ => .done
  | .symbol name => by
    rw [datum]
    refine (ev.bound_reports user name .datum).bind fun v => ?_
    cases v with
    | datum value => exact .value True.intro fun _ => .done
    | _ => exact .stop True.intro

end

theorem combine_reports (op : IdSet → IdSet → IdSet) (left right : Selection) :
    (combine op left right).Reports user := by
  unfold combine
  split
  · exact .done
  · exact .stop True.intro

theorem selection_reports (e : SelectionExpr) : (ev.selection user e).Reports user := by
  cases e with
  | query kind feature filter =>
    rw [selection, query]
    refine (ev.resolve_reports user feature).bind fun r => ?_
    refine (buildBelow_reports user r.root r.path).bind fun shape => ?_
    split
    · exact .done
    · exact .stop True.intro
  | union left right =>
    exact (selection_reports left).bind fun s =>
      (selection_reports right).bind fun t => combine_reports user _ s t
  | difference left right =>
    exact (selection_reports left).bind fun s =>
      (selection_reports right).bind fun t => combine_reports user _ s t
  | symbol name =>
    rw [selection]
    refine (ev.bound_reports user name .selection).bind fun v => ?_
    cases v with
    | selection value => exact .value True.intro fun _ => .done
    | _ => exact .stop True.intro

theorem argument_reports (a : Argument) : (ev.argument user a).Reports user := by
  unfold argument
  cases a with
  | scalar value => exact (ev.scalar_reports user value).bind fun _ => .done
  | vector value => exact (ev.vector_reports user value).bind fun _ => .done
  | datum value => exact (ev.datum_reports user value).bind fun _ => .done
  | keyword word => exact .done
  | feature value => exact (ev.resolve_reports user value).bind fun _ => .done
  | selection value => exact (ev.selection_reports user value).bind fun _ => .done

theorem arguments_reports (f : Feature) : (ev.arguments f).Reports (some f.label) := by
  have hlist : ∀ as : List Argument,
      (ev.argumentList (some f.label) as).Reports (some f.label) := by
    intro as
    induction as with
    | nil => exact .done
    | cons a rest ih =>
      exact (ev.argument_reports _ a).bind fun _ => ih.bind fun _ => .done
  exact hlist f.arguments

theorem inputs_reports (args : List ResolvedArgument) : (inputs user args).Reports user := by
  induction args with
  | nil => exact .done
  | cons a rest ih =>
    refine Plan.Reports.bind ?_ fun _ => ih.bind fun _ => .done
    cases a with
    | feature value =>
      exact (buildBelow_reports user value.root value.path).bind fun _ => .done
    | _ => exact .done

/-- The plan for a value reports the errors of constructions to whom it is evaluated for. -/
theorem value_reports {d : Demand} (h : d.IsValue) : (ev.plan d).Reports d.user? := by
  cases d with
  | scalar user value => exact ev.scalar_reports user value
  | vector user value => exact ev.vector_reports user value
  | datum user value => exact ev.datum_reports user value
  | selection user value => exact ev.selection_reports user value
  | hash f => exact h.elim
  | build f => exact h.elim

end Evaluation

/-! ## How constructions fail -/

namespace Model

/-- The error of what asks for the items on behalf of `user`: a plain one, or the error of a
construction that they mention, reported once. `P` says with which errors constructions have
failed. -/
def Stems (M : Model) (P : Feature → BuildError → Prop) (user : Option String)
    (items : List Item) (e : BuildError) : Prop :=
  e.Plain ∨ ∃ g source, M.Reaches items g ∧ P g source ∧ e = source.asInput user

/-- The error of a construction: a plain one, its refusal by the backend, or the error of a
construction that its arguments mention, reported once. -/
inductive Chained (M : Model) (P : Feature → BuildError → Prop) (f : Feature) :
    BuildError → Prop where
  | plain {e} : e.Plain → Chained M P f e
  | refused (source : BackendError) : Chained M P f (.backend f.label source)
  | input {g source} : M.DependsOn f g → P g source →
      Chained M P f (.failedInput f.label source)

variable {M M' : Model} {P P' : Feature → BuildError → Prop} {user : Option String}
  {items more : List Item} {e : BuildError} {f : Feature}

theorem Stems.mono (h : M.Stems P user items e)
    (hreaches : ∀ g, M.Reaches items g → M.Reaches more g) : M.Stems P user more e := by
  rcases h with he | ⟨g, source, hg, hsource, heq⟩
  · exact .inl he
  · exact .inr ⟨g, source, hreaches g hg, hsource, heq⟩

/-- What asks on behalf of a construction, and for what its arguments mention. -/
theorem Stems.chained (h : M.Stems P (some f.label) items e)
    (hdepends : ∀ g, M.Reaches items g → M.DependsOn f g) : M.Chained P f e := by
  rcases h with he | ⟨g, source, hg, hsource, rfl⟩
  · exact .plain he
  · exact .input (hdepends g hg) hsource

theorem Chained.mono (h : M.Chained P f e) (hM : M'.Extends M)
    (hP : ∀ g source, P g source → P' g source) : M'.Chained P' f e := by
  cases h with
  | plain he => exact .plain he
  | refused source => exact .refused source
  | input hdepends hsource => exact .input (hdepends.extends hM) (hP _ _ hsource)

/-- An error went through the constructions in `chain`, of which each depends on the next, and
came from `last`. -/
structure Passes (M : Model) (f : Feature) (e : BuildError) (chain : List Feature)
    (last : Feature) : Prop where
  starts : (chain ++ [last]).head? = some f
  depends : (chain ++ [last]).IsChain M.DependsOn
  path : e.path = chain.map Feature.label
  refused : ∀ label source, e.rootCause = .backend label source → label = last.label

/-- An error of a construction itself. -/
theorem Chained.passes (h : M.Chained P f e) (hown : e.path = [] ∧ e.rootCause = e) :
    M.Passes f e [] f := by
  refine ⟨rfl, .singleton _, hown.1, fun label source heq => ?_⟩
  rw [hown.2] at heq
  subst heq
  cases h with
  | plain he => exact he.elim
  | refused _ => rfl

/-- An error that comes from a construction that another depends on. -/
theorem Passes.cons {g last : Feature} {chain : List Feature} {source : BuildError}
    (h : M.Passes g source chain last) (hdepends : M.DependsOn f g) :
    M.Passes f (.failedInput f.label source) (f :: chain) last := by
  refine ⟨rfl, h.depends.cons fun k hk => ?_, congrArg (f.label :: ·) h.path, h.refused⟩
  obtain rfl := Option.some.inj (h.starts.symm.trans hk)
  exact hdepends

/-- Where every error is that of a chain, every error has a path that it passed. -/
theorem exists_passes (hP : ∀ g source, P g source → M.Chained P g source) (h : P f e) :
    ∃ chain last, M.Passes f e chain last ∧ P last e.rootCause := by
  induction e generalizing f with
  | failedInput label source ih =>
    cases hP f _ h with
    | plain he => exact he.elim
    | input hdepends hsource =>
      obtain ⟨chain, last, hpasses, hlast⟩ := ih hsource
      exact ⟨f :: chain, last, hpasses.cons hdepends, hlast⟩
  | _ => exact ⟨[], f, (hP f _ h).passes ⟨rfl, rfl⟩, h⟩

end Model

/-- A value that is demanded for an item is evaluated for the same user, and mentions nothing
that the item does not. -/
theorem Item.Makes.value {M : Model} {user : Option String} {item : Item} {d : Demand}
    (hm : item.Makes M user d) (hv : d.IsValue) :
    d.user? = user ∧ ∀ g, M.Reaches d.items g → M.Reaches [item] g := by
  refine ⟨?_, fun g hg => hm.leads ?_⟩
  · cases hm with
    | identity _ => exact hv.elim
    | result _ => exact hv.elim
    | _ => rfl
  · cases d with
    | hash _ => exact hv.elim
    | build _ => exact hv.elim
    | _ => exact hg

namespace Evaluation

variable {ev : Evaluation} {P : Feature → BuildError → Prop} {C : Call → Prop} {n : Nat}

/-- `P` holds of the errors with which the constructions that a demand enters fail, and the
errors of values stem from there. -/
def Blames (ev : Evaluation) (P : Feature → BuildError → Prop) (d : Demand) (e : BuildError) :
    Prop :=
  (∀ g, d.Enters g → P g e) ∧ (d.IsValue → ev.model.Stems P d.user? d.items e)

theorem run_stems {user : Option String} {α : Type} {known : List StructuralHash}
    {items : List Item} {p : Plan α} (hp : p.Walks ev.model user known items)
    (hreports : p.Reports user) {s s' : BuildState}
    (hcalls : ∀ d t e, p.Calls (ev.answer n) s d t →
      (ev.answer n d t).1 = .error (.failed e) → ev.Blames P d e)
    {e : BuildError} (hr : p.run (ev.answer n) s = (.error (.failed e), s')) :
    ev.model.Stems P user items e := by
  induction hp generalizing s with
  | done => cases hr
  | stop _ =>
    obtain ⟨heq, -⟩ := Prod.mk.inj hr
    cases heq
    cases hreports with
    | stop he => exact .inl he
  | @demand known item items d reported next hm _ ih =>
    have hfirst := hcalls d s
    rw [Plan.run_demand] at hr
    rcases hx : ev.answer n d s with ⟨halt | x, s1⟩
    · rw [hx] at hr hfirst
      obtain ⟨heq, -⟩ := Prod.mk.inj hr
      obtain ⟨e', rfl, rfl⟩ := Halt.within_failed (Except.error.inj heq)
      obtain ⟨hentered, hvalue⟩ := hfirst e' .here rfl
      cases hreports with
      | value hv _ =>
        obtain ⟨huser, hreaches⟩ := hm.value hv
        have hstems := (hvalue hv).mono hreaches
        rw [huser] at hstems
        exact hstems.mono fun g hg => Model.Reaches.cons_iff.mpr (.inl hg)
      | @enter _ g _ hg _ =>
        refine .inr ⟨g, e', Model.Reaches.cons_iff.mpr (.inl (hm.leads ?_)), hentered g hg, rfl⟩
        rcases hg with rfl | rfl <;> rfl
    · rw [hx] at hr
      have hnext : (next x).Reports user := by
        cases hreports with
        | value _ h => exact h x
        | enter _ h => exact h x
      have hstems := ih x hnext (fun d' t e' hcall => hcalls d' t e' (.later hx hcall)) hr
      exact hstems.mono fun g hg => Model.Reaches.cons_iff.mpr (.inr hg)
  | @identify known items d next _ _ ih =>
    cases hreports with
    | identify hnext =>
      exact ih d.hash (hnext _) (fun d' t e' hcall => hcalls d' t e' (.identify hcall)) hr

theorem chained_outcomeOf {f : Feature} {answer : BuildAnswer} {e : BuildError}
    (h : outcomeOf f answer = .error (.failed e)) : ev.model.Chained P f e := by
  cases answer with
  | ok result => cases h
  | error source =>
    cases h
    exact .refused source

section Complete

variable (hC : ev.Complete C)
  (hP : ∀ c g e, C c → c.demand.Enters g → (ev.outcome c).1 = .error (.failed e) → P g e)
include hC hP

/-- Every call fails with an error that stems from there. -/
theorem blames_at (n : Nat) (d : Demand) (s : BuildState) (hs : C ⟨n, d, s⟩) (e : BuildError)
    (he : (ev.answer n d s).1 = .error (.failed e)) : ev.Blames P d e := by
  refine ⟨fun g hg => hP ⟨n, d, s⟩ g e hs hg he, fun hv => ?_⟩
  induction n generalizing d s e with
  | zero => cases he
  | succ n ih =>
    rw [ev.answer_value hv] at he
    refine run_stems (ev.value_walks hv) (ev.value_reports hv) (fun d' t e' hcall he' => ?_)
      (Prod.ext he rfl)
    have hd' := hC _ _ hs (.mk (.value hv hcall))
    exact ⟨fun g hg => hP ⟨n, d', t⟩ g e' hd' hg he', fun hv' => ih d' t hd' e' he' hv'⟩

/-- What a call fails with when it asks for items on behalf of a construction. -/
theorem calls_stem {user : Option String} {α : Type} {known : List StructuralHash}
    {items : List Item} {p : Plan α} (hp : p.Walks ev.model user known items)
    (hreports : p.Reports user) {s s' : BuildState}
    (hcalls : ∀ d t, p.Calls (ev.answer n) s d t → C ⟨n, d, t⟩) {e : BuildError}
    (hr : p.run (ev.answer n) s = (.error (.failed e), s')) : ev.model.Stems P user items e :=
  run_stems hp hreports (fun d t e' hcall => blames_at hC hP n d t (hcalls d t hcall) e') hr

theorem Fingerprints.chained {f : Feature} {s s' : BuildState} (hbegins : Begins C n f s)
    {e : BuildError} (h : Fingerprints ev (ev.answer n) f s (.error (.failed e)) s') :
    ev.model.Chained P f e := by
  cases h with
  | entered _ => exact .plain True.intro
  | stopped hidle hr =>
    exact (calls_stem hC hP (ev.arguments_walks [] f) (ev.arguments_reports f)
      (fun _ _ => hbegins.calls hC hidle) hr).chained fun _ => id

theorem Identifies.chained {f : Feature} {s s' : BuildState} (hs : C ⟨n + 1, .hash f, s⟩)
    {e : BuildError} (h : Identifies ev (ev.answer n) f s (.error (.failed e)) s') :
    ev.model.Chained P f e := by
  cases h with
  | halted hh hp => exact hp.chained hC hP (.identity hs hh)

theorem Builds.chained {f : Feature} {s s' : BuildState} (hs : C ⟨n + 1, .build f, s⟩)
    {e : BuildError} (h : Builds ev (ev.answer n) f s (.error (.failed e)) s') :
    (s.feature f).progress = .failed e ∨ ev.model.Chained P f e := by
  cases h with
  | failed hp => exact .inl hp
  | entered _ => exact .inr (.plain True.intro)
  | anew hp hb =>
    right
    generalize ho : (Except.error (Halt.failed e) : Except Halt BuildResult) = o at hb
    cases hb with
    | unidentified hprints =>
      cases ho
      exact hprints.chained hC hP (.build hs hp)
    | recalled _ _ _ => exact chained_outcomeOf ho.symm
    | @starved h args u _ _ hprints hmiss hrun =>
      cases ho
      obtain ⟨-, -, _, harguments, -⟩ := hprints.of_ok
      exact (calls_stem hC hP (inputs_walks ev (some f.label) args []) (inputs_reports _ args)
        (fun d t hcall => hC _ _ hs (.mk (.input hp hprints hmiss hcall))) hrun).chained fun _ =>
          inputItems_depend harguments
    | invoked _ _ _ _ => exact chained_outcomeOf ho.symm

/-- Every failure that is remembered is the error of a chain. -/
def Traced (ev : Evaluation) (fs : List Feature) (P : Feature → BuildError → Prop)
    (s : BuildState) : Prop :=
  ∀ f ∈ fs, ∀ e, (s.feature f).progress = .failed e → ev.model.Chained P f e

theorem Deed.traced {fs : List Feature} (hfs : Closed ev.model fs)
    (hwithin : ∀ c, C c → c.demand.constructions ⊆ fs) {s t : BuildState}
    (h : ev.Deed C s t) (hs : ev.Traced fs P s) : ev.Traced fs P t := by
  -- A build that has ended is remembered as its construction failed.
  have hsettle : ∀ {n f u t} {o : Except Halt BuildResult}, C ⟨n, .build f, u⟩ →
      ev.Traced fs P t → (∀ e, o = .error (.failed e) → ev.model.Chained P f e) →
      ev.Traced fs P (t.setProgress f (progressAfter o)) := by
    intro n f u t o hc ht ho g hg e he
    rw [BuildState.progress_setProgress] at he
    split at he
    · next hfg =>
      obtain rfl := hfs.unique f (hwithin _ hc f.mem_constructions) g hg hfg
      exact ho e (progressAfter_failed he).1
    · exact ht g hg e he
  cases h with
  | describe _ => exact hs
  | hashing f b => exact fun g hg e he => hs g hg e (by rwa [BuildState.progress_setHashing] at he)
  | identify _ _ _ =>
    exact fun g hg e he => hs g hg e (by rwa [BuildState.progress_identified] at he)
  | missed _ => exact fun g hg e he => hs g hg e (by rwa [BuildState.feature_missed] at he)
  | begin f =>
    intro g hg e he
    rw [BuildState.progress_setProgress] at he
    split at he
    · cases he
    · exact hs g hg e he
  | @fail n f u halt _ hc hp ho =>
    refine hsettle hc hs fun e he => ?_
    cases he
    have hcases := buildOver_cases ev (ev.answer n) f u
    rw [show (ev.buildOver (ev.answer n) f u).1 = .error (.failed e) from ho] at hcases
    rcases hcases.chained hC hP hc with he | he
    · cases hp.symm.trans he
    · exact he
  | cached hc _ _ => exact hsettle (t := s.hit) hc hs fun e => chained_outcomeOf
  | invoke hc _ => exact hsettle hc (fun g hg e he => hs g hg e he) fun e => chained_outcomeOf

/-- A call for the identity or the result of a construction fails with the error of a chain, if
what is remembered then is of this kind. -/
theorem call_chained {c : Call} (hc : C c) {fs : List Feature} (hs : ev.Traced fs P c.state)
    {f : Feature} (hf : f ∈ fs) (hentered : c.demand.Enters f) {e : BuildError}
    (he : (ev.outcome c).1 = .error (.failed e)) : ev.model.Chained P f e := by
  obtain ⟨n, d, s⟩ := c
  cases n with
  | zero => cases he
  | succ n =>
    rcases hentered with hd | hd <;> obtain rfl : d = _ := hd
    · have hcases := hashOver_cases ev (ev.answer n) f s
      rw [show (ev.hashOver (ev.answer n) f s).1 = .error (.failed e) from he] at hcases
      exact hcases.chained hC hP hc
    · have hcases := buildOver_cases ev (ev.answer n) f s
      rw [show (ev.buildOver (ev.answer n) f s).1 = .error (.failed e) from he] at hcases
      rcases hcases.chained hC hP hc with hp | he
      · exact hs f hf e hp
      · exact he

end Complete

end Evaluation

/-! ## Failures in sessions -/

namespace Workbench

variable {registries : Nat → Registry} {backend : Backend} {scope : CacheScope}
  {b b' : Workbench} {id : Nat} {f : Feature} {e : BuildError}

/-- Before the workbench was come to, identifying or building a construction of the session has
ended with the error: for a query, or for a call that was made meanwhile. -/
inductive Returned (registries : Nat → Registry) (backend : Backend) (scope : CacheScope)
    (b : Workbench) (id : Nat) (f : Feature) (e : BuildError) : Prop where
  | call {b₀ q c} : Reachable registries backend scope b₀ →
      q.constructions ⊆ b₀.constructions id → b₀.Calls id q c → c.demand.Enters f →
      ((b₀.shop.evaluation id).outcome c).1 = .error (.failed e) →
      ReflTransGen (Step registries) (b₀.ask id q).2 b → Returned registries backend scope b id f e

theorem Returned.later (h : Returned registries backend scope b id f e)
    (hrun : ReflTransGen (Step registries) b b') : Returned registries backend scope b' id f e := by
  cases h with
  | call hb hq hc hf he hbefore => exact .call hb hq hc hf he (hbefore.trans hrun)

/-- Asking for the identity or the result of a construction returns how that ends. -/
theorem returned_ask (hb : Reachable registries backend scope b) (hf : f ∈ b.constructions id) :
    (∀ e, (b.ask id (.identity f)).1 = .error (.failed e) →
      Returned registries backend scope (b.ask id (.identity f)).2 id f e) ∧
    ∀ e, (b.ask id (.result f)).1 = .error (.failed e) →
      Returned registries backend scope (b.ask id (.result f)).2 id f e := by
  have hown := (hb.kept.sessions id).closed.constructions hf
  have hanswer : ∀ d : Demand, (b.shop.evaluation id).outcome
      ⟨(b.shop.evaluation id).depth (b.made id).length, d, b.shop.state id⟩ =
        (Plan.demand d none .done).run ((b.shop.evaluation id).answers (b.made id).length)
          (b.shop.state id) := fun d => (Plan.run_own _ d _).symm
  refine ⟨fun e he => ?_, fun e he => ?_⟩
  · refine .call (q := .identity f) hb hown (.ask .here) (.inl rfl) ?_ .refl
    rw [hanswer]
    exact he
  · refine .call (q := .result f) hb hown (.ask .here) (.inr rfl) ?_ .refl
    rw [hanswer]
    exact he

/-- What was remembered as a failure is the error of a chain, at every workbench. -/
theorem Reachable.traced (h : Reachable registries backend scope b) {fs : List Feature}
    (hfs : Closed (b.shop.session id).model fs) (hsub : b.constructions id ⊆ fs) :
    (b.shop.evaluation id).Traced fs (Returned registries backend scope b id)
      (b.shop.state id) := by
  induction h generalizing fs with
  | refl => exact fun f _ e he => by cases he
  | @tail b b' hreachable hstep ih =>
    have hkept := Reachable.kept hreachable
    have hlater := (Event.step hstep).later hkept id
    have hbefore := ih (hfs.of_continues hlater.model)
      (List.Subset.trans hlater.constructions hsub)
    have hreturned : ∀ g source, Returned registries backend scope b id g source →
        Returned registries backend scope b' id g source := fun _ _ h => h.later (.single hstep)
    rcases hstep.views hkept id with ⟨q, hq, rfl⟩ | hstands
    · have hwithin := fun c (hc : b.Calls id q c) =>
        List.Subset.trans (hc.within (hkept.sessions id) hq)
          (List.Subset.trans hlater.constructions hsub)
      have hfs' := hfs.of_continues hlater.model
      have hstart : (b.shop.evaluation id).Traced fs
          (Returned registries backend scope (b.ask id q).2 id) (b.shop.state id) :=
        fun f hf e he => (hbefore f hf e he).mono (.refl _) hreturned
      have hkeep := (kept_ask (fun s t => Evaluation.Deed.traced (b.calls_complete id q)
        (fun c g e hc hg he => .call hreachable hq hc hg he .refl) hfs' hwithin) hstart).1
      rw [state_ask, evaluation_ask]
      exact hkeep
    · -- A session that is not asked remembers the same failures.
      intro f hf e he
      rw [hstands.feature] at he
      exact (hbefore f hf e he).mono hlater.model.toExtends hreturned

/-- Every error that is returned is the error of a chain. -/
theorem Returned.chained (h : Returned registries backend scope b id f e) :
    (b.shop.session id).model.Chained (Returned registries backend scope b id) f e := by
  cases h with
  | @call b₀ q c hb hq hc hf he hrun =>
    have hkept := hb.kept
    have hkeeps := hkept.sessions id
    have hfs := hkeeps.closed
    have hwithin := fun c (hc : b₀.Calls id q c) => hc.within hkeeps hq
    have hreturned : ∀ c g e, b₀.Calls id q c → c.demand.Enters g →
        ((b₀.shop.evaluation id).outcome c).1 = .error (.failed e) →
        Returned registries backend scope b id g e :=
      fun c g e hc hg he => .call hb hq hc hg he hrun
    have hlater : Later b₀ b id := by
      have hevents : ReflTransGen (Event registries) b₀ b :=
        .head (.step (.works (.ask hq))) (ReflTransGen.mono (fun _ _ => Event.step) _ _ hrun)
      exact (hkept.later hevents id).2
    have hstart : (b₀.shop.evaluation id).Traced (b₀.constructions id)
        (Returned registries backend scope b id) (b₀.shop.state id) := fun g hg e he =>
      (hb.traced hfs (List.Subset.refl _) g hg e he).mono (.refl _) fun _ _ h =>
        (h.later (.single (.works (.ask hq)))).later hrun
    have htraced := (kept_ask (fun s t => Evaluation.Deed.traced (b₀.calls_complete id q)
      hreturned hfs hwithin) hstart).2 c hc
    have hmem : f ∈ c.demand.constructions := by
      rcases hf with hd | hd <;> rw [hd] <;> exact f.mem_constructions
    exact (Evaluation.call_chained (b₀.calls_complete id q) hreturned hc htraced
      (hwithin c hc hmem) hf he).mono hlater.model.toExtends fun _ _ h => h

/-- Every error that identifying or building a construction has ended with, whether it was
computed, remembered or answered from a cache, is one of its own, which names the construction
if it is a refusal of the backend, or the error that was returned for a construction which its
arguments read, wrapped once under its own label. So its path lists the labels along
dependencies from the construction on, and leads to the one that its root cause was returned
for. -/
theorem error_chains (h : Returned registries backend scope b id f e) :
    (((∀ label source, e ≠ .failedInput label source) ∧
        ∀ label source, e = .backend label source → label = f.label) ∨
      ∃ g source, e = .failedInput f.label source ∧
        (b.shop.session id).model.DependsOn f g ∧
        Returned registries backend scope b id g source) ∧
    ∃ chain last, (b.shop.session id).model.Passes f e chain last ∧
      Returned registries backend scope b id last e.rootCause := by
  refine ⟨?_, Model.exists_passes (fun _ _ => Returned.chained) h⟩
  cases h.chained with
  | plain he =>
    refine .inl ⟨?_, ?_⟩ <;> rintro label source rfl <;> exact he.elim
  | refused source =>
    refine .inl ⟨nofun, ?_⟩
    rintro _ _ ⟨⟩
    rfl
  | input hdepends hsource => exact .inr ⟨_, _, rfl, hdepends, hsource⟩

/-- A compound of a compound of a sphere that the backend refuses. -/
def refused : Workbench :=
  (create Catalog.registry (Symbolic.backend ["Sphere"]) .session).load Catalog.registry 0 (.script
    "s = Sphere([0, 0, 0], 1); c = Compound(s); w = Compound(c);")

/-- What building each construction ends with, by their labels: the path of the error and its
root cause. -/
def failures (b : Workbench) (id : Nat) : List (String × Option (List String × BuildError)) :=
  (b.constructions id).map fun f => (f.label,
    match (b.ask id (.result f)).1 with
    | .error (.failed e) => some (e.path, e.rootCause)
    | _ => none)

theorem exists_of_failures (b : Workbench) (id : Nat) {label : String} {path : List String}
    {cause : BuildError} (h : (label, some (path, cause)) ∈ b.failures id) :
    ∃ f ∈ b.constructions id, f.label = label ∧ ∃ e,
      (b.ask id (.result f)).1 = .error (.failed e) ∧ e.path = path ∧ e.rootCause = cause := by
  obtain ⟨f, hf, heq⟩ := List.mem_map.mp h
  obtain ⟨hlabel, hfailed⟩ := Prod.mk.inj heq
  split at hfailed
  · next e he =>
    obtain ⟨hpath, hcause⟩ := Prod.mk.inj (Option.some.inj hfailed)
    exact ⟨f, hf, hlabel, e, he, hpath, hcause⟩
  · cases hfailed

set_option maxRecDepth 100000 in
theorem error_chains_refused : ∃ f ∈ refused.constructions 0, ∃ e,
    Returned (fun _ => Catalog.registry) (Symbolic.backend ["Sphere"]) .session
      (refused.ask 0 (.result f)).2 0 f e ∧
    e.path = ["w", "c"] ∧
    ∃ chain last, ((refused.ask 0 (.result f)).2.shop.session 0).model.Passes f e chain last ∧
      chain.map Feature.label = ["w", "c"] ∧ last.label = "s" := by
  have hreachable : Reachable (fun _ => Catalog.registry) (Symbolic.backend ["Sphere"]) .session
      refused := .single (.works (.load 0 _))
  have hfailures : ("w", some (["w", "c"], BuildError.backend "s"
      (.operationFailed "Sphere 's' rejected by backend"))) ∈ refused.failures 0 := by
    decide +kernel
  obtain ⟨f, hf, -, e, he, hpath, hcause⟩ := refused.exists_of_failures 0 hfailures
  have hreturned := (returned_ask hreachable hf).2 e he
  obtain ⟨-, chain, last, hpasses, -⟩ := error_chains hreturned
  exact ⟨f, hf, e, hreturned, hpath, chain, last, hpasses, hpasses.path.symm.trans hpath,
    (hpasses.refused _ _ hcause).symm⟩

end Workbench

end PartScript
