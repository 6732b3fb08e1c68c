/-
  What demands mean when nothing is remembered. Meaning is computed to a depth, and what has
  a meaning at one depth has it at every greater depth; circular dependencies are what has no
  meaning at any depth. Binding more names changes no meaning, except where a name was not
  bound.
-/
import PartScript.Proofs.Resolution
import PartScript.Proofs.Engine

namespace PartScript

/-! ## Plans over meanings -/

/-- The meanings of demands: values, or kinds of causes. -/
abbrev Meanings := (d : Demand) → Option (Except Cause d.Answer)

namespace Plan

variable {α β : Type}

/-- The value of a plan over meanings. It has none where a circular dependency is met. -/
def eval (m : Meanings) : Plan α → Option (Except Cause α)
  | done a => some (.ok a)
  | stop e => if e.cause = .circular then none else some (.error e.cause)
  | demand d _ next =>
    match m d with
    | none => none
    | some (.ok a) => (next a).eval m
    | some (.error cause) => some (.error cause)
  | identify d next => (next d.hash).eval m

theorem eval_bind (m : Meanings) (p : Plan α) (f : α → Plan β) :
    (p >>= f).eval m =
      match p.eval m with
      | none => none
      | some (.ok a) => (f a).eval m
      | some (.error cause) => some (.error cause) := by
  induction p with
  | done a => rfl
  | stop e =>
    rw [stop_bind, eval, eval]
    split <;> rfl
  | demand d user next ih =>
    rw [demand_bind, eval, eval]
    cases m d with
    | none => rfl
    | some x =>
      cases x with
      | error cause => rfl
      | ok a => exact ih a
  | identify d next ih => exact ih d.hash

/-- A plan keeps its value when more demands have meanings. -/
theorem eval_mono {m m' : Meanings} (hm : ∀ d x, m d = some x → m' d = some x) {p : Plan α}
    {x : Except Cause α} (h : p.eval m = some x) : p.eval m' = some x := by
  induction p with
  | done a => exact h
  | stop e => exact h
  | demand d user next ih =>
    rw [eval] at h ⊢
    cases hd : m d with
    | none => simp [hd] at h
    | some y =>
      rw [hd] at h
      rw [hm d y hd]
      cases y with
      | error cause => exact h
      | ok a => exact ih a h
  | identify d next ih => exact ih d.hash h

end Plan

namespace Evaluation

/-- The result of a feature from the answer of the backend. -/
def answeredPlan (f : Feature) : BuildAnswer → Plan BuildResult
  | .ok result => .done result
  | .error source => .stop (.backend f.label source)

/-- Identifying a feature without anything remembered. -/
def hashPlan (ev : Evaluation) (f : Feature) : Plan StructuralHash := do
  let args ← ev.arguments f
  Plan.identity (.feature f.typeName args)

/-- Building a feature of a known identity from its evaluated arguments. -/
def buildFrom (ev : Evaluation) (f : Feature) (hash : StructuralHash)
    (args : List ResolvedArgument) : Plan BuildResult := do
  let ins ← inputs (some f.label) args
  answeredPlan f (ev.backend.build (request f hash ins))

/-- Building a feature without anything remembered. -/
def buildPlan (ev : Evaluation) (f : Feature) : Plan BuildResult := do
  let args ← ev.arguments f
  let hash ← Plan.identity (.feature f.typeName args)
  ev.buildFrom f hash args

/-- What a demand comes to without anything remembered. -/
def plan (ev : Evaluation) : (d : Demand) → Plan d.Answer
  | .scalar user value => ev.scalar user value
  | .vector user value => ev.vector user value
  | .datum user value => ev.datum user value
  | .selection user value => ev.selection user value
  | .hash f => ev.hashPlan f
  | .build f => ev.buildPlan f

/-- The meaning of demands to a depth. -/
def meaning (ev : Evaluation) : Nat → Meanings
  | 0, _ => none
  | n + 1, d => (ev.plan d).eval (meaning ev n)

theorem meaning_succ_mono (ev : Evaluation) (n : Nat) (d : Demand) (x : Except Cause d.Answer)
    (h : ev.meaning n d = some x) : ev.meaning (n + 1) d = some x := by
  induction n generalizing d with
  | zero => cases h
  | succ n ih => exact Plan.eval_mono ih h

theorem meaning_mono (ev : Evaluation) {n m : Nat} (hnm : n ≤ m) (d : Demand)
    (x : Except Cause d.Answer) (h : ev.meaning n d = some x) : ev.meaning m d = some x := by
  induction hnm with
  | refl => exact h
  | step _ ih => exact ev.meaning_succ_mono _ d x ih

end Evaluation

namespace Plan

variable {α β : Type} (ev : Evaluation)

/-- A plan has a value. -/
def Settles (p : Plan α) (x : Except Cause α) : Prop := ∃ n, p.eval (ev.meaning n) = some x

/-- A plan has no value at any depth. -/
def Loops (p : Plan α) : Prop := ∀ n, p.eval (ev.meaning n) = none

variable {ev}

theorem eval_le {p : Plan α} {n m : Nat} (hnm : n ≤ m) {x : Except Cause α}
    (h : p.eval (ev.meaning n) = some x) : p.eval (ev.meaning m) = some x :=
  eval_mono (ev.meaning_mono hnm) h

theorem Settles.unique {p : Plan α} {x y : Except Cause α} (hx : p.Settles ev x)
    (hy : p.Settles ev y) : x = y := by
  obtain ⟨n, hn⟩ := hx
  obtain ⟨m, hm⟩ := hy
  have h := eval_le (Nat.le_max_left n m) hn
  rw [eval_le (Nat.le_max_right n m) hm] at h
  exact (Option.some.inj h).symm

theorem Settles.not_loops {p : Plan α} {x : Except Cause α} (hx : p.Settles ev x) :
    ¬ p.Loops ev := by
  intro hl
  obtain ⟨n, hn⟩ := hx
  rw [hl n] at hn
  cases hn

/-- A depth at which a plan has a value gives the value that it settles on. -/
theorem Settles.eval_eq {p : Plan α} {x : Except Cause α} (hx : p.Settles ev x) {n : Nat}
    (hn : p.eval (ev.meaning n) ≠ none) : p.eval (ev.meaning n) = some x := by
  obtain ⟨y, hy⟩ := Option.ne_none_iff_exists'.mp hn
  rw [hy, Settles.unique hx ⟨n, hy⟩]

theorem Settles.bind {p : Plan α} {f : α → Plan β} {a : α} {y : Except Cause β}
    (hp : p.Settles ev (.ok a)) (hf : (f a).Settles ev y) : (p >>= f).Settles ev y := by
  obtain ⟨n, hn⟩ := hp
  obtain ⟨m, hm⟩ := hf
  refine ⟨max n m, ?_⟩
  rw [eval_bind, eval_le (Nat.le_max_left n m) hn]
  exact eval_le (Nat.le_max_right n m) hm

theorem Settles.bind_error {p : Plan α} {f : α → Plan β} {cause : Cause}
    (hp : p.Settles ev (.error cause)) : (p >>= f).Settles ev (.error cause) := by
  obtain ⟨n, hn⟩ := hp
  refine ⟨n, ?_⟩
  rw [eval_bind, hn]

theorem Loops.bind {p : Plan α} {f : α → Plan β} (hp : p.Loops ev) : (p >>= f).Loops ev := by
  intro n
  rw [eval_bind, hp n]

theorem Settles.bind_loops {p : Plan α} {f : α → Plan β} {a : α} (hp : p.Settles ev (.ok a))
    (hf : (f a).Loops ev) : (p >>= f).Loops ev := by
  intro n
  rw [eval_bind]
  cases hn : p.eval (ev.meaning n) with
  | none => rfl
  | some x =>
    obtain rfl := Settles.unique ⟨n, hn⟩ hp
    exact hf n

/-- An outcome is what a plan means: its value, the kind of its cause, or a circular
dependency where it has no value. Nothing is said where the evaluation was cut off. -/
def Meets (ev : Evaluation) (R : α → α → Prop) (p : Plan α) : Except Halt α → Prop
  | .ok a => ∃ a', p.Settles ev (.ok a') ∧ R a a'
  | .error (.failed e) =>
    if e.cause = .circular then p.Loops ev else p.Settles ev (.error e.cause)
  | .error .exhausted => True

theorem Meets.failed_congr {R : α → α → Prop} {S : β → β → Prop} {p : Plan α} {q : Plan β}
    {e e' : BuildError} (hcause : e.cause = e'.cause)
    (hloops : p.Loops ev → q.Loops ev)
    (hsettles : p.Settles ev (.error e.cause) → q.Settles ev (.error e.cause))
    (h : p.Meets ev R (.error (.failed e))) : q.Meets ev S (.error (.failed e')) := by
  simp only [Meets] at h ⊢
  rw [← hcause]
  split at h
  · next hc => rw [if_pos hc]; exact hloops h
  · next hc => rw [if_neg hc]; exact hsettles h

/-- An error in the first of two plans is one of both. -/
theorem Meets.bind_error {R : α → α → Prop} {S : β → β → Prop} {p : Plan α} {f : α → Plan β}
    {h : Halt} (hp : p.Meets ev R (.error h)) : (p >>= f).Meets ev S (.error h) := by
  cases h with
  | exhausted => exact True.intro
  | failed e => exact hp.failed_congr rfl Loops.bind Settles.bind_error

theorem Meets.bind {S : β → β → Prop} {p : Plan α} {f : α → Plan β} {a : α}
    {o : Except Halt β} (hp : p.Settles ev (.ok a)) (hf : (f a).Meets ev S o) :
    (p >>= f).Meets ev S o := by
  cases o with
  | ok b =>
    obtain ⟨b', hb, hr⟩ := hf
    exact ⟨b', hp.bind hb, hr⟩
  | error h =>
    cases h with
    | exhausted => exact True.intro
    | failed e => exact hf.failed_congr rfl hp.bind_loops hp.bind

/-- Computing an identity adds nothing to what follows. -/
theorem Meets.identify {R : α → α → Prop} {d : Description} {next : StructuralHash → Plan α}
    {o : Except Halt α} (h : (next d.hash).Meets ev R o) : (Plan.identify d next).Meets ev R o := by
  cases o with
  | ok a => exact h
  | error halt =>
    cases halt with
    | exhausted => exact True.intro
    | failed e =>
      have hloops : (next d.hash).Loops ev → (Plan.identify d next).Loops ev := id
      have hsettles : ∀ x, (next d.hash).Settles ev x → (Plan.identify d next).Settles ev x :=
        fun _ => id
      exact h.failed_congr rfl hloops (hsettles _)

/-- An error is one of an input, too. -/
theorem Meets.within {R : α → α → Prop} {S : β → β → Prop} {p : Plan α} {q : Plan β} {h : Halt}
    (hp : p.Meets ev R (.error h)) (user : Option String)
    (hq : ∀ {h}, p.Meets ev R (.error h) → q.Meets ev S (.error h)) :
    q.Meets ev S (.error (h.within user)) := by
  cases h with
  | exhausted => cases user <;> exact True.intro
  | failed e =>
    have hcause : ∀ e', e'.cause = e.cause → q.Meets ev S (.error (.failed e')) := fun e' he' =>
      (hq hp).failed_congr he'.symm id id
    cases user with
    | none => exact hcause e rfl
    | some label => exact hcause _ rfl

/-- A demand has the values of its plan. -/
theorem settles_demand {d : Demand} {reported : Option String} {next : d.Answer → Plan α}
    {x : Except Cause α} :
    (demand d reported next).Settles ev x ↔ (ev.plan d >>= next).Settles ev x := by
  constructor
  · rintro ⟨n, hn⟩
    cases n with
    | zero => cases hn
    | succ n =>
      refine ⟨n + 1, ?_⟩
      rw [eval] at hn
      rw [eval_bind]
      cases hd : ev.meaning (n + 1) d with
      | none => simp [hd] at hn
      | some y =>
        rw [hd] at hn
        have hplan : (ev.plan d).eval (ev.meaning n) = some y := hd
        rw [eval_le (Nat.le_succ n) hplan]
        cases y <;> exact hn
  · rintro ⟨n, hn⟩
    refine ⟨n + 1, ?_⟩
    rw [eval_bind] at hn
    rw [eval]
    have hd : ev.meaning (n + 1) d = (ev.plan d).eval (ev.meaning n) := rfl
    rw [hd]
    cases hp : (ev.plan d).eval (ev.meaning n) with
    | none => simp [hp] at hn
    | some y =>
      rw [hp] at hn
      cases y with
      | error cause => exact hn
      | ok a => exact eval_le (Nat.le_succ n) hn

theorem loops_iff {p : Plan α} : p.Loops ev ↔ ∀ x, ¬ p.Settles ev x := by
  constructor
  · exact fun hl x hx => hx.not_loops hl
  · intro h n
    cases hn : p.eval (ev.meaning n) with
    | none => rfl
    | some x => exact absurd ⟨n, hn⟩ (h x)

theorem Meets.demand {R : α → α → Prop} {d : Demand} {reported : Option String}
    {next : d.Answer → Plan α} {o : Except Halt α} (h : (ev.plan d >>= next).Meets ev R o) :
    (Plan.demand d reported next).Meets ev R o := by
  have hloops : (ev.plan d >>= next).Loops ev → (Plan.demand d reported next).Loops ev := by
    rw [loops_iff, loops_iff]
    exact fun hl x hx => hl x (settles_demand.mp hx)
  cases o with
  | ok a =>
    obtain ⟨a', ha, hr⟩ := h
    exact ⟨a', settles_demand.mpr ha, hr⟩
  | error halt =>
    cases halt with
    | exhausted => exact True.intro
    | failed e => exact h.failed_congr rfl hloops settles_demand.mpr

end Plan

/-! ## Plans that are alike -/

/-- What two evaluations mean agrees, up to names that only the second finds bound. -/
inductive SameMeaning (lax : Prop) {α : Type} (R : α → α → Prop) :
    Option (Except Cause α) → Option (Except Cause α) → Prop where
  | none : SameMeaning lax R none none
  | ok {a a'} : R a a' → SameMeaning lax R (some (.ok a)) (some (.ok a'))
  | error {cause} : SameMeaning lax R (some (.error cause)) (some (.error cause))
  | unbound {x} : lax → SameMeaning lax R (some (.error .unresolved)) x

/-- Plans that make the same demands, and go on alike after related answers. -/
inductive Plan.Like (c : Pairing) {α : Type} (R : α → α → Prop) : Plan α → Plan α → Prop where
  | done {a a'} : R a a' → Like c R (.done a) (.done a')
  | stop {e e'} : e.cause = e'.cause → Like c R (.stop e) (.stop e')
  | unbound {e p'} : c.lax → e.isDeferred = true → Like c R (.stop e) p'
  | demand {d : Demand} {reported : Option String} {next next'} :
      (∀ a a', d.Related c.B a a' → Like c R (next a) (next' a')) →
      Like c R (.demand d reported next) (.demand d reported next')
  | identify {d d' : Description} {next next'} : d.hash = d'.hash →
      Like c R (next d.hash) (next' d'.hash) → Like c R (.identify d next) (.identify d' next')

namespace Plan

variable {c : Pairing} {α β : Type} {R : α → α → Prop} {S : β → β → Prop}

theorem Matches.like {user : Option String} {known : List StructuralHash} {items : List Item}
    {p p' : Plan α} (h : Matches c user R known items p p') : p.Like c R p' := by
  induction h with
  | done h => exact .done h
  | stop h _ => exact .stop h
  | unbound hl h => exact .unbound hl h
  | demand _ _ _ ih => exact .demand ih
  | identify _ _ ih => exact .identify rfl (ih _)

theorem Like.bind {p p' : Plan α} {f f' : α → Plan β} (h : p.Like c R p')
    (hf : ∀ a a', R a a' → (f a).Like c S (f' a')) : (p >>= f).Like c S (p' >>= f') := by
  induction h with
  | done h => exact hf _ _ h
  | stop h => exact .stop h
  | unbound hl h => exact .unbound hl h
  | demand _ ih => exact .demand ih
  | identify hh _ ih => exact .identify hh ih

/-- Plans that are alike have the same meaning over meanings that agree. -/
theorem Like.eval {p p' : Plan α} (h : p.Like c R p') {m m' : Meanings}
    (hm : ∀ d, SameMeaning c.lax (d.Related c.B) (m d) (m' d)) :
    SameMeaning c.lax R (p.eval m) (p'.eval m') := by
  induction h with
  | done h => exact .ok h
  | @stop e e' h =>
    unfold Plan.eval
    rw [h]
    split
    · exact .none
    · exact .error
  | @unbound e p' hl h =>
    have hcause := e.isDeferred_iff.mp h
    unfold Plan.eval
    rw [hcause]
    exact .unbound hl
  | @demand d reported next next' _ ih =>
    rw [Plan.eval, Plan.eval]
    have hd := hm d
    revert hd
    generalize m d = x, m' d = x'
    intro hd
    cases hd with
    | none => exact .none
    | ok ha => exact ih _ _ ha
    | error => exact .error
    | unbound hl => exact .unbound hl
  | identify _ _ ih => exact ih

end Plan

/-- Two evaluations that keep step up to the answers of their backends. -/
structure Pairing.Complete (c : Pairing) : Prop extends c.Sound where
  build : ∀ (f : Feature) (h : StructuralHash) {ins ins' : List Input},
    List.Forall₂ (Input.Related c.B) ins ins' →
    (Evaluation.answeredPlan f (c.ev.backend.build (Evaluation.request f h ins))).Like c c.B
      (Evaluation.answeredPlan f (c.ev'.backend.build (Evaluation.request f h ins')))

namespace Evaluation

variable {c : Pairing}

/-- The plans for one demand are alike. -/
theorem plan_like (hc : c.Complete) (d : Demand) :
    (c.ev.plan d).Like c (d.Related c.B) (c.ev'.plan d) := by
  have hs := hc.toSound
  cases d with
  | scalar user value => exact (scalar_matches hs user [] value).like
  | vector user value => exact (vector_matches hs user [] value).like
  | datum user value => exact (datum_matches hs user [] value).like
  | selection user value => exact (selection_matches hs user [] value).like
  | hash f =>
    refine (arguments_matches hs f []).like.bind fun args args' hargs => ?_
    have hhash := ResolvedArgument.Related.hash_eq hargs f.typeName
    exact .identify hhash (.done hhash)
  | build f =>
    refine (arguments_matches hs f []).like.bind fun args args' hargs => ?_
    have hhash := ResolvedArgument.Related.hash_eq hargs f.typeName
    refine .identify hhash ?_
    rw [hhash]
    exact (inputs_matches hs _ hargs []).like.bind fun ins ins' hins => hc.build f _ hins

theorem meaning_like (hc : c.Complete) (n : Nat) (d : Demand) :
    SameMeaning c.lax (d.Related c.B) (c.ev.meaning n d) (c.ev'.meaning n d) := by
  induction n generalizing d with
  | zero => exact .none
  | succ n ih => exact (plan_like hc d).eval ih

end Evaluation

namespace Plan

variable {c : Pairing} (hc : c.Complete) {α : Type} {R S T : α → α → Prop} {p p' : Plan α}
include hc

/-- What a plan means for the first evaluation, a like plan means for the second, except
where a name was not bound. -/
theorem Like.meets (h : p.Like c R p') (hT : ∀ a a' a'', S a a' → R a' a'' → T a a'')
    {o : Except Halt α} (ho : p.Meets c.ev S o)
    (hdeferred : c.lax → ∀ e, o = .error (.failed e) → e.isDeferred = false) :
    p'.Meets c.ev' T o := by
  have heval := fun n => h.eval (Evaluation.meaning_like hc n)
  cases o with
  | ok a =>
    obtain ⟨a', ⟨n, hn⟩, ha⟩ := ho
    have hn' := heval n
    rw [hn] at hn'
    generalize hx : p'.eval (c.ev'.meaning n) = x at hn'
    cases hn' with
    | ok hr => exact ⟨_, ⟨n, hx⟩, hT _ _ _ ha hr⟩
  | error halt =>
    cases halt with
    | exhausted => exact True.intro
    | failed e =>
      have hne : c.lax → e.cause ≠ .unresolved := by
        intro hlax hcause
        have hd := e.isDeferred_iff.mpr hcause
        rw [hdeferred hlax e rfl] at hd
        cases hd
      simp only [Meets] at ho ⊢
      split at ho
      · next hcause =>
        rw [if_pos hcause]
        intro n
        have hn' := heval n
        rw [ho n] at hn'
        generalize hx : p'.eval (c.ev'.meaning n) = x at hn'
        cases hn' with
        | none => rfl
      · next hcause =>
        rw [if_neg hcause]
        obtain ⟨n, hn⟩ := ho
        have hn' := heval n
        rw [hn] at hn'
        generalize hx : p'.eval (c.ev'.meaning n) = x at hn'
        generalize e.cause = cause at hn' hne ⊢
        cases hn' with
        | error => exact ⟨n, hx⟩
        | unbound hlax => exact absurd rfl (hne hlax)

end Plan

/-! ## Which evaluations are alike -/

namespace Pairing

/-- One evaluation beside the same over a model that binds more names. -/
def extension (ev : Evaluation) (M : Model) : Pairing := ⟨ev, { ev with model := M }, True, Eq⟩

theorem input_forall₂_eq {ins ins' : List Input}
    (h : List.Forall₂ (Input.Related Eq) ins ins') : ins = ins' := by
  induction h with
  | nil => rfl
  | cons hx _ ih =>
    rw [ih]
    congr 1
    cases hx with
    | shape hr => rw [hr]
    | selection ht => rw [ht.eq]
    | _ => rfl

/-- Over one backend, evaluations go together as long as the second finds the same names, or, if
that is allowed, more of them. -/
theorem complete_of_backend {ev ev' : Evaluation} {lax : Prop} (hbackend : ev'.backend = ev.backend)
    (hnames : ev.model = ev'.model ∨ lax ∧ ev'.model.Extends ev.model) :
    (⟨ev, ev', lax, Eq⟩ : Pairing).Complete where
  congruence := .eq
  select := by
    rintro r _ rfl kind filter
    rw [hbackend]
  names := hnames
  build := by
    intro f h ins ins' hins
    obtain rfl := input_forall₂_eq hins
    rw [hbackend]
    show Plan.Like _ Eq (Evaluation.answeredPlan f (ev.backend.build _))
      (Evaluation.answeredPlan f (ev.backend.build _))
    cases ev.backend.build (Evaluation.request f h ins) with
    | ok r => exact .done rfl
    | error e => exact .stop rfl

theorem extension_complete {ev : Evaluation} {M : Model} (hM : M.Extends ev.model) :
    (extension ev M).Complete := complete_of_backend rfl (.inr ⟨True.intro, hM⟩)

/-- One evaluation beside itself, with results that are alike. -/
def alike (ev : Evaluation) : Pairing := ⟨ev, ev, False, BuildResult.Alike⟩

theorem input_alike {x x' : Input} (h : x.Related BuildResult.Alike x') : x.Alike x' := by
  cases h with
  | scalar value => exact .scalar value
  | vector value => exact .vector value
  | datum value => exact .datum value
  | keyword word => exact .keyword word
  | shape hr => exact .shape hr
  | selection ht => exact .selection ht.kind ht.ids ht.shape

theorem answered_like {c : Pairing} (hB : c.B = BuildResult.Alike) (f g : Feature)
    {answer answer' : BuildAnswer} (h : BuildAnswer.Alike answer answer') :
    (Evaluation.answeredPlan f answer).Like c c.B (Evaluation.answeredPlan g answer') := by
  cases answer <;> cases answer'
  · exact .stop (congrArg Cause.backend h)
  · exact h.elim
  · exact h.elim
  · exact .done (by rw [hB]; exact h)

theorem alike_complete {ev : Evaluation} (hblind : ev.backend.Blind) : (alike ev).Complete where
  congruence := .alike
  select := fun hr kind filter => hblind.select hr kind filter
  names := .inl rfl
  build := by
    intro f h ins ins' hins
    refine answered_like rfl f f (hblind.build ⟨rfl, rfl, ?_⟩)
    exact hins.imp fun x x' hx => input_alike hx

end Pairing

end PartScript
