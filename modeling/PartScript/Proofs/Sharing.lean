/-
  Features with one identity mean one result. The identity determines the type, the evaluated
  arguments up to the sign of a zero, and the identities of the features among them; so where
  zeros have equal signs as well, the backend receives requests that are alike.
-/
import PartScript.Proofs.Answering
import PartScript.Proofs.Lineage

namespace PartScript

/-! ## Plans that come to the same -/

namespace Plan

variable {ev : Evaluation} {α β : Type} {R R' T : α → α → Prop} {S : β → β → Prop}

/-- Whatever one plan means, the other means as well, up to a relation of values. -/
structure Implies (ev : Evaluation) (R : α → α → Prop) (p q : Plan α) : Prop where
  ok : ∀ a, p.Settles ev (.ok a) → ∃ b, q.Settles ev (.ok b) ∧ R a b
  error : ∀ cause, p.Settles ev (.error cause) → q.Settles ev (.error cause)

theorem Settles.of_bind {p : Plan α} {f : α → Plan β} {x : Except Cause β}
    (h : (p >>= f).Settles ev x) :
    (∃ a, p.Settles ev (.ok a) ∧ (f a).Settles ev x) ∨
      ∃ cause, p.Settles ev (.error cause) ∧ x = .error cause := by
  obtain ⟨n, hn⟩ := h
  rw [eval_bind] at hn
  cases hp : p.eval (ev.meaning n) with
  | none => simp [hp] at hn
  | some y =>
    rw [hp] at hn
    cases y with
    | ok a => exact .inl ⟨a, ⟨n, hp⟩, n, hn⟩
    | error cause => exact .inr ⟨cause, ⟨n, hp⟩, (Option.some.inj hn).symm⟩

theorem Settles.of_done {a : α} {x : Except Cause α} (h : (Plan.done a).Settles ev x) :
    x = .ok a := Settles.unique h ⟨0, rfl⟩

namespace Implies

theorem done {a b : α} (h : R a b) : (Plan.done a).Implies ev R (.done b) where
  ok := fun a' ha => by
    obtain rfl := Except.ok.inj ha.of_done
    exact ⟨b, ⟨0, rfl⟩, h⟩
  error := fun _ hc => by cases hc.of_done

theorem stop {e e' : BuildError} (h : e.cause = e'.cause) :
    (Plan.stop e).Implies ev R (.stop e') where
  ok := fun a ⟨n, hn⟩ => by
    rw [eval] at hn
    split at hn <;> cases hn
  error := fun cause ⟨n, hn⟩ => ⟨n, by rw [eval, ← h]; exact hn⟩

theorem bind {p q : Plan α} {f g : α → Plan β} (h : p.Implies ev R q)
    (hf : ∀ a b, R a b → (f a).Implies ev S (g b)) : (p >>= f).Implies ev S (q >>= g) where
  ok := fun y hy => by
    rcases hy.of_bind with ⟨a, ha, hy⟩ | ⟨cause, -, hc⟩
    · obtain ⟨b, hb, hab⟩ := h.ok a ha
      obtain ⟨z, hz, hyz⟩ := (hf a b hab).ok y hy
      exact ⟨z, hb.bind hz, hyz⟩
    · cases hc
  error := fun cause hc => by
    rcases hc.of_bind with ⟨a, ha, hc⟩ | ⟨cause', hc', heq⟩
    · obtain ⟨b, hb, hab⟩ := h.ok a ha
      exact hb.bind ((hf a b hab).error cause hc)
    · obtain rfl := Except.error.inj heq
      exact (h.error cause hc').bind_error

theorem ofExcept {x y : Except BuildError α} (h : Agree R x y) :
    (Plan.ofExcept x).Implies ev R (Plan.ofExcept y) := by
  cases x <;> cases y
  · exact .stop h
  · exact h.elim
  · exact h.elim
  · exact .done h

theorem of_settles {p q : Plan α} {a b : α} (hp : p.Settles ev (.ok a))
    (hq : q.Settles ev (.ok b)) (h : R a b) : p.Implies ev R q where
  ok := fun a' ha' => by
    obtain rfl := Except.ok.inj (ha'.unique hp)
    exact ⟨b, hq, h⟩
  error := fun cause hc => by cases hc.unique hp

/-- An outcome of one of two plans that come to the same is one of the other. -/
theorem meets {p q : Plan α} (h : p.Implies ev R q) (h' : q.Implies ev R' p)
    (htrans : ∀ a b c, T a b → R b c → T a c) {o : Except Halt α} (ho : p.Meets ev T o) :
    q.Meets ev T o := by
  cases o with
  | ok a =>
    obtain ⟨b, hb, hab⟩ := ho
    obtain ⟨c, hc, hbc⟩ := h.ok b hb
    exact ⟨c, hc, htrans _ _ _ hab hbc⟩
  | error halt =>
    cases halt with
    | exhausted => exact True.intro
    | failed e =>
      refine ho.failed_congr rfl (fun hl => ?_) (h.error _)
      rw [loops_iff] at hl ⊢
      intro x hx
      cases x with
      | ok b =>
        obtain ⟨a, ha, -⟩ := h'.ok b hx
        exact hl _ ha
      | error cause => exact hl _ (h'.error cause hx)

end Implies

end Plan

/-! ## Arguments that come to the same -/

/-- The numbers in an evaluated argument. -/
def Vec3.numbers (v : Vec3) : List Float := [v.x, v.y, v.z]

def Datum.numbers : Datum → List Float
  | .point location => location.numbers
  | .axis origin along => origin.numbers ++ along.numbers
  | .plane origin normal => origin.numbers ++ normal.numbers

def ResolvedArgument.numbers : ResolvedArgument → List Float
  | .scalar value => [value]
  | .vector value => value.numbers
  | .datum value => value.numbers
  | _ => []

/-- The numbers in what is described, in order. -/
def Description.numbers : Description → List Float
  | .feature _ args => args.flatMap ResolvedArgument.numbers
  | .subResult _ _ => []

theorem Vec3.numbers_inj {v w : Vec3} (h : v.numbers = w.numbers) : v = w := by
  obtain ⟨x, y, z⟩ := v
  obtain ⟨x', y', z'⟩ := w
  simp only [Vec3.numbers, List.cons.injEq, and_true] at h
  obtain ⟨rfl, rfl, rfl⟩ := h
  rfl

theorem Encoding.SameDatum.eq {a b : Datum} (h : SameDatum a b) (hnum : a.numbers = b.numbers) :
    a = b := by
  have hpair : ∀ {v w v' w' : Vec3}, v.numbers ++ w.numbers = v'.numbers ++ w'.numbers →
      v = v' ∧ w = w' := fun heq =>
    have hparts := List.append_inj heq rfl
    ⟨Vec3.numbers_inj hparts.1, Vec3.numbers_inj hparts.2⟩
  cases h with
  | point _ => rw [Vec3.numbers_inj hnum]
  | axis _ _ =>
    obtain ⟨rfl, rfl⟩ := hpair hnum
    rfl
  | plane _ _ =>
    obtain ⟨rfl, rfl⟩ := hpair hnum
    rfl

theorem ResolvedArgument.Same.numbers_length {a b : ResolvedArgument} (h : a.Same b) :
    a.numbers.length = b.numbers.length := by
  cases h with
  | datum h => cases h <;> rfl
  | _ => rfl

/-- Arguments that are the same up to the signs of zeros, and have the same numbers. -/
theorem ResolvedArgument.same_numbers {as bs : List ResolvedArgument}
    (h : List.Forall₂ ResolvedArgument.Same as bs)
    (hnum : as.flatMap ResolvedArgument.numbers = bs.flatMap ResolvedArgument.numbers) :
    List.Forall₂ (fun a b => a.Same b ∧ a.numbers = b.numbers) as bs := by
  induction h with
  | nil => exact .nil
  | cons ha _ ih =>
    rw [List.flatMap_cons, List.flatMap_cons] at hnum
    obtain ⟨hhead, htail⟩ := List.append_inj hnum ha.numbers_length
    exact .cons ⟨ha, hhead⟩ (ih htail)

namespace Evaluation

/-- Evaluated arguments that come to inputs that are alike. -/
inductive Exchanges (ev : Evaluation) : ResolvedArgument → ResolvedArgument → Prop where
  | scalar (value : Float) : Exchanges ev (.scalar value) (.scalar value)
  | vector (value : Vec3) : Exchanges ev (.vector value) (.vector value)
  | datum (value : Datum) : Exchanges ev (.datum value) (.datum value)
  | keyword (word : String) : Exchanges ev (.keyword word) (.keyword word)
  | feature {r r' : ResolvedFeature} : r.path = r'.path →
      (ev.buildPlan r.root).Implies ev BuildResult.Alike (ev.buildPlan r'.root) →
      Exchanges ev (.feature r) (.feature r')
  | selection {t t' : Selection} : t.kind = t'.kind → t.ids = t'.ids →
      t.shape.Alike t'.shape → Exchanges ev (.selection t) (.selection t')

variable {ev : Evaluation}

theorem buildBelow_implies {f g : Feature} (user user' : Option String) (path : List String)
    (h : (ev.buildPlan f).Implies ev BuildResult.Alike (ev.buildPlan g)) :
    (buildBelow user f path).Implies ev BuildResult.Alike (buildBelow user' g path) := by
  have hplans : (ev.buildPlan f >>= fun r => Plan.ofExcept (r.descend f.label path)).Implies ev
      BuildResult.Alike (ev.buildPlan g >>= fun r => Plan.ofExcept (r.descend g.label path)) :=
    h.bind fun r r' hr =>
      .ofExcept (BuildResult.Congruence.alike.descend hr f.label g.label path)
  have hsettles : ∀ (user : Option String) (f : Feature) (x : Except Cause BuildResult),
      (buildBelow user f path).Settles ev x ↔
        (ev.buildPlan f >>= fun r => Plan.ofExcept (r.descend f.label path)).Settles ev x :=
    fun user f x => Plan.settles_demand (d := .build f)
  exact ⟨fun a ha => by simpa only [hsettles] using hplans.ok a ((hsettles _ _ _).mp ha),
    fun cause hc => (hsettles _ _ _).mpr (hplans.error cause ((hsettles _ _ _).mp hc))⟩

theorem inputs_implies (user user' : Option String) {as bs : List ResolvedArgument}
    (h : List.Forall₂ ev.Exchanges as bs) :
    (inputs user as).Implies ev (List.Forall₂ Input.Alike) (inputs user' bs) := by
  induction h with
  | nil => exact .done .nil
  | cons ha _ ih =>
    refine Plan.Implies.bind (R := Input.Alike) ?_ fun x y hx =>
      ih.bind fun xs ys hxs => .done (.cons hx hxs)
    cases ha with
    | scalar value => exact .done (.scalar value)
    | vector value => exact .done (.vector value)
    | datum value => exact .done (.datum value)
    | keyword word => exact .done (.keyword word)
    | selection hkind hids hshape => exact .done (.selection hkind hids hshape)
    | @feature r r' hpath hroot =>
      show (buildBelow user r.root r.path >>= fun y => Plan.done (Input.shape y)).Implies ev _
        (buildBelow user' r'.root r'.path >>= fun y => Plan.done (Input.shape y))
      rw [← hpath]
      exact (buildBelow_implies user user' r.path hroot).bind fun y y' hy => .done (.shape hy)

/-- Features of one type and one signature with arguments that come to the same. -/
theorem buildFrom_implies (hblind : ev.backend.Blind) {f g : Feature} {as bs : List ResolvedArgument}
    (htype : f.typeName = g.typeName) (hsignature : f.signature = g.signature)
    (h : List.Forall₂ ev.Exchanges as bs) (hash hash' : StructuralHash) :
    (ev.buildFrom f hash as).Implies ev BuildResult.Alike (ev.buildFrom g hash' bs) := by
  refine (inputs_implies _ _ h).bind fun ins ins' hins => ?_
  have halike : (request f hash ins).Alike (request g hash' ins') := ⟨htype, hsignature, hins⟩
  have hanswer := hblind.build halike
  revert hanswer
  cases ev.backend.build (request f hash ins) <;> cases ev.backend.build (request g hash' ins') <;>
    intro hanswer
  · exact .stop (congrArg Cause.backend hanswer)
  · exact hanswer.elim
  · exact hanswer.elim
  · exact .done hanswer

theorem buildPlan_implies (hblind : ev.backend.Blind) {f g : Feature} {as bs : List ResolvedArgument}
    (has : (ev.arguments f).Settles ev (.ok as)) (hbs : (ev.arguments g).Settles ev (.ok bs))
    (htype : f.typeName = g.typeName) (hsignature : f.signature = g.signature)
    (h : List.Forall₂ ev.Exchanges as bs) :
    (ev.buildPlan f).Implies ev BuildResult.Alike (ev.buildPlan g) := by
  have hargs : (ev.arguments f).Implies ev (fun a b => a = as ∧ b = bs) (ev.arguments g) :=
    .of_settles has hbs ⟨rfl, rfl⟩
  refine hargs.bind ?_
  rintro xs ys ⟨rfl, rfl⟩
  have hfrom := buildFrom_implies hblind htype hsignature h (Description.feature f.typeName xs).hash
    (Description.feature g.typeName ys).hash
  exact ⟨hfrom.ok, hfrom.error⟩

/-! ## What is remembered determines what is meant -/

/-- A value that is given from what is remembered is what a matching plan means. -/
theorem recalls_settles {fs : List Feature} (hfs : Closed ev.model fs)
    (hblind : ev.backend.Blind) {s : BuildState} (hs : ev.Faithful fs s) {α : Type} {p : Plan α}
    {a : α} (h : p.Recalls ev s a) {user : Option String} {R : α → α → Prop}
    {known : List StructuralHash} {items : List Item} {p' : Plan α}
    (hp : p.Matches (.alike ev) user R known items p') (hitems : ItemsWithin fs items) :
    ∃ a', p'.Settles ev (.ok a') ∧ R a a' := by
  have hc := (Pairing.alike_complete hblind).toSound
  induction h generalizing known items user with
  | done =>
    cases hp with
    | done hr => exact ⟨_, ⟨0, rfl⟩, hr⟩
  | @hash _ f _ _ h _ hh _ ih =>
    cases hp with
    | demand hm _ hnext =>
      have hf := hfs.makes (hitems _ List.mem_cons_self) hm f.mem_constructions
      obtain ⟨h', hh', heq⟩ := hs.hash? f hf h hh
      obtain ⟨a', ha', hr⟩ := ih (hnext h h' heq) fun y hy => hitems y (List.mem_cons_of_mem _ hy)
      exact ⟨a', Plan.settles_demand.mpr (hh'.bind ha'), hr⟩
  | @build _ f _ _ r _ hr _ ih =>
    cases hp with
    | demand hm _ hnext =>
      have hf := hfs.makes (hitems _ List.mem_cons_self) hm f.mem_constructions
      obtain ⟨r', hr', halike⟩ := hs.built f hf r hr
      obtain ⟨a', ha', hr⟩ :=
        ih (hnext r r' halike) fun y hy => hitems y (List.mem_cons_of_mem _ hy)
      exact ⟨a', Plan.settles_demand.mpr (hr'.bind ha'), hr⟩
  | @value _ d _ _ x _ hv _ _ ihx ih =>
    cases hp with
    | demand hm _ hnext =>
      have hd := hfs.makes (hitems _ List.mem_cons_self) hm
      obtain ⟨x', hx', hrel⟩ : ∃ x', (ev.plan d).Settles ev (.ok x') ∧
          d.Related BuildResult.Alike x x' := by
        cases d with
        | hash f => exact hv.elim
        | build f => exact hv.elim
        | scalar user value => exact ihx (scalar_matches hc user [] value) (value.items_within.mono hd)
        | vector user value => exact ihx (vector_matches hc user [] value) (value.items_within.mono hd)
        | datum user value => exact ihx (datum_matches hc user [] value) (value.items_within.mono hd)
        | selection user value =>
          exact ihx (selection_matches hc user [] value) (value.items_within.mono hd)
      obtain ⟨a', ha', hr⟩ := ih (hnext x x' hrel) fun y hy => hitems y (List.mem_cons_of_mem _ hy)
      exact ⟨a', Plan.settles_demand.mpr (hx'.bind ha'), hr⟩
  | identify _ _ ih =>
    cases hp with
    | identify _ hnext =>
      obtain ⟨a', ha', hr⟩ := ih (hnext _) hitems
      exact ⟨a', ha', hr⟩

section Sharing

variable {fs : List Feature} {s : BuildState} (hs : ev.Recollects fs s)
  (hlegible : Description.Legible s.described)
include hs hlegible

/-- References with one identity lead to constructions with one identity, and to the same
path below them. -/
theorem same_root {r r' : ResolvedFeature} {reference reference' : FeatureRef}
    (hr : r.Backed ev.model (remembered s) (· ∈ s.described) reference) (hroot : r.root ∈ fs)
    (hr' : r'.Backed ev.model (remembered s) (· ∈ s.described) reference') (hroot' : r'.root ∈ fs)
    (heq : r.hash = r'.hash) :
    ∃ k, (s.feature r.root).hash? = some k ∧ (s.feature r'.root).hash? = some k ∧
      r.path = r'.path ∧ Relation.ReflTransGen (Description.Uses s.described) k r.hash := by
  -- No construction has the identity of a sub-result.
  have hne : ∀ {f : Feature} {k root : StructuralHash} {path : List String}, f ∈ fs →
      (s.feature f).hash? = some k → Description.subResult root path ∈ s.described →
      k ≠ (Description.subResult root path).hash := by
    intro f k root path hf hk hd heq
    obtain ⟨args, -, hargs, rfl⟩ := hs.identified f hf k hk
    exact Encoding.feature_stream_ne_subResult _ _ _ _ (hlegible.distinct _ hargs _ hd heq)
  obtain ⟨k, hk, ⟨hp, hh⟩ | ⟨-, hd, hh⟩⟩ := hr.identity <;>
    obtain ⟨k', hk', ⟨hp', hh'⟩ | ⟨-, hd', hh'⟩⟩ := hr'.identity
  · obtain rfl : k = k' := hh.symm.trans (heq.trans hh')
    exact ⟨k, hk, hk', hp.trans hp'.symm, hh ▸ .refl⟩
  · exact absurd (hh.symm.trans (heq.trans hh')) (hne hroot hk hd')
  · exact absurd (hh'.symm.trans (heq.symm.trans hh)) (hne hroot' hk' hd)
  · have hstream := hlegible.distinct _ hd _ hd' (hh.symm.trans (heq.trans hh'))
    obtain ⟨rfl, hpath⟩ :=
      Encoding.subResult_stream_inj (hlegible.fits _ hd).texts (hlegible.fits _ hd').texts hstream
    exact ⟨k, hk, hk', hpath, .single ⟨_, hd, hh.symm, List.mem_singleton_self k⟩⟩

variable (hf : ev.Faithful fs s)
include hf

/-- Arguments with equal encodings and equal numbers come to the same, if features with the
identities that they refer to do. -/
theorem exchanges {a b : ResolvedArgument}
    (ha : ResolvedArgument.Backed ev.model (remembered s) (· ∈ s.described) fs (Picks ev fs s) a)
    (hb : ResolvedArgument.Backed ev.model (remembered s) (· ∈ s.described) fs (Picks ev fs s) b)
    (hsame : a.Same b) (hnum : a.numbers = b.numbers)
    (hroots : ∀ f ∈ fs, ∀ g ∈ fs, ∀ k, (s.feature f).hash? = some k →
      (s.feature g).hash? = some k →
      (∃ h, a.ref? = some h ∧ Relation.ReflTransGen (Description.Uses s.described) k h) →
      (ev.buildPlan f).Implies ev BuildResult.Alike (ev.buildPlan g)) : ev.Exchanges a b := by
  cases hsame with
  | scalar _ =>
    obtain rfl := (List.cons.inj hnum).1
    exact .scalar _
  | vector _ =>
    rw [Vec3.numbers_inj hnum]
    exact .vector _
  | datum h =>
    rw [h.eq hnum]
    exact .datum _
  | keyword word => exact .keyword word
  | @feature r r' heq =>
    obtain ⟨⟨reference, hr⟩, hroot⟩ := ha
    obtain ⟨⟨reference', hr'⟩, hroot'⟩ := hb
    obtain ⟨k, hk, hk', hpath, hbelow⟩ := same_root hs hlegible hr hroot hr' hroot' heq
    exact .feature hpath (hroots _ hroot _ hroot' k hk hk' ⟨r.hash, rfl, hbelow⟩)
  | @selection t t' h =>
    obtain ⟨reference, r, result, hr, hroot, hbuilt, hshape, hsource⟩ := ha
    obtain ⟨reference', r', result', hr', hroot', hbuilt', hshape', hsource'⟩ := hb
    have heq : r.hash = r'.hash := hsource.symm.trans (h.source.trans hsource')
    obtain ⟨k, hk, hk', hpath, hbelow⟩ := same_root hs hlegible hr hroot hr' hroot' heq
    have himplies := hroots _ hroot _ hroot' k hk hk'
      ⟨t.source, rfl, hsource ▸ hbelow⟩
    obtain ⟨x, hx, hrx⟩ := hf.built _ hroot _ hbuilt
    obtain ⟨x', hx', hrx'⟩ := hf.built _ hroot' _ hbuilt'
    obtain ⟨y, hy, hxy⟩ := himplies.ok x hx
    obtain rfl := Except.ok.inj (hy.unique hx')
    have halike : result.Alike result' := hrx.trans (hxy.trans hrx'.symm)
    have hagree := BuildResult.Congruence.alike.descend halike r.root.label r'.root.label r.path
    rw [hshape, hpath, hshape'] at hagree
    exact .selection h.kind h.ids hagree

theorem exchanges_all {as bs : List ResolvedArgument} (has : ev.Backed fs s as)
    (hbs : ev.Backed fs s bs)
    (hsame : List.Forall₂ (fun a b => a.Same b ∧ a.numbers = b.numbers) as bs)
    (hroots : ∀ f ∈ fs, ∀ g ∈ fs, ∀ k, (s.feature f).hash? = some k →
      (s.feature g).hash? = some k →
      (∃ h ∈ as.filterMap ResolvedArgument.ref?,
        Relation.ReflTransGen (Description.Uses s.described) k h) →
      (ev.buildPlan f).Implies ev BuildResult.Alike (ev.buildPlan g)) :
    List.Forall₂ ev.Exchanges as bs := by
  induction hsame with
  | nil => exact .nil
  | @cons a b as bs hab _ ih =>
    refine .cons ?_ (ih (fun x hx => has x (List.mem_cons_of_mem a hx))
      (fun x hx => hbs x (List.mem_cons_of_mem b hx)) ?_)
    · refine exchanges hs hlegible hf (has a List.mem_cons_self) (hbs b List.mem_cons_self)
        hab.1 hab.2 fun f hf g hg k hk hk' hbelow => hroots f hf g hg k hk hk' ?_
      obtain ⟨h, hh, hbelow⟩ := hbelow
      exact ⟨h, List.mem_filterMap.mpr ⟨a, List.mem_cons_self, hh⟩, hbelow⟩
    · intro f hf g hg k hk hk' hbelow
      obtain ⟨h, hh, hbelow⟩ := hbelow
      obtain ⟨x, hx, hxh⟩ := List.mem_filterMap.mp hh
      exact hroots f hf g hg k hk hk'
        ⟨h, List.mem_filterMap.mpr ⟨x, List.mem_cons_of_mem a hx, hxh⟩, hbelow⟩

end Sharing

theorem Exchanges.related {a a' b b' : ResolvedArgument} (h : ev.Exchanges a b)
    (ha : a.Related BuildResult.Alike a') (hb : b.Related BuildResult.Alike b') :
    ev.Exchanges a' b' := by
  cases h with
  | scalar value =>
    cases ha
    cases hb
    exact .scalar value
  | vector value =>
    cases ha
    cases hb
    exact .vector value
  | datum value =>
    cases ha
    cases hb
    exact .datum value
  | keyword word =>
    cases ha
    cases hb
    exact .keyword word
  | feature hpath hroot =>
    cases ha
    cases hb
    exact .feature hpath hroot
  | selection hkind hids hshape =>
    cases ha with
    | selection ht =>
      cases hb with
      | selection ht' =>
        exact .selection (ht.kind.symm.trans (hkind.trans ht'.kind))
          (ht.ids.symm.trans (hids.trans ht'.ids)) (ht.shape.symm.trans (hshape.trans ht'.shape))

theorem exchanges_related {as as' bs bs' : List ResolvedArgument}
    (h : List.Forall₂ ev.Exchanges as bs)
    (has : List.Forall₂ (ResolvedArgument.Related BuildResult.Alike) as as')
    (hbs : List.Forall₂ (ResolvedArgument.Related BuildResult.Alike) bs bs') :
    List.Forall₂ ev.Exchanges as' bs' := by
  induction h generalizing as' bs' with
  | nil =>
    cases has
    cases hbs
    exact .nil
  | cons hab _ ih =>
    cases has with
    | cons ha has =>
      cases hbs with
      | cons hb hbs => exact .cons (hab.related ha hb) (ih has hbs)

/-- Features with one identity mean one result, where no two streams have one digest and no
two zeros in equal streams differ in sign. The type and the number of arguments determine the
signature. -/
theorem shares {fs : List Feature} {log : List Description} (hfs : Closed ev.model fs)
    (hblind : ev.backend.Blind)
    (hsignature : ∀ f ∈ fs, ∀ g ∈ fs, f.typeName = g.typeName →
      f.arguments.length = g.arguments.length → f.signature = g.signature)
    (hlegible : Description.Legible log)
    (hzeros : ∀ d ∈ log, ∀ d' ∈ log, d.stream = d'.stream → d.numbers = d'.numbers) :
    ev.Shares fs log := by
  intro _ s hs hfaith hsub f hf g hg h hfh hgh answer htells
  have hlegible' := hlegible.mono hsub
  have hc := (Pairing.alike_complete hblind).toSound
  -- The induction is on what an identity is made of.
  have hall : ∀ h, ∀ f ∈ fs, ∀ g ∈ fs, (s.feature f).hash? = some h →
      (s.feature g).hash? = some h →
      (ev.buildPlan f).Implies ev BuildResult.Alike (ev.buildPlan g) := by
    intro h
    induction h using (Description.uses_wellFounded hlegible' hs.inOrder).transGen.induction with
    | _ h ih =>
      intro f hf g hg hfh hgh
      obtain ⟨as, has, hdf, rfl⟩ := hs.identified f hf h hfh
      obtain ⟨bs, hbs, hdg, heq⟩ := hs.identified g hg _ hgh
      have hstream := hlegible'.distinct _ hdf _ hdg heq
      obtain ⟨htype, hsame⟩ := Encoding.feature_stream_inj (hlegible'.fits _ hdf).texts
        (hlegible'.fits _ hdg).texts hstream
      have hnum := hzeros _ (hsub hdf) _ (hsub hdg) hstream
      have hlen : f.arguments.length = g.arguments.length := by
        rw [← recalls_arguments_length has, ← recalls_arguments_length hbs, hsame.length_eq]
      have hexchanges : List.Forall₂ ev.Exchanges as bs := by
        refine exchanges_all hs hlegible' hfaith (recalls_backed hfs hf has)
          (recalls_backed hfs hg hbs) (ResolvedArgument.same_numbers hsame hnum) ?_
        intro f' hf' g' hg' k hk hk' hbelow
        obtain ⟨ref, href, hbelow⟩ := hbelow
        have huses : Description.Uses s.described ref (Description.feature f.typeName as).hash :=
          ⟨_, hdf, rfl, href⟩
        exact ih k (.tail' hbelow huses) f' hf' g' hg' hk hk'
      obtain ⟨as', has', hrel⟩ := recalls_settles hfs hblind hfaith has
        (arguments_matches hc f []) (hfs.items hf)
      obtain ⟨bs', hbs', hrel'⟩ := recalls_settles hfs hblind hfaith hbs
        (arguments_matches hc g []) (hfs.items hg)
      exact buildPlan_implies hblind has' hbs' htype (hsignature f hf g hg htype hlen)
        (exchanges_related hexchanges hrel hrel')
  have hmeets : (ev.buildPlan f).Meets ev BuildResult.Alike (outcomeOf g answer) :=
    (hall h g hg f hf hgh hfh).meets (hall h f hf g hg hfh hgh)
      (T := BuildResult.Alike) (fun _ _ _ hab hbc => hab.trans hbc) htells
  cases answer with
  | ok r => exact hmeets
  | error source =>
    exact Plan.Meets.failed_congr (R := BuildResult.Alike) rfl id id hmeets

end Evaluation

end PartScript
