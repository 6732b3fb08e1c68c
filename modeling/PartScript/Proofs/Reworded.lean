/-
  What is said in other words means the same. Where the first of two models gives a value, an
  identity or a result, the second gives the same one for what says the same, however differently
  the two name and share what they are made of: a simulation by the depth to which the first has
  a meaning, and below each depth by what says the same.
-/
import PartScript.Proofs.Meaning
import PartScript.Proofs.Rewording

namespace PartScript

/-! ## Demands that say the same -/

/-- Selections of the same sub-shapes, whatever their feature is called. -/
structure Selection.Alike (t t' : Selection) : Prop where
  source : t.source = t'.source
  kind : t.kind = t'.kind
  ids : t.ids = t'.ids
  shape : t.shape.Alike t'.shape

/-- Demands for what says the same, by features of any labels. -/
inductive Demand.Reworded (w : Rewording) : Demand → Demand → Prop where
  | scalar {user user' e e'} : e.Reworded w e' → Reworded w (.scalar user e) (.scalar user' e')
  | vector {user user' e e'} : e.Reworded w e' → Reworded w (.vector user e) (.vector user' e')
  | datum {user user' e e'} : e.Reworded w e' → Reworded w (.datum user e) (.datum user' e')
  | selection {user user' e e'} : e.Reworded w e' →
      Reworded w (.selection user e) (.selection user' e')
  | hash {f f'} : f.Reworded w f' → Reworded w (.hash f) (.hash f')
  | build {f f'} : f.Reworded w f' → Reworded w (.build f) (.build f')

/-- Answers to two demands of one kind that are the same. -/
def Demand.SameAnswer : (d d' : Demand) → d.Answer → d'.Answer → Prop
  | .scalar _ _, .scalar _ _, x, x' => x = x'
  | .vector _ _, .vector _ _, v, v' => v = v'
  | .datum _ _, .datum _ _, x, x' => x = x'
  | .selection _ _, .selection _ _, t, t' => t.Alike t'
  | .hash _, .hash _, h, h' => h = h'
  | .build _, .build _, r, r' => r.Alike r'
  | _, _, _, _ => False

namespace Feature.Reworded

variable {w : Rewording} {f f' : Feature}

theorem typeName (h : f.Reworded w f') : f.typeName = f'.typeName := by
  cases h
  rfl

theorem signature (h : f.Reworded w f') : f.signature = f'.signature := by
  cases h
  rfl

theorem arguments (h : f.Reworded w f') : Argument.RewordedAll w f.arguments f'.arguments := by
  cases h
  assumption

end Feature.Reworded

/-- Evaluated arguments with one encoding: features by their identities and what they are. -/
inductive ResolvedArgument.Reworded (w : Rewording) :
    ResolvedArgument → ResolvedArgument → Prop where
  | scalar (value : Float) : Reworded w (.scalar value) (.scalar value)
  | vector (value : Vec3) : Reworded w (.vector value) (.vector value)
  | datum (value : Datum) : Reworded w (.datum value) (.datum value)
  | keyword (word : String) : Reworded w (.keyword word) (.keyword word)
  | feature {f f'} (path : List String) (hash : StructuralHash) : f.Reworded w f' →
      Reworded w (.feature ⟨f, path, hash⟩) (.feature ⟨f', path, hash⟩)
  | selection {t t' : Selection} : t.Alike t' → Reworded w (.selection t) (.selection t')

theorem ResolvedArgument.Reworded.encoding {w : Rewording} {a a' : ResolvedArgument}
    (h : a.Reworded w a') : Encoding.argument a = Encoding.argument a' := by
  cases h with
  | selection h => simp only [Encoding.argument, Encoding.selection, h.source, h.kind, h.ids]
  | _ => rfl

theorem ResolvedArgument.Reworded.hash_eq {w : Rewording} {as as' : List ResolvedArgument}
    (h : List.Forall₂ (ResolvedArgument.Reworded w) as as') (typeName : String) :
    (Description.feature typeName as).hash = (Description.feature typeName as').hash :=
  Description.hash_congr (h.imp fun _ _ ha => ha.encoding) typeName

/-! ## Plans that carry over -/

namespace Plan

variable {ev ev' : Evaluation} {n : Nat} {α α' β β' : Type} {R : α → α' → Prop}
  {S : β → β' → Prop}

/-- A value that the first plan has to a depth is related to a value of the second. -/
def Carries (ev ev' : Evaluation) (n : Nat) (R : α → α' → Prop) (p : Plan α) (p' : Plan α') :
    Prop :=
  ∀ a, p.eval (ev.meaning n) = some (.ok a) → ∃ a', p'.Settles ev' (.ok a') ∧ R a a'

namespace Carries

theorem done {a : α} {a' : α'} (h : R a a') :
    (Plan.done a).Carries ev ev' n R (.done a') := by
  rintro _ ⟨⟩
  exact ⟨a', ⟨0, rfl⟩, h⟩

theorem stop (e : BuildError) (p' : Plan α') : (Plan.stop e).Carries ev ev' n R p' := by
  intro a ha
  rw [eval] at ha
  split at ha <;> cases ha

theorem bind {p : Plan α} {p' : Plan α'} {f : α → Plan β} {f' : α' → Plan β'}
    (h : p.Carries ev ev' n R p') (hf : ∀ a a', R a a' → (f a).Carries ev ev' n S (f' a')) :
    (p >>= f).Carries ev ev' n S (p' >>= f') := by
  intro b hb
  rw [eval_bind] at hb
  cases hp : p.eval (ev.meaning n) with
  | none => simp [hp] at hb
  | some x =>
    rw [hp] at hb
    cases x with
    | error cause => cases hb
    | ok a =>
      obtain ⟨a', ha', haa'⟩ := h a hp
      obtain ⟨b', hb', hbb'⟩ := hf a a' haa' b hb
      exact ⟨b', ha'.bind hb', hbb'⟩

/-- Identities are computed alike for what has equal ones. -/
theorem identify {d d' : Description} {next : StructuralHash → Plan α}
    {next' : StructuralHash → Plan α'}
    (h : (next d.hash).Carries ev ev' n R (next' d'.hash)) :
    (Plan.identify d next).Carries ev ev' n R (.identify d' next') := h

theorem ofExcept {x : Except BuildError α} {x' : Except BuildError α'}
    (h : ∀ a, x = .ok a → ∃ a', x' = .ok a' ∧ R a a') :
    (Plan.ofExcept x).Carries ev ev' n R (Plan.ofExcept x') := by
  cases x with
  | error e => exact stop e _
  | ok a =>
    obtain ⟨a', rfl, haa'⟩ := h a rfl
    exact done haa'

end Carries

end Plan

/-- Evaluations of the two models, with one backend that cannot tell apart what is alike. -/
structure Rewording.Evaluated (w : Rewording) (ev ev' : Evaluation) : Prop where
  holds : w.Holds
  first : ev.model = w.first
  second : ev'.model = w.second
  backend : ev'.backend = ev.backend
  blind : ev.backend.Blind

namespace Evaluation

open Plan (Carries)

/-- What the first evaluation means to a depth, the second means for what says the same. -/
def CarriesAt (ev ev' : Evaluation) (w : Rewording) (n : Nat) : Prop :=
  ∀ d d', d.Reworded w d' → ∀ a, ev.meaning n d = some (.ok a) →
    ∃ a', (ev'.plan d').Settles ev' (.ok a') ∧ d.SameAnswer d' a a'

section Carrying

variable {w : Rewording} {ev ev' : Evaluation} {n : Nat} {α α' : Type} {R : α → α' → Prop}

theorem CarriesAt.demand (hn : ev.CarriesAt ev' w n) {d d' : Demand} (hd : d.Reworded w d')
    (user user' : Option String) {next : d.Answer → Plan α} {next' : d'.Answer → Plan α'}
    (hnext : ∀ a a', d.SameAnswer d' a a' → (next a).Carries ev ev' n R (next' a')) :
    (Plan.demand d user next).Carries ev ev' n R (.demand d' user' next') := by
  intro b hb
  rw [Plan.eval] at hb
  cases hm : ev.meaning n d with
  | none => simp [hm] at hb
  | some x =>
    rw [hm] at hb
    cases x with
    | error cause => cases hb
    | ok a =>
      obtain ⟨a', ha', haa'⟩ := hn d d' hd a hm
      obtain ⟨b', hb', hbb'⟩ := hnext a a' haa' b hb
      exact ⟨b', Plan.settles_demand.mpr (ha'.bind hb'), hbb'⟩

/-! ## Names -/

section Names

variable {name : String} {b : Binding} (user : Option String)

theorem scalar_symbol {e : ScalarExpr} (hb : ev.model.binding? name = some b)
    (hv : b.value = .scalar e) : ev.scalar user (.symbol name) = Plan.scalar user e := by
  rw [Evaluation.scalar, bound, hb]
  simp only [Plan.pure_eq, Plan.done_bind, hv]

theorem vector_symbol {e : VectorExpr} (hb : ev.model.binding? name = some b)
    (hv : b.value = .vector e) : ev.vector user (.symbol name) = Plan.vector user e := by
  rw [Evaluation.vector, bound, hb]
  simp only [Plan.pure_eq, Plan.done_bind, hv]

theorem datum_symbol {e : DatumExpr} (hb : ev.model.binding? name = some b)
    (hv : b.value = .datum e) : ev.datum user (.symbol name) = Plan.datum user e := by
  rw [Evaluation.datum, bound, hb]
  simp only [Plan.pure_eq, Plan.done_bind, hv]

theorem selection_symbol {e : SelectionExpr} (hb : ev.model.binding? name = some b)
    (hv : b.value = .selection e) : ev.selection user (.symbol name) = Plan.selection user e := by
  rw [Evaluation.selection, bound, hb]
  simp only [Plan.pure_eq, Plan.done_bind, hv]

end Names

/-- A name on the first side is a demand for what it is bound to. -/
theorem CarriesAt.unfolded (hn : ev.CarriesAt ev' w n) {d d' : Demand} (hd : d.Reworded w d')
    (user : Option String) :
    (Plan.demand d user .done).Carries ev ev' n (d.SameAnswer d') (ev'.plan d') := by
  intro a ha
  rw [Plan.eval] at ha
  cases hm : ev.meaning n d with
  | none => simp [hm] at ha
  | some x =>
    rw [hm] at ha
    cases x with
    | error cause => cases ha
    | ok b =>
      obtain rfl := Except.ok.inj (Option.some.inj ha)
      exact hn d d' hd b hm

/-- A name on the second side adds one demand to what it is bound to. -/
theorem carries_folded (d' : Demand) {p : Plan α} {R : α → d'.Answer → Prop}
    (h : p.Carries ev ev' n R (ev'.plan d')) (user : Option String) :
    p.Carries ev ev' n R (.demand d' user .done) := by
  intro a ha
  obtain ⟨a', ha', haa'⟩ := h a ha
  exact ⟨a', Plan.settles_demand.mpr (ha'.bind ⟨0, rfl⟩), haa'⟩

variable (hw : w.Evaluated ev ev') (hn : ev.CarriesAt ev' w n)
include hw

/-- Names that stand for the same go on with values that say the same. -/
theorem bound_carries {name name' : String} (h : w.renamed name name') (kind : SymbolKind)
    {f : BoundValue → Plan α} {f' : BoundValue → Plan α'}
    (hf : ∀ v v', v.Reworded w v' → (f v).Carries ev ev' n R (f' v')) :
    (ev.bound name kind >>= f).Carries ev ev' n R (ev'.bound name' kind >>= f') := by
  unfold bound
  rw [hw.first, hw.second]
  cases hb : w.first.binding? name with
  | none => exact .stop _ _
  | some b =>
    obtain ⟨b', hb', hv⟩ := hw.holds name name' b h hb
    rw [hb']
    exact hf _ _ hv

/-! ## References -/

/-- References that say the same are followed to constructions that do. -/
theorem target_carries {r r' : FeatureRef} (h : r.Reworded w r') :
    (Plan.ofExcept (ev.model.target r)).Carries ev ev' n
      (fun t t' => t.1.Reworded w t'.1 ∧ t.2 = t'.2) (Plan.ofExcept (ev'.model.target r')) := by
  refine .ofExcept fun t ht => ?_
  rw [hw.first] at ht
  rw [hw.second]
  obtain ⟨root', ht', hroot⟩ := hw.holds.target h ht
  exact ⟨_, ht', hroot, rfl⟩

include hn

theorem resolve_carries (user user' : Option String) {r r' : FeatureRef} (h : r.Reworded w r') :
    (ev.resolve user r).Carries ev ev' n
      (fun x x' => x.root.Reworded w x'.root ∧ x.path = x'.path ∧ x.hash = x'.hash)
      (ev'.resolve user' r') := by
  refine (target_carries hw h).bind ?_
  rintro ⟨root, path⟩ ⟨root', _⟩ ⟨hroot, rfl⟩
  refine hn.demand (.hash hroot) user user' ?_
  rintro hash _ rfl
  show Carries ev ev' n _ (ite (path.isEmpty = true) _ _) (ite (path.isEmpty = true) _ _)
  split
  · exact .done ⟨hroot, rfl, rfl⟩
  · intro a ha
    cases ha
    exact ⟨_, ⟨0, rfl⟩, hroot, rfl, rfl⟩

omit hw in
theorem buildBelow_carries (user user' : Option String) {f f' : Feature} (h : f.Reworded w f')
    (path : List String) : (buildBelow user f path).Carries ev ev' n BuildResult.Alike
      (buildBelow user' f' path) := by
  refine hn.demand (.build h) user user' fun r r' hr => .ofExcept fun x hx => ?_
  have hdescend := BuildResult.Congruence.alike.descend hr f.label f'.label path
  rw [hx] at hdescend
  cases hx' : BuildResult.descend f'.label r' path with
  | error e =>
    rw [hx'] at hdescend
    exact hdescend.elim
  | ok x' =>
    rw [hx'] at hdescend
    exact ⟨x', rfl, hdescend⟩

theorem buildReference_carries (user user' : Option String) {r r' : FeatureRef}
    (h : r.Reworded w r') : (ev.buildReference user r).Carries ev ev' n BuildResult.Alike
      (ev'.buildReference user' r') := by
  refine (target_carries hw h).bind ?_
  rintro ⟨root, path⟩ ⟨root', _⟩ ⟨hroot, rfl⟩
  exact buildBelow_carries hn user user' hroot path

/-! ## Values -/

omit hw hn in
theorem direction_carries (what : String) (v : Vec3) :
    (direction what v).Carries ev ev' n Eq (direction what v) := by
  unfold direction
  cases v.unit? with
  | none => exact .stop _ _
  | some unit => exact .done rfl

mutual

theorem scalar_carries (user user' : Option String) {e e' : ScalarExpr} : e.Reworded w e' →
    (ev.scalar user e).Carries ev ev' n Eq (ev'.scalar user' e')
  | .renamed h => by
    rw [Evaluation.scalar, Evaluation.scalar]
    refine bound_carries hw h .scalar fun v v' hv => ?_
    cases hv with
    | scalar he => exact hn.demand (.scalar he) none none fun _ _ h => .done h
    | _ => exact .stop _ _
  | .unfolded hb hv h => by
    rw [scalar_symbol user (hw.first ▸ hb) hv]
    exact hn.unfolded (.scalar h) none
  | .folded hb hv h => by
    rw [scalar_symbol user' (hw.second ▸ hb) hv]
    exact carries_folded (.scalar user' _) (scalar_carries user user' h) none
  | .literal value => by
    rw [Evaluation.scalar, Evaluation.scalar]
    exact .done rfl
  | .neg h => by
    rw [Evaluation.scalar, Evaluation.scalar]
    exact (scalar_carries user user' h).bind fun x x' hx => .done (by rw [hx])
  | .binary op hl hr => by
    rw [Evaluation.scalar, Evaluation.scalar]
    refine (scalar_carries user user' hl).bind fun x x' hx => ?_
    exact (scalar_carries user user' hr).bind fun y y' hy => .done (by rw [hx, hy])
  | .call fn h => by
    rw [Evaluation.scalar, Evaluation.scalar]
    exact (scalar_carries user user' h).bind fun x x' hx => .done (by rw [hx])
  | .dot hl hr => by
    rw [Evaluation.scalar, Evaluation.scalar]
    refine (vector_carries user user' hl).bind fun v v' hv => ?_
    exact (vector_carries user user' hr).bind fun u u' hu => .done (by rw [hv, hu])
  | .magnitude h => by
    rw [Evaluation.scalar, Evaluation.scalar]
    exact (vector_carries user user' h).bind fun v v' hv => .done (by rw [hv])
  | .component which h => by
    rw [Evaluation.scalar, Evaluation.scalar]
    exact (vector_carries user user' h).bind fun v v' hv => .done (by rw [hv])
  | .value name h => by
    rw [Evaluation.scalar, Evaluation.scalar]
    refine (buildReference_carries hw hn user user' h).bind fun r r' hr => ?_
    rw [hr.value? name]
    cases r'.value? name with
    | none => exact .stop _ _
    | some x => exact .done rfl

theorem vector_carries (user user' : Option String) {e e' : VectorExpr} : e.Reworded w e' →
    (ev.vector user e).Carries ev ev' n Eq (ev'.vector user' e')
  | .renamed h => by
    rw [Evaluation.vector, Evaluation.vector]
    refine bound_carries hw h .vector fun v v' hv => ?_
    cases hv with
    | vector he => exact hn.demand (.vector he) none none fun _ _ h => .done h
    | _ => exact .stop _ _
  | .unfolded hb hv h => by
    rw [vector_symbol user (hw.first ▸ hb) hv]
    exact hn.unfolded (.vector h) none
  | .folded hb hv h => by
    rw [vector_symbol user' (hw.second ▸ hb) hv]
    exact carries_folded (.vector user' _) (vector_carries user user' h) none
  | .literal hx hy hz => by
    rw [Evaluation.vector, Evaluation.vector]
    refine (scalar_carries user user' hx).bind fun x x' hx => ?_
    refine (scalar_carries user user' hy).bind fun y y' hy => ?_
    exact (scalar_carries user user' hz).bind fun z z' hz => .done (by rw [hx, hy, hz])
  | .neg h => by
    rw [Evaluation.vector, Evaluation.vector]
    exact (vector_carries user user' h).bind fun v v' hv => .done (by rw [hv])
  | .add hl hr => by
    rw [Evaluation.vector, Evaluation.vector]
    refine (vector_carries user user' hl).bind fun v v' hv => ?_
    exact (vector_carries user user' hr).bind fun u u' hu => .done (by rw [hv, hu])
  | .sub hl hr => by
    rw [Evaluation.vector, Evaluation.vector]
    refine (vector_carries user user' hl).bind fun v v' hv => ?_
    exact (vector_carries user user' hr).bind fun u u' hu => .done (by rw [hv, hu])
  | .scale h hs => by
    rw [Evaluation.vector, Evaluation.vector]
    refine (vector_carries user user' h).bind fun v v' hv => ?_
    exact (scalar_carries user user' hs).bind fun x x' hx => .done (by rw [hv, hx])
  | .divide h hs => by
    rw [Evaluation.vector, Evaluation.vector]
    refine (vector_carries user user' h).bind fun v v' hv => ?_
    exact (scalar_carries user user' hs).bind fun x x' hx => .done (by rw [hv, hx])
  | .cross hl hr => by
    rw [Evaluation.vector, Evaluation.vector]
    refine (vector_carries user user' hl).bind fun v v' hv => ?_
    exact (vector_carries user user' hr).bind fun u u' hu => .done (by rw [hv, hu])
  | .normalize h => by
    rw [Evaluation.vector, Evaluation.vector]
    refine (vector_carries user user' h).bind ?_
    rintro v _ rfl
    exact direction_carries _ v
  | .point name h => by
    rw [Evaluation.vector, Evaluation.vector]
    refine (buildReference_carries hw hn user user' h).bind fun r r' hr => ?_
    rw [hr.point? name]
    cases r'.point? name with
    | none => exact .stop _ _
    | some x => exact .done rfl
  | .part part h => by
    rw [Evaluation.vector, Evaluation.vector]
    refine (datum_carries user user' h).bind ?_
    rintro d _ rfl
    cases d.part? part with
    | none => exact .stop _ _
    | some v => exact .done rfl

theorem datum_carries (user user' : Option String) {e e' : DatumExpr} : e.Reworded w e' →
    (ev.datum user e).Carries ev ev' n Eq (ev'.datum user' e')
  | .renamed h => by
    rw [Evaluation.datum, Evaluation.datum]
    refine bound_carries hw h .datum fun v v' hv => ?_
    cases hv with
    | datum he => exact hn.demand (.datum he) none none fun _ _ h => .done h
    | _ => exact .stop _ _
  | .unfolded hb hv h => by
    rw [datum_symbol user (hw.first ▸ hb) hv]
    exact hn.unfolded (.datum h) none
  | .folded hb hv h => by
    rw [datum_symbol user' (hw.second ▸ hb) hv]
    exact carries_folded (.datum user' _) (datum_carries user user' h) none
  | .point h => by
    rw [Evaluation.datum, Evaluation.datum]
    exact (vector_carries user user' h).bind fun v v' hv => .done (by rw [hv])
  | .axis ho hd => by
    rw [Evaluation.datum, Evaluation.datum]
    refine (vector_carries user user' ho).bind fun o o' ho => ?_
    refine (vector_carries user user' hd).bind ?_
    rintro d _ rfl
    exact (direction_carries _ d).bind fun u u' hu => .done (by rw [ho, hu])
  | .plane ho hd => by
    rw [Evaluation.datum, Evaluation.datum]
    refine (vector_carries user user' ho).bind fun o o' ho => ?_
    refine (vector_carries user user' hd).bind ?_
    rintro d _ rfl
    exact (direction_carries _ d).bind fun u u' hu => .done (by rw [ho, hu])

end

/-! ## Selections -/

omit hw hn in
theorem combine_carries (op : IdSet → IdSet → IdSet) {s s' t t' : Selection} (hs : s.Alike s')
    (ht : t.Alike t') : (combine op s t).Carries ev ev' n Selection.Alike (combine op s' t') := by
  unfold combine
  rw [hs.source, hs.kind, ht.source, ht.kind]
  split
  · exact .done ⟨rfl, rfl, by rw [hs.ids, ht.ids], hs.shape⟩
  · exact .stop _ _

theorem query_carries (user user' : Option String) (kind : EntityKind) (filter : String)
    {r r' : FeatureRef} (h : r.Reworded w r') :
    (ev.query user kind r filter).Carries ev ev' n Selection.Alike
      (ev'.query user' kind r' filter) := by
  refine (resolve_carries hw hn user user' h).bind ?_
  rintro x x' ⟨hroot, hpath, hhash⟩
  rw [← hpath]
  refine (buildBelow_carries hn user user' hroot x.path).bind fun s s' hs => ?_
  rw [hw.backend, ← hw.blind.select hs]
  cases ev.backend.select s kind filter with
  | error e => exact .stop _ _
  | ok ids => exact .done ⟨hhash, rfl, rfl, hs⟩

theorem selection_carries (user user' : Option String) {e e' : SelectionExpr} :
    e.Reworded w e' →
    (ev.selection user e).Carries ev ev' n Selection.Alike (ev'.selection user' e')
  | .renamed h => by
    rw [Evaluation.selection, Evaluation.selection]
    refine bound_carries hw h .selection fun v v' hv => ?_
    cases hv with
    | selection he => exact hn.demand (.selection he) none none fun _ _ h => .done h
    | _ => exact .stop _ _
  | .unfolded hb hv h => by
    rw [selection_symbol user (hw.first ▸ hb) hv]
    exact hn.unfolded (.selection h) none
  | .folded hb hv h => by
    rw [selection_symbol user' (hw.second ▸ hb) hv]
    exact carries_folded (.selection user' _) (selection_carries user user' h) none
  | .query kind filter h => by
    rw [Evaluation.selection, Evaluation.selection]
    exact query_carries hw hn user user' kind filter h
  | .union hl hr => by
    rw [Evaluation.selection, Evaluation.selection]
    refine (selection_carries user user' hl).bind fun s s' hs => ?_
    exact (selection_carries user user' hr).bind fun t t' ht => combine_carries _ hs ht
  | .difference hl hr => by
    rw [Evaluation.selection, Evaluation.selection]
    refine (selection_carries user user' hl).bind fun s s' hs => ?_
    exact (selection_carries user user' hr).bind fun t t' ht => combine_carries _ hs ht

/-! ## Constructions -/

theorem argument_carries (user user' : Option String) {a a' : Argument} (h : a.Reworded w a') :
    (ev.argument user a).Carries ev ev' n (ResolvedArgument.Reworded w)
      (ev'.argument user' a') := by
  cases h with
  | scalar h =>
    refine (scalar_carries hw hn user user' h).bind ?_
    rintro x _ rfl
    exact .done (.scalar x)
  | vector h =>
    refine (vector_carries hw hn user user' h).bind ?_
    rintro v _ rfl
    exact .done (.vector v)
  | datum h =>
    refine (datum_carries hw hn user user' h).bind ?_
    rintro d _ rfl
    exact .done (.datum d)
  | keyword word => exact .done (.keyword word)
  | feature h =>
    refine (resolve_carries hw hn user user' h).bind ?_
    rintro ⟨root, path, hash⟩ ⟨root', _, _⟩ ⟨hroot, rfl, rfl⟩
    exact .done (.feature path hash hroot)
  | selection h =>
    exact (selection_carries hw hn user user' h).bind fun t t' ht => .done (.selection ht)

theorem argumentList_carries (user user' : Option String) {as as' : List Argument} :
    Argument.RewordedAll w as as' → (ev.argumentList user as).Carries ev ev' n
      (List.Forall₂ (ResolvedArgument.Reworded w)) (ev'.argumentList user' as')
  | .nil => .done .nil
  | .cons ha has =>
    (argument_carries hw hn user user' ha).bind fun _ _ hx =>
      (argumentList_carries user user' has).bind fun _ _ hxs => .done (.cons hx hxs)

omit hw in
theorem input_carries (user user' : Option String) {a a' : ResolvedArgument}
    (h : a.Reworded w a') :
    (input user a).Carries ev ev' n Input.Alike (input user' a') := by
  cases h with
  | scalar x => exact .done (.scalar x)
  | vector v => exact .done (.vector v)
  | datum d => exact .done (.datum d)
  | keyword word => exact .done (.keyword word)
  | feature path hash hroot =>
    exact (buildBelow_carries hn user user' hroot path).bind fun r r' hr => .done (.shape hr)
  | selection ht => exact .done (.selection ht.kind ht.ids ht.shape)

omit hw in
theorem inputs_carries (user user' : Option String) {as as' : List ResolvedArgument}
    (h : List.Forall₂ (ResolvedArgument.Reworded w) as as') :
    (inputs user as).Carries ev ev' n (List.Forall₂ Input.Alike) (inputs user' as') := by
  induction h with
  | nil => exact .done .nil
  | cons ha _ ih =>
    exact (input_carries hn user user' ha).bind fun x x' hx =>
      ih.bind fun xs xs' hxs => .done (.cons hx hxs)

omit hn in
/-- The backend gives results that are alike for inputs that are. -/
theorem answered_carries {f f' : Feature} (h : f.Reworded w f') (hash : StructuralHash)
    {ins ins' : List Input} (hins : List.Forall₂ Input.Alike ins ins') :
    (answeredPlan f (ev.backend.build (request f hash ins))).Carries ev ev' n BuildResult.Alike
      (answeredPlan f' (ev'.backend.build (request f' hash ins'))) := by
  rw [hw.backend]
  have halike : (request f hash ins).Alike (request f' hash ins') :=
    ⟨h.typeName, h.signature, hins⟩
  have hanswer := hw.blind.build halike
  cases ha : ev.backend.build (request f hash ins) with
  | error e => exact .stop _ _
  | ok r =>
    rw [ha] at hanswer
    cases ha' : ev.backend.build (request f' hash ins') with
    | error e =>
      rw [ha'] at hanswer
      exact hanswer.elim
    | ok r' =>
      rw [ha'] at hanswer
      exact .done hanswer

/-- What says the same has the same identity. -/
theorem hashPlan_carries {f f' : Feature} (h : f.Reworded w f') :
    (ev.hashPlan f).Carries ev ev' n Eq (ev'.hashPlan f') := by
  refine (argumentList_carries hw hn _ _ h.arguments).bind fun as as' has => ?_
  have hhash := ResolvedArgument.Reworded.hash_eq has f.typeName
  rw [← h.typeName]
  exact .identify (.done hhash)

/-- What says the same has results that are alike. -/
theorem buildPlan_carries {f f' : Feature} (h : f.Reworded w f') :
    (ev.buildPlan f).Carries ev ev' n BuildResult.Alike (ev'.buildPlan f') := by
  refine (argumentList_carries hw hn _ _ h.arguments).bind fun as as' has => ?_
  have hhash := ResolvedArgument.Reworded.hash_eq has f.typeName
  rw [← h.typeName]
  refine .identify ?_
  rw [← hhash]
  exact (inputs_carries hn _ _ has).bind fun ins ins' hins => answered_carries hw h _ hins

omit hn in
/-- Whatever the first evaluation means, the second means for what says the same. -/
theorem carries_at (n : Nat) : ev.CarriesAt ev' w n := by
  induction n with
  | zero => exact fun d d' _ a ha => by cases ha
  | succ n hn =>
    intro d d' hd a ha
    cases hd with
    | scalar h => exact scalar_carries hw hn _ _ h a ha
    | vector h => exact vector_carries hw hn _ _ h a ha
    | datum h => exact datum_carries hw hn _ _ h a ha
    | selection h => exact selection_carries hw hn _ _ h a ha
    | hash h => exact hashPlan_carries hw hn h a ha
    | build h => exact buildPlan_carries hw hn h a ha

end Carrying

end Evaluation

end PartScript
