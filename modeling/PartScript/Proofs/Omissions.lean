/-
  Arguments that are left out of a call are as good as written. Whichever of them are written
  out, the construction has the same arguments, they are evaluated to the same, and it has the
  same identity.
-/
import PartScript.Proofs.Binding
import PartScript.Proofs.Labels
import PartScript.Proofs.Loading
import PartScript.Proofs.Stability

namespace PartScript

/-- Whether a parameter accepts what stands in for it. -/
def Param.acceptsFallback (param : Param) : Bool :=
  match param.arity with
  | .optional fallback => param.kind.accepts fallback.toArgument
  | _ => true

theorem Param.acceptsFallback_iff (param : Param) : param.acceptsFallback = true ↔
    ∀ fallback, param.arity = .optional fallback →
      param.kind.accepts fallback.toArgument = true := by
  unfold acceptsFallback
  cases param.arity with
  | optional fallback =>
    constructor
    · rintro h _ ⟨⟩
      exact h
    · exact fun h => h fallback rfl
  | _ => simp

instance (signature : Signature) : Decidable signature.Trailing :=
  inferInstanceAs (Decidable (∀ param ∈ signature.dropLast, param.isVariadic = false))

/-- Soundness is checked parameter by parameter. -/
instance (signature : Signature) : Decidable signature.Sound :=
  decidable_of_iff ((∀ param ∈ signature, param.acceptsFallback = true) ∧
      ∀ param ∈ signature.dropLast, param.isVariadic = false)
    ⟨fun h => ⟨fun param hparam => param.acceptsFallback_iff.mp (h.1 param hparam), h.2⟩,
      fun h => ⟨fun param hparam => param.acceptsFallback_iff.mpr (h.fallbacks param hparam),
        h.trailing⟩⟩

/-- The signatures of the built-in types are sound. -/
theorem Catalog.sound : ∀ type ∈ types, type.signature.Sound := by
  decide

/-! ## Identities of equal calls -/

namespace Evaluation

variable {ev : Evaluation} {s t : BuildState} {f : Feature}

/-- A construction whose arguments are remembered is identified by them. -/
theorem hash_gives {args : List ResolvedArgument} {h : StructuralHash}
    (hargs : (ev.arguments f).Recalls ev s args)
    (hh : h = (Description.feature f.typeName args).hash) (n : Nat) (ht : t.Remembers s)
    (hidle : (t.feature f).hashing = false)
    (hknown : ∀ h', (t.feature f).hash? = some h' → h' = h) :
    (Plan.hash none f).Gives (ev.answer n) t h := by
  refine .demand ?_ (.inl rfl)
  cases n with
  | zero => exact .inr rfl
  | succ n =>
    rw [answer, answerOver]
    have hcases := hashOver_cases ev (ev.answer n) f t
    revert hcases
    generalize ev.hashOver (ev.answer n) f t = r
    obtain ⟨o, t'⟩ := r
    intro hcases
    have hrem : (t.setHashing f true).Remembers s :=
      ht.trans (.update t f (fun _ hh => hh) fun _ hr => hr)
    have hgives := hargs.gives n hrem
    unfold Plan.Gives at hgives
    cases hcases with
    | remembered hh' => exact .inl (congrArg _ (hknown _ hh'))
    | halted _ hp =>
      cases hp with
      | entered hentered => cases hidle.symm.trans hentered
      | stopped _ hr =>
        rw [hr] at hgives
        exact .inr (congrArg _ (Except.error.inj (hgives.resolve_left fun h => by cases h)))
    | computed _ hp =>
      cases hp with
      | finished _ hr =>
        rw [hr] at hgives
        obtain rfl := Except.ok.inj (hgives.resolve_right fun h => by cases h)
        exact .inl (congrArg _ hh.symm)

end Evaluation

namespace Workbench

variable {registry : Registry} {b : Workbench} {id : Nat} {f g : Feature}

/-- Once a construction has an identity, every construction of the same type with the same
arguments has the same one, and its arguments are evaluated to the same. -/
theorem Keeps.identity_of_arguments (h : b.Keeps registry id)
    (hf : f ∈ b.constructions id) (hg : g ∈ b.constructions id) (htype : f.typeName = g.typeName)
    (harguments : f.arguments = g.arguments) {hash : StructuralHash}
    (hanswer : (b.ask id (.identity f)).1 = .ok hash) :
    ((b.ask id (.identity f)).2.ask id (.identity g)).1 = .ok hash ∧
      ∃ args, (∀ x ∈ [f, g], ((b.shop.evaluation id).arguments x).Recalls (b.shop.evaluation id)
          (b.outcome id (.identity f)).2 args) ∧
        hash = (Description.feature f.typeName args).hash := by
  have hfsub : (Query.identity f).constructions ⊆ b.constructions id := h.closed.constructions hf
  have hgsub : (Query.identity g).constructions ⊆ b.constructions id := h.closed.constructions hg
  have hafter : (b.ask id (.identity f)).2.Keeps registry id := h.ask hfsub
  obtain ⟨hs, hrecalls⟩ := h.recollects_ask hfsub h.closed (List.Subset.refl _)
  obtain ⟨x, hx, hdone⟩ := (hrecalls hash hanswer).of_demand
  cases hdone
  obtain ⟨args, hargs, -, hhash⟩ := hs.identified f hf hash hx
  have hgargs := Evaluation.arguments_recalls harguments hargs
  refine ⟨?_, args, List.forall_mem_cons.mpr ⟨hargs, List.forall_mem_singleton.mpr hgargs⟩,
    hhash⟩
  -- What `g` has been identified by before is what its arguments are remembered to be.
  have hknown : ∀ h', ((b.outcome id (.identity f)).2.feature g).hash? = some h' → h' = hash := by
    intro h' hh'
    obtain ⟨args', hargs', -, hhash'⟩ := hs.identified g hg h' hh'
    rw [hhash', hargs'.unique hgargs, hhash, htype]
  have hgives := Evaluation.hash_gives hgargs (htype ▸ hhash)
    ((b.shop.evaluation id).depth (b.made id).length)
    ⟨fun h => h, fun h => h, List.Subset.refl _⟩
    ((h.resting.advances (b.outcome_advances id _)) g).1 hknown
  have hg' : (Query.identity g).constructions ⊆
      (b.ask id (.identity f)).2.constructions id :=
    List.Subset.trans hgsub (b.later_ask id _).constructions
  refine Or.resolve_right ?_ (hafter.ended hg')
  rw [ask_eq, outcome, evaluation_ask, state_ask]
  exact hgives

end Workbench

/-! ## Calls -/

/-- A call of a type gives a construction, whatever it is named later. -/
def FeatureType.Gives (type : FeatureType) (as : List Argument) (f : Feature) : Prop :=
  type.construct as f.origin = .ok f.unnamed

namespace FeatureType

variable {type : FeatureType} {as out : List Argument} {f : Feature}

theorem construct_declared (hchecked : type.checked = .declared)
    (hbind : type.signature.bind as = .ok out) (origin : Origin) :
    type.construct as origin = .ok (.construct type.name type.signature out origin none) := by
  unfold construct
  simp only [hchecked, pure_bind, hbind]
  rfl

/-- The construction has the arguments that are bound. -/
theorem Gives.of_bind (h : type.Gives as f) (hchecked : type.checked = .declared)
    (hbind : type.signature.bind as = .ok out) :
    f.typeName = type.name ∧ f.arguments = out := by
  unfold Gives at h
  rw [construct_declared hchecked hbind] at h
  cases f
  cases Except.ok.inj h
  exact ⟨rfl, rfl⟩

end FeatureType

namespace Signature

/-- What a call leaves out is explicit. The bound arguments are the given ones and then the
fallbacks of the optional parameters that were left out, each of the kind that its parameter
accepts; binding them again gives them again, and so does binding the given ones with some of
the fallbacks written out. All these calls give constructions whose arguments are evaluated to
the same, with one identity. Arguments are refused exactly for a kind that is not accepted, a
required parameter or a variadic minimum that is not met, or for being left over. -/
theorem omitted_explicit {signature : Signature} (h : signature.Sound) (as : List Argument) :
    (∀ out, signature.bind as = .ok out →
      out = as ++ signature.omitted as.length ∧
      (∀ i a, out[i]? = some a →
        ∃ param, signature.paramAt? i = some param ∧ param.kind.accepts a = true) ∧
      signature.bind out = .ok out ∧
      (∀ more, more <+: signature.omitted as.length → signature.bind (as ++ more) = .ok out) ∧
      ∀ type : FeatureType, type.signature = signature → type.checked = .declared →
        ∀ more more', more <+: signature.omitted as.length →
          more' <+: signature.omitted as.length →
        (∀ origin, type.construct (as ++ more) origin =
          .ok (.construct type.name signature out origin none)) ∧
        ∀ (registries : Nat → Registry) (backend : Backend) (scope : CacheScope) (b : Workbench),
          Workbench.Reachable registries backend scope b →
        ∀ id, ∀ f ∈ b.constructions id, ∀ g ∈ b.constructions id,
          type.Gives (as ++ more) f → type.Gives (as ++ more') g →
        ∀ hash, (b.ask id (.identity f)).1 = .ok hash →
          ((b.ask id (.identity f)).2.ask id (.identity g)).1 = .ok hash ∧
          ∃ args, (∀ x ∈ [f, g], ((b.shop.evaluation id).arguments x).Recalls
              (b.shop.evaluation id) (b.outcome id (.identity f)).2 args) ∧
            hash = (Description.feature type.name args).hash) ∧
    ((∃ e, signature.bind as = .error e) ↔ signature.Misfit as) := by
  refine ⟨fun out hout => ⟨bind_eq_append h hout, fun i a ha => bind_accepts h hout ha,
    bind_bound h hout, fun more hmore => bind_extended h hout hmore, ?_⟩, bind_eq_error_iff h⟩
  rintro type rfl hchecked more more' hmore hmore'
  have hbind := bind_extended h hout hmore
  have hbind' := bind_extended h hout hmore'
  refine ⟨FeatureType.construct_declared hchecked hbind, ?_⟩
  intro registries backend scope b hb id f hf g hg hgives hgives' hash hanswer
  obtain ⟨htype, harguments⟩ := hgives.of_bind hchecked hbind
  obtain ⟨htype', harguments'⟩ := hgives'.of_bind hchecked hbind'
  rw [← htype]
  exact (hb.kept.sessions id).identity_of_arguments hf hg (htype.trans htype'.symm)
    (harguments.trans harguments'.symm) hanswer

end Signature

/-! ## A cylinder -/

namespace Catalog

/-- The arguments of a cylinder that is not a tube. -/
def rod : List Argument :=
  [.vector (.literal (.literal 0) (.literal 0) (.literal 0)),
    .vector (.literal (.literal 0) (.literal 0) (.literal 1)), .scalar (.literal 2)]

/-- A cylinder of bound arguments. -/
def tube (origin : Origin) : Feature :=
  .construct "Cylinder" cylinder.signature (rod ++ [.scalar (.literal 0.0)]) origin none

/-- Two cylinders. -/
def tubes : Workbench :=
  ((Workbench.create registry (Symbolic.backend []) .session).make 0 [tube (.made 0)]).make 0
    [tube (.made 1)]

theorem tubes_reachable :
    Workbench.Reachable (fun _ => registry) (Symbolic.backend []) .session tubes :=
  .tail (.single (.works (.make_one rfl (List.nil_subset _))))
    (.works (.make_one rfl (List.nil_subset _)))

set_option maxRecDepth 100000 in
/-- The inner diameter is left out of one call and written in the other. -/
theorem omitted_explicit_tubes : ∃ hash,
    (tubes.ask 0 (.identity (tube (.made 0)))).1 = .ok hash ∧
      ((tubes.ask 0 (.identity (tube (.made 0)))).2.ask 0 (.identity (tube (.made 1)))).1 =
        .ok hash := by
  have hok : (tubes.ask 0 (.identity (tube (.made 0)))).1.isOk = true := by decide +kernel
  obtain ⟨hash, hhash⟩ := exists_ok hok
  have hsound : cylinder.signature.Sound := sound cylinder (by decide)
  obtain ⟨-, -, -, -, hcalls⟩ := (Signature.omitted_explicit hsound rod).1 _ rfl
  obtain ⟨-, hsame⟩ := hcalls cylinder rfl rfl [] [.scalar (.literal 0.0)] List.nil_prefix
    (List.prefix_refl _)
  have hfirst : tube (.made 0) ∈ tubes.constructions 0 := List.mem_cons_self
  have hsecond : tube (.made 1) ∈ tubes.constructions 0 :=
    List.mem_cons_of_mem _ List.mem_cons_self
  exact ⟨hash, hhash, (hsame _ _ _ tubes tubes_reachable 0 _ hfirst _ hsecond rfl rfl
    hash hhash).1⟩

end Catalog

end PartScript
