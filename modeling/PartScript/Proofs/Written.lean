/-
  What is written in a phrase: its constructions begin at different places of the text, they
  have the signatures of their registered types, and the names that it uses as values of a
  kind are bound to values of that kind before it.
-/
import PartScript.Grammar.Parse
import PartScript.Proofs.Parsing
import PartScript.Proofs.Symbols

namespace PartScript

/-! ## Values in sequence -/

theorem ok_of_bind {ε α β : Type} {x : Except ε α} {f : α → Except ε β} {b : β}
    (h : (x >>= f) = .ok b) : ∃ a, x = .ok a ∧ f a = .ok b := by
  cases x with
  | error e => cases h
  | ok a => exact ⟨a, rfl, h⟩

theorem ok_of_map {ε α β : Type} {x : Except ε α} {f : α → β} {b : β} (h : f <$> x = .ok b) :
    ∃ a, x = .ok a ∧ f a = b := by
  cases x with
  | error e => cases h
  | ok a => exact ⟨a, rfl, Except.ok.inj h⟩

/-! ## Signatures of constructions -/

/-- The signature of a construction of a type with a number of arguments. -/
def FeatureType.signatureOf (type : FeatureType) (count : Nat) : Signature :=
  match type.checked with
  | .declared => type.signature
  | .placement => if count = 2 then Placement.onPlane else Placement.inFrame

/-- A construction of a registered type, with the signature of that type. -/
def Feature.Registered (registry : Registry) (f : Feature) : Prop :=
  ∃ type, registry.find? f.typeName = some type ∧
    f.signature = type.signatureOf f.arguments.length

/-- The type and the number of arguments determine the signature. -/
theorem Feature.Registered.signature_eq {registry : Registry} {f g : Feature}
    (hf : f.Registered registry) (hg : g.Registered registry) (hname : f.typeName = g.typeName)
    (hlen : f.arguments.length = g.arguments.length) : f.signature = g.signature := by
  obtain ⟨type, hfind, hsig⟩ := hf
  obtain ⟨type', hfind', hsig'⟩ := hg
  rw [← hname, hfind] at hfind'
  obtain rfl := Option.some.inj hfind'
  rw [hsig, hsig', hlen]

namespace Argument

theorem constructionsIn_eq (as : List Argument) :
    constructionsIn as = as.flatMap Argument.constructions := by
  induction as with
  | nil => rfl
  | cons a as ih => rw [constructionsIn, ih, List.flatMap_cons]

theorem symbolsIn_eq (as : List Argument) : symbolsIn as = as.flatMap Argument.symbols := by
  induction as with
  | nil => rfl
  | cons a as ih => rw [symbolsIn, ih, List.flatMap_cons]

end Argument

namespace Signature

section OneParameter

variable {param : Param} {params : Signature} {a : Argument} {rest out extra : List Argument}
  {fallback : Fallback}

theorem check_ok_iff : check param a = .ok () ↔ param.kind.accepts a = true := by
  unfold check
  split
  · next h => simp [h]
  · next h => simp [h]

/-- A parameter that is not variadic takes the first argument. -/
theorem bindFrom_cons_ok_iff (hparam : param.isVariadic = false) :
    bindFrom (param :: params) (a :: rest) = .ok (out, extra) ↔
      param.kind.accepts a = true ∧
        ∃ bound, bindFrom params rest = .ok (bound, extra) ∧ out = a :: bound := by
  have hstep : bindFrom (param :: params) (a :: rest) =
      (check param a >>= fun _ => (fun p => (a :: p.1, p.2)) <$> bindFrom params rest) := by
    cases harity : param.arity with
    | required =>
      simp only [bindFrom, harity]
      rfl
    | optional fallback =>
      simp only [bindFrom, harity]
      rfl
    | variadic least =>
      rw [Param.isVariadic, harity] at hparam
      cases hparam
  rw [hstep, ← check_ok_iff]
  constructor
  · intro h
    obtain ⟨_, hcheck, h⟩ := ok_of_bind h
    obtain ⟨⟨bound, left⟩, hrest, h⟩ := ok_of_map h
    cases h
    exact ⟨hcheck, bound, hrest, rfl⟩
  · rintro ⟨hcheck, bound, hrest, rfl⟩
    rw [hcheck, hrest]
    rfl

/-- The fallback of an optional parameter stands in when no arguments are left. -/
theorem bindFrom_omitted_ok_iff (hparam : param.arity = .optional fallback) :
    bindFrom (param :: params) [] = .ok (out, extra) ↔
      ∃ bound, bindFrom params [] = .ok (bound, extra) ∧ out = fallback.toArgument :: bound := by
  simp only [bindFrom, hparam]
  constructor
  · intro h
    obtain ⟨⟨bound, left⟩, hrest, h⟩ := ok_of_map h
    cases h
    exact ⟨bound, hrest, rfl⟩
  · rintro ⟨bound, hrest, rfl⟩
    rw [hrest]
    rfl

theorem bindFrom_missing (hparam : param.arity = .required) :
    bindFrom (param :: params) [] = .error (.missing param.name) := by
  simp only [bindFrom, hparam]

end OneParameter

section Parts

variable {β : Type} {parts : Argument → List β}
  (hparts : ∀ fallback : Fallback, parts fallback.toArgument = [])
include hparts

/-- Binding loses nothing that arguments are made of, and what stands in for an omitted one
adds nothing. -/
theorem bindFrom_parts {signature : Signature} {as bound extra : List Argument}
    (h : signature.bindFrom as = .ok (bound, extra)) :
    bound.flatMap parts ++ extra.flatMap parts = as.flatMap parts := by
  induction signature generalizing as bound extra with
  | nil =>
    rw [bindFrom] at h
    cases h
    rfl
  | cons param params ih =>
    have htaken : ∀ {a : Argument} {rest : List Argument}, param.isVariadic = false →
        bindFrom (param :: params) (a :: rest) = .ok (bound, extra) →
        bound.flatMap parts ++ extra.flatMap parts = (a :: rest).flatMap parts := by
      intro a rest hvariadic h
      obtain ⟨-, bound, hbound, rfl⟩ := (bindFrom_cons_ok_iff hvariadic).mp h
      rw [List.flatMap_cons, List.flatMap_cons, List.append_assoc, ih hbound]
    cases harity : param.arity with
    | variadic least =>
      simp only [bindFrom, harity] at h
      obtain ⟨_, -, h⟩ := ok_of_bind h
      have hmore : ∀ {x : Except ArgumentError (List Argument × List Argument)},
          (x >>= fun t => pure (as ++ t.1, t.2)) = .ok (bound, extra) →
          x = bindFrom params [] →
          bound.flatMap parts ++ extra.flatMap parts = as.flatMap parts := by
        intro x hx heq
        obtain ⟨t, ht, hx⟩ := ok_of_bind hx
        cases hx
        rw [List.flatMap_append, List.append_assoc, ih (heq.symm.trans ht)]
        exact List.append_nil _
      split at h
      · obtain ⟨_, hthrow, -⟩ := ok_of_bind h
        cases hthrow
      · exact hmore h rfl
    | required =>
      cases as with
      | nil =>
        rw [bindFrom_missing harity] at h
        cases h
      | cons a rest => exact htaken (by rw [Param.isVariadic, harity]) h
    | optional fallback =>
      cases as with
      | nil =>
        obtain ⟨bound, hbound, rfl⟩ := (bindFrom_omitted_ok_iff harity).mp h
        rw [List.flatMap_cons, hparts, List.nil_append]
        exact ih hbound
      | cons a rest => exact htaken (by rw [Param.isVariadic, harity]) h

end Parts

/-- Required parameters take one argument each. -/
theorem bindFrom_length {signature : Signature} (hrequired : ∀ p ∈ signature, p.arity = .required)
    {as bound extra : List Argument} (h : signature.bindFrom as = .ok (bound, extra)) :
    bound.length = signature.length := by
  induction signature generalizing as bound extra with
  | nil =>
    rw [bindFrom] at h
    cases h
    rfl
  | cons param params ih =>
    have harity := hrequired param List.mem_cons_self
    cases as with
    | nil =>
      rw [bindFrom_missing harity] at h
      cases h
    | cons argument rest =>
      have hvariadic : param.isVariadic = false := by rw [Param.isVariadic, harity]
      obtain ⟨-, bound, hbound, rfl⟩ := (bindFrom_cons_ok_iff hvariadic).mp h
      have hmore := ih (fun p hp => hrequired p (List.mem_cons_of_mem param hp)) hbound
      rw [List.length_cons, List.length_cons, hmore]

theorem bind_eq {signature : Signature} {as bound : List Argument}
    (h : signature.bind as = .ok bound) : signature.bindFrom as = .ok (bound, []) := by
  unfold bind at h
  obtain ⟨⟨more, left⟩, hfrom, h⟩ := ok_of_bind h
  simp only at h
  split at h
  · next hleft =>
    cases h
    rw [hfrom, List.isEmpty_iff.mp hleft]
  · cases h

/-- A call holds what its bound arguments are made of. -/
theorem bind_parts {β : Type} {parts : Argument → List β}
    (hparts : ∀ fallback : Fallback, parts fallback.toArgument = []) {signature : Signature}
    {as bound : List Argument} (h : signature.bind as = .ok bound) :
    bound.flatMap parts = as.flatMap parts := by
  have hfrom := bindFrom_parts hparts (bind_eq h)
  rwa [List.flatMap_nil, List.append_nil] at hfrom

theorem bind_constructions {signature : Signature} {as bound : List Argument}
    (h : signature.bind as = .ok bound) :
    Argument.constructionsIn bound = Argument.constructionsIn as := by
  rw [Argument.constructionsIn_eq, Argument.constructionsIn_eq]
  exact bind_parts (fun fallback => by cases fallback <;> rfl) h

theorem bind_symbols {signature : Signature} {as bound : List Argument}
    (h : signature.bind as = .ok bound) : Argument.symbolsIn bound = Argument.symbolsIn as := by
  rw [Argument.symbolsIn_eq, Argument.symbolsIn_eq]
  exact bind_parts (fun fallback => by cases fallback <;> rfl) h

end Signature

/-- A construction has the type, the origin and the signature that it was made with, and
holds the constructions and the symbols in its arguments. -/
theorem FeatureType.construct_eq {type : FeatureType} {as : List Argument} {origin : Origin}
    {f : Feature} (h : type.construct as origin = .ok f) :
    f.typeName = type.name ∧ f.origin = origin ∧
      f.signature = type.signatureOf f.arguments.length ∧
      f.constructions = f :: Argument.constructionsIn as ∧
      f.symbols = Argument.symbolsIn as := by
  -- The signature is the one that the form of the call asks for.
  have hbound : ∀ {signature : Signature},
      (signature.bind as >>= fun bound =>
        pure (Feature.construct type.name signature bound origin none)) = .ok f →
      (∀ bound, signature.bind as = .ok bound → signature = type.signatureOf bound.length) →
      f.typeName = type.name ∧ f.origin = origin ∧
        f.signature = type.signatureOf f.arguments.length ∧
        f.constructions = f :: Argument.constructionsIn as ∧
        f.symbols = Argument.symbolsIn as := by
    intro signature h hsignature
    obtain ⟨bound, hbind, h⟩ := ok_of_bind h
    cases h
    refine ⟨rfl, rfl, hsignature bound hbind, ?_, ?_⟩
    · rw [Feature.constructions, Signature.bind_constructions hbind]
    · rw [Feature.symbols, Signature.bind_symbols hbind]
  unfold construct at h
  cases hchecked : type.checked with
  | declared =>
    simp only [hchecked] at h
    refine hbound h fun bound _ => ?_
    rw [signatureOf, hchecked]
  | placement =>
    simp only [hchecked] at h
    obtain ⟨signature, hsignature, h⟩ := ok_of_bind h
    refine hbound h fun bound hbind => ?_
    have hlen : (∀ p ∈ signature, p.arity = .required) → bound.length = signature.length :=
      fun hrequired => Signature.bindFrom_length hrequired (Signature.bind_eq hbind)
    unfold Placement.signatureFor at hsignature
    simp only [signatureOf, hchecked]
    split at hsignature
    · cases hsignature
    · cases hsignature
    · obtain rfl := Except.ok.inj hsignature
      have htwo : bound.length = 2 := hlen (by decide)
      rw [if_pos htwo]
    · obtain rfl := Except.ok.inj hsignature
      have hfour : bound.length = 4 := hlen (by decide)
      rw [if_neg (by omega)]

/-! ## Phrases -/

/-- What is written between two places of a text: constructions that begin there, each at a
place of its own, with the signatures of their types, and names that are bound already, each
to a value of the kind as which it is used. -/
structure Written (g : Grammar) (lo hi : Nat) (fs : List Feature) (symbols : Symbols) : Prop where
  le : lo ≤ hi
  origins : ∀ f ∈ fs, ∃ span : SourceSpan, f.origin = .text g.model.sources span ∧
    lo ≤ span.start ∧ span.start < hi
  distinct : (fs.map (·.origin)).Nodup
  registered : ∀ f ∈ fs, f.Registered g.registry
  bound : ∀ kind name, (kind, name) ∈ symbols → g.model.kindOf? name = some kind

namespace Written

variable {g : Grammar} {lo lo' mid mid' hi hi' : Nat} {fs fs' : List Feature}
  {symbols symbols' : Symbols}

theorem nothing (h : lo ≤ hi) : Written g lo hi [] [] :=
  ⟨h, by simp, List.nodup_nil, by simp, by simp⟩

/-- A name that is bound to a value of a kind. -/
theorem symbol (h : lo ≤ hi) {kind : SymbolKind} {name : String}
    (hname : g.model.kindOf? name = some kind) : Written g lo hi [] [(kind, name)] := by
  refine ⟨h, by simp, List.nodup_nil, by simp, ?_⟩
  intro kind' name' hmem
  cases List.mem_singleton.mp hmem
  exact hname

theorem declared (h : Written g lo hi fs symbols) : symbols.DeclaredBy g.model.bindings := by
  intro kind name hname
  obtain ⟨b, hb, hkind⟩ := Option.map_eq_some_iff.mp (h.bound kind name hname)
  exact ⟨b, (Model.mem_of_binding? hb).1, (Model.mem_of_binding? hb).2, hkind⟩

theorem widen (h : Written g lo hi fs symbols) (hlo : lo' ≤ lo) (hhi : hi ≤ hi') :
    Written g lo' hi' fs symbols := by
  refine ⟨Nat.le_trans hlo (Nat.le_trans h.le hhi), fun f hf => ?_, h.distinct, h.registered,
    h.bound⟩
  obtain ⟨span, horigin, hle, hlt⟩ := h.origins f hf
  exact ⟨span, horigin, Nat.le_trans hlo hle, Nat.lt_of_lt_of_le hlt hhi⟩

/-- One phrase after another. -/
theorem append (h : Written g lo mid fs symbols) (hmid : mid ≤ mid')
    (h' : Written g mid' hi fs' symbols') : Written g lo hi (fs ++ fs') (symbols ++ symbols') := by
  have hleft := h.widen (Nat.le_refl lo) (Nat.le_trans hmid h'.le)
  have hright := h'.widen (Nat.le_trans h.le hmid) (Nat.le_refl hi)
  refine ⟨hleft.le, fun f hf => ?_, ?_, fun f hf => ?_, fun kind name hmem => ?_⟩
  · exact (List.mem_append.mp hf).elim (hleft.origins f) (hright.origins f)
  · rw [List.map_append]
    refine List.Nodup.append h.distinct h'.distinct fun origin ho ho' => ?_
    obtain ⟨f, hf, rfl⟩ := List.mem_map.mp ho
    obtain ⟨f', hf', heq⟩ := List.mem_map.mp ho'
    obtain ⟨span, horigin, -, hlt⟩ := h.origins f hf
    obtain ⟨span', horigin', hle, -⟩ := h'.origins f' hf'
    rw [horigin, horigin'] at heq
    obtain ⟨-, rfl⟩ := Origin.text.inj heq
    omega
  · exact (List.mem_append.mp hf).elim (h.registered f) (h'.registered f)
  · exact (List.mem_append.mp hmem).elim (h.bound kind name) (h'.bound kind name)

/-- Phrases may be listed in another order than they are written. -/
theorem swap (h : Written g lo hi (fs ++ fs') (symbols ++ symbols')) :
    Written g lo hi (fs' ++ fs) (symbols' ++ symbols) := by
  refine ⟨h.le, fun f hf => h.origins f (List.mem_append.mpr (List.mem_append.mp hf).symm), ?_,
    fun f hf => h.registered f (List.mem_append.mpr (List.mem_append.mp hf).symm),
    fun kind name hmem =>
      h.bound kind name (List.mem_append.mpr (List.mem_append.mp hmem).symm)⟩
  have hdistinct := h.distinct
  rw [List.map_append] at hdistinct ⊢
  exact (List.perm_append_comm.nodup_iff).mp hdistinct

/-- A construction that begins before all those in its arguments. -/
theorem construct (h : Written g mid hi fs symbols) {f : Feature} {span : SourceSpan}
    (horigin : f.origin = .text g.model.sources span) (hlo : lo ≤ span.start)
    (hmid : span.start < mid) (hregistered : f.Registered g.registry) :
    Written g lo hi (f :: fs) symbols := by
  have hle := h.le
  refine ⟨by omega, fun f' hf' => ?_, ?_, ?_, h.bound⟩
  · rcases List.mem_cons.mp hf' with rfl | hf'
    · exact ⟨span, horigin, hlo, by omega⟩
    · obtain ⟨span', horigin', hle', hlt'⟩ := h.origins f' hf'
      exact ⟨span', horigin', by omega, hlt'⟩
  · rw [List.map_cons, List.nodup_cons]
    refine ⟨fun hmem => ?_, h.distinct⟩
    obtain ⟨f', hf', heq⟩ := List.mem_map.mp hmem
    obtain ⟨span', horigin', hle', -⟩ := h.origins f' hf'
    rw [horigin, horigin'] at heq
    obtain ⟨-, rfl⟩ := Origin.text.inj heq
    omega
  · exact List.forall_mem_cons.mpr ⟨hregistered, h.registered⟩

end Written

end PartScript
