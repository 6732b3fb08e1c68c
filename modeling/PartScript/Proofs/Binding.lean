/-
  What binding a call to a signature gives. The arguments are kept in order and what was left
  out is written out behind them, so binding again, or binding with some of it written out,
  gives the same; and a call is refused for a kind, a missing argument, too few or too many.
-/
import PartScript.Proofs.Written

namespace PartScript

/-! ## Signatures -/

namespace Signature

/-- The parameter that takes the argument at a position. A trailing variadic parameter takes
all arguments that are left. -/
def paramAt? (signature : Signature) (i : Nat) : Option Param :=
  signature[i]?.or (signature.getLast?.filter Param.isVariadic)

/-- What stands in for the optional parameters of a signature, in order. -/
def fallbacks (signature : Signature) : List Argument :=
  signature.filterMap fun param =>
    match param.arity with
    | .optional fallback => some fallback.toArgument
    | _ => none

/-- What stands in for the optional parameters that a call of `count` arguments leaves out. -/
def omitted (signature : Signature) (count : Nat) : List Argument :=
  fallbacks (signature.drop count)

/-- Only the last parameter is variadic. -/
def Trailing (signature : Signature) : Prop :=
  ∀ param ∈ signature.dropLast, param.isVariadic = false

/-- Parameters accept their own fallbacks, and only the last one is variadic. -/
structure Sound (signature : Signature) : Prop where
  fallbacks : ∀ param ∈ signature, ∀ fallback, param.arity = .optional fallback →
    param.kind.accepts fallback.toArgument = true
  trailing : signature.Trailing

/-- Why arguments cannot be bound. -/
inductive Misfit (signature : Signature) (as : List Argument) : Prop where
  | wrongKind {i : Nat} {a : Argument} {param : Param} : as[i]? = some a →
      signature.paramAt? i = some param → param.kind.accepts a = false → Misfit signature as
  | missing {i : Nat} {param : Param} : signature[i]? = some param → param.arity = .required →
      as.length ≤ i → Misfit signature as
  | tooFew {i : Nat} {param : Param} {least : Nat} : signature[i]? = some param →
      param.arity = .variadic least → as.length - i < least → Misfit signature as
  | leftOver {i : Nat} {a : Argument} : as[i]? = some a → signature.paramAt? i = none →
      Misfit signature as

variable {param : Param} {params : Signature} {a : Argument} {as rest out extra : List Argument}
  {fallback : Fallback} {least : Nat}

theorem Trailing.tail (h : Trailing (param :: params)) : Trailing params := by
  intro p hp
  cases params with
  | nil => cases hp
  | cons q qs => exact h p (List.mem_cons_of_mem param hp)

theorem mem_dropLast {signature : Signature} {i : Nat} (hparam : signature[i]? = some param)
    (hi : i < signature.length - 1) : param ∈ signature.dropLast := by
  rw [List.dropLast_eq_take]
  refine List.mem_of_getElem? (i := i) ?_
  rwa [List.getElem?_take_of_lt hi]

/-- A variadic parameter is the last one. -/
theorem Trailing.nil_of_variadic (h : Trailing (param :: params))
    (hparam : param.arity = .variadic least) : params = [] := by
  cases params with
  | nil => rfl
  | cons q qs =>
    have hnot := h param List.mem_cons_self
    rw [Param.isVariadic, hparam] at hnot
    cases hnot

theorem paramAt?_zero : paramAt? (param :: params) 0 = some param := rfl

theorem paramAt?_succ (hparam : param.isVariadic = false) (i : Nat) :
    paramAt? (param :: params) (i + 1) = paramAt? params i := by
  cases params with
  | nil => simp [paramAt?, hparam]
  | cons q qs => simp [paramAt?]

/-- A variadic parameter takes every argument. -/
theorem paramAt?_variadic (hparam : param.arity = .variadic least) (i : Nat) :
    paramAt? [param] i = some param := by
  cases i with
  | zero => rfl
  | succ i => simp [paramAt?, Param.isVariadic, hparam]

/-! ## One parameter -/

theorem checkAll_ok_iff : as.forM (check param) = .ok () ↔
    ∀ a ∈ as, param.kind.accepts a = true := by
  induction as with
  | nil => exact ⟨fun _ => nofun, fun _ => rfl⟩
  | cons a as ih =>
    rw [List.forall_mem_cons, ← ih, ← check_ok_iff]
    constructor
    · intro h
      obtain ⟨_, hcheck, hrest⟩ := ok_of_bind h
      exact ⟨hcheck, hrest⟩
    · rintro ⟨hcheck, hrest⟩
      show (check param a >>= fun _ => as.forM (check param)) = .ok ()
      rw [hcheck]
      exact hrest

/-- A variadic parameter takes all arguments, if there are enough of its kind. -/
theorem bindFrom_variadic_ok_iff (hparam : param.arity = .variadic least) :
    bindFrom [param] as = .ok (out, extra) ↔
      (∀ a ∈ as, param.kind.accepts a = true) ∧ least ≤ as.length ∧ out = as ∧ extra = [] := by
  rw [← checkAll_ok_iff]
  simp only [bindFrom, hparam]
  constructor
  · intro h
    obtain ⟨_, hcheck, h⟩ := ok_of_bind h
    split at h
    · obtain ⟨_, hthrow, -⟩ := ok_of_bind h
      cases hthrow
    · next hleast =>
      cases h
      exact ⟨hcheck, Nat.not_lt.mp hleast, List.append_nil as, rfl⟩
  · rintro ⟨hcheck, hleast, rfl, rfl⟩
    rw [hcheck, if_neg (Nat.not_lt.mpr hleast)]
    show Except.ok (out ++ [], []) = _
    rw [List.append_nil]

/-! ## What fits -/

theorem misfit_nil_iff : Misfit [] as ↔ as ≠ [] := by
  constructor
  · rintro (⟨-, hp, -⟩ | ⟨hp, -, -⟩ | ⟨hp, -, -⟩ | ⟨ha, -⟩) rfl
    all_goals first | cases hp | cases ha
  · intro has
    cases as with
    | nil => exact absurd rfl has
    | cons a rest => exact .leftOver (i := 0) rfl rfl

theorem misfit_cons_iff (hparam : param.isVariadic = false) :
    Misfit (param :: params) (a :: rest) ↔
      param.kind.accepts a = false ∨ Misfit params rest := by
  constructor
  · intro h
    cases h with
    | @wrongKind i b p hb hp hkind =>
      cases i with
      | zero =>
        cases hb
        cases hp
        exact .inl hkind
      | succ i => exact .inr (.wrongKind hb (paramAt?_succ hparam i ▸ hp) hkind)
    | @missing i p hp hrequired hlen =>
      cases i with
      | zero => cases hlen
      | succ i => exact .inr (.missing hp hrequired (Nat.le_of_succ_le_succ hlen))
    | @tooFew i p least hp hvariadic hlen =>
      cases i with
      | zero =>
        cases hp
        rw [Param.isVariadic, hvariadic] at hparam
        cases hparam
      | succ i =>
        rw [List.length_cons, Nat.add_sub_add_right] at hlen
        exact .inr (.tooFew hp hvariadic hlen)
    | @leftOver i b hb hp =>
      cases i with
      | zero => cases hp
      | succ i => exact .inr (.leftOver hb (paramAt?_succ hparam i ▸ hp))
  · rintro (hkind | h)
    · exact .wrongKind (i := 0) rfl rfl hkind
    · cases h with
      | @wrongKind i b p hb hp hkind =>
        exact .wrongKind (i := i + 1) hb ((paramAt?_succ hparam i).trans hp) hkind
      | @missing i p hp hrequired hlen =>
        exact .missing (i := i + 1) hp hrequired (Nat.succ_le_succ hlen)
      | @tooFew i p least hp hvariadic hlen =>
        refine .tooFew (i := i + 1) hp hvariadic ?_
        rwa [List.length_cons, Nat.add_sub_add_right]
      | @leftOver i b hb hp =>
        exact .leftOver (i := i + 1) hb ((paramAt?_succ hparam i).trans hp)

theorem misfit_missing (hparam : param.arity = .required) : Misfit (param :: params) [] :=
  .missing (i := 0) rfl hparam (Nat.le_refl 0)

theorem misfit_omitted_iff (hparam : param.arity = .optional fallback) :
    Misfit (param :: params) [] ↔ Misfit params [] := by
  constructor
  · intro h
    cases h with
    | wrongKind hb => cases hb
    | @missing i p hp hrequired hlen =>
      cases i with
      | zero =>
        cases hp
        cases hrequired.symm.trans hparam
      | succ i => exact .missing hp hrequired (Nat.zero_le i)
    | @tooFew i p least hp hvariadic hlen =>
      cases i with
      | zero =>
        cases hp
        cases hvariadic.symm.trans hparam
      | succ i => exact .tooFew hp hvariadic (by simpa using hlen)
    | leftOver hb => cases hb
  · intro h
    cases h with
    | wrongKind hb => cases hb
    | @missing i p hp hrequired hlen =>
      exact .missing (i := i + 1) hp hrequired (Nat.zero_le (i + 1))
    | @tooFew i p least hp hvariadic hlen =>
      exact .tooFew (i := i + 1) hp hvariadic (by simpa using hlen)
    | leftOver hb => cases hb

theorem misfit_variadic_iff (hparam : param.arity = .variadic least) :
    Misfit [param] as ↔
      (∃ a ∈ as, param.kind.accepts a = false) ∨ as.length < least := by
  constructor
  · intro h
    cases h with
    | @wrongKind i b p hb hp hkind =>
      rw [paramAt?_variadic hparam] at hp
      cases hp
      exact .inl ⟨b, List.mem_of_getElem? hb, hkind⟩
    | @missing i p hp hrequired hlen =>
      cases i with
      | zero =>
        cases hp
        cases hrequired.symm.trans hparam
      | succ i => cases hp
    | @tooFew i p least' hp hvariadic hlen =>
      cases i with
      | zero =>
        cases hp
        cases hvariadic.symm.trans hparam
        exact .inr hlen
      | succ i => cases hp
    | leftOver hb hp =>
      rw [paramAt?_variadic hparam] at hp
      cases hp
  · rintro (⟨a, ha, hkind⟩ | hlen)
    · obtain ⟨i, hi⟩ := List.getElem?_of_mem ha
      exact .wrongKind hi (paramAt?_variadic hparam i) hkind
    · exact .tooFew (i := 0) rfl hparam hlen

/-! ## All parameters -/

/-- Parameters and arguments are gone through together: a parameter takes an argument, or no
argument is left for it, or it is variadic and the last one. -/
theorem Trailing.induction
    {motive : (signature : Signature) → signature.Trailing → List Argument → Prop}
    (nil : ∀ h as, motive [] h as)
    (taken : ∀ {param params a rest} (h : Trailing (param :: params)), param.isVariadic = false →
      motive params h.tail rest → motive (param :: params) h (a :: rest))
    (missing : ∀ {param params} h, param.arity = .required → motive (param :: params) h [])
    (omitted : ∀ {param params fallback} (h : Trailing (param :: params)),
      param.arity = .optional fallback → motive params h.tail [] → motive (param :: params) h [])
    (variadic : ∀ {param least} h (as : List Argument), param.arity = .variadic least →
      motive [param] h as)
    (signature : Signature) (h : signature.Trailing) (as : List Argument) :
    motive signature h as := by
  induction signature generalizing as with
  | nil => exact nil h as
  | cons param params ih =>
    cases harity : param.arity with
    | required =>
      cases as with
      | nil => exact missing h harity
      | cons a rest => exact taken h (by rw [Param.isVariadic, harity]) (ih h.tail rest)
    | optional fallback =>
      cases as with
      | nil => exact omitted h harity (ih h.tail [])
      | cons a rest => exact taken h (by rw [Param.isVariadic, harity]) (ih h.tail rest)
    | variadic least =>
      obtain rfl := h.nil_of_variadic harity
      exact variadic h as harity

/-- Binding succeeds for what fits. -/
theorem bindFrom_ok_iff {signature : Signature} (h : signature.Trailing) (as : List Argument) :
    (∃ out, signature.bindFrom as = .ok (out, [])) ↔ ¬ signature.Misfit as := by
  induction signature, h, as using Trailing.induction with
  | nil _ as =>
    rw [misfit_nil_iff, not_not]
    constructor
    · rintro ⟨out, hout⟩
      cases hout
      rfl
    · rintro rfl
      exact ⟨[], rfl⟩
  | taken _ hparam ih =>
    rw [misfit_cons_iff hparam, not_or, Bool.not_eq_false, ← ih]
    simp only [bindFrom_cons_ok_iff hparam]
    constructor
    · rintro ⟨out, hkind, bound, hbound, -⟩
      exact ⟨hkind, bound, hbound⟩
    · rintro ⟨hkind, bound, hbound⟩
      exact ⟨_, hkind, bound, hbound, rfl⟩
  | missing _ hparam =>
    refine iff_of_false ?_ (not_not_intro (misfit_missing hparam))
    rintro ⟨out, hout⟩
    rw [bindFrom_missing hparam] at hout
    cases hout
  | omitted _ hparam ih =>
    rw [misfit_omitted_iff hparam, ← ih]
    simp only [bindFrom_omitted_ok_iff hparam]
    constructor
    · rintro ⟨out, bound, hbound, -⟩
      exact ⟨bound, hbound⟩
    · rintro ⟨bound, hbound⟩
      exact ⟨_, bound, hbound, rfl⟩
  | variadic _ as hparam =>
    simp only [misfit_variadic_iff hparam, bindFrom_variadic_ok_iff hparam]
    simp

theorem omitted_optional (hparam : param.arity = .optional fallback) :
    omitted (param :: params) 0 = fallback.toArgument :: omitted params 0 := by
  simp [omitted, fallbacks, hparam]

theorem omitted_variadic (hparam : param.arity = .variadic least) (count : Nat) :
    omitted [param] count = [] := by
  cases count <;> simp [omitted, fallbacks, hparam]

/-- What is bound is what was given and then what was left out. -/
theorem bindFrom_eq {signature : Signature} (h : signature.Trailing) (as : List Argument)
    {out : List Argument} (hout : signature.bindFrom as = .ok (out, [])) :
    out = as ++ signature.omitted as.length := by
  induction signature, h, as using Trailing.induction generalizing out with
  | nil _ as =>
    cases hout
    rfl
  | taken _ hparam ih =>
    obtain ⟨-, bound, hbound, rfl⟩ := (bindFrom_cons_ok_iff hparam).mp hout
    rw [List.cons_append, ih hbound]
    rfl
  | missing _ hparam =>
    rw [bindFrom_missing hparam] at hout
    cases hout
  | omitted _ hparam ih =>
    obtain ⟨bound, hbound, rfl⟩ := (bindFrom_omitted_ok_iff hparam).mp hout
    have hrest : bound = omitted _ 0 := ih hbound
    rw [List.length_nil, omitted_optional hparam, hrest]
    rfl
  | variadic _ as hparam =>
    obtain ⟨-, -, rfl, -⟩ := (bindFrom_variadic_ok_iff hparam).mp hout
    rw [omitted_variadic hparam, List.append_nil]

/-- Writing out some of what was left out changes nothing. -/
theorem bindFrom_extended {signature : Signature} (h : signature.Sound) (as : List Argument)
    {out more : List Argument} (hout : signature.bindFrom as = .ok (out, []))
    (hmore : more <+: signature.omitted as.length) :
    signature.bindFrom (as ++ more) = .ok (out, []) := by
  obtain ⟨hfallbacks, htrailing⟩ := h
  induction signature, htrailing, as using Trailing.induction generalizing out more with
  | nil _ as =>
    have hnil : more = [] := by simpa [omitted, fallbacks] using hmore
    rwa [hnil, List.append_nil]
  | taken _ hparam ih =>
    obtain ⟨hkind, bound, hbound, rfl⟩ := (bindFrom_cons_ok_iff hparam).mp hout
    have hrest := ih hbound hmore fun p hp => hfallbacks p (List.mem_cons_of_mem _ hp)
    exact (bindFrom_cons_ok_iff hparam).mpr ⟨hkind, bound, hrest, rfl⟩
  | missing _ hparam =>
    rw [bindFrom_missing hparam] at hout
    cases hout
  | @omitted param params fallback _ hparam ih =>
    rw [List.length_nil, omitted_optional hparam] at hmore
    cases more with
    | nil => exact hout
    | cons x xs =>
      -- The fallback is now taken as an argument, which its parameter accepts.
      obtain ⟨rfl, hxs⟩ := List.cons_prefix_cons.mp hmore
      obtain ⟨bound, hbound, rfl⟩ := (bindFrom_omitted_ok_iff hparam).mp hout
      have hkind := hfallbacks param List.mem_cons_self fallback hparam
      have hrest := ih hbound hxs fun p hp => hfallbacks p (List.mem_cons_of_mem _ hp)
      exact (bindFrom_cons_ok_iff (by rw [Param.isVariadic, hparam])).mpr
        ⟨hkind, bound, hrest, rfl⟩
  | variadic _ as hparam =>
    rw [omitted_variadic hparam, List.prefix_nil] at hmore
    rwa [hmore, List.append_nil]

/-! ## Calls -/

section Calls

variable {signature : Signature} {more : List Argument}

theorem bind_eq_ok_iff : signature.bind as = .ok out ↔ signature.bindFrom as = .ok (out, []) := by
  constructor
  · exact bind_eq
  · intro h
    rw [bind, h]
    rfl

theorem bind_eq_error_iff (h : signature.Sound) :
    (∃ e, signature.bind as = .error e) ↔ signature.Misfit as := by
  rw [← not_not (a := signature.Misfit as), ← bindFrom_ok_iff h.trailing as]
  simp only [← bind_eq_ok_iff]
  cases signature.bind as with
  | error e => simp
  | ok out => simp

theorem bind_extended (h : signature.Sound) (hout : signature.bind as = .ok out)
    (hmore : more <+: signature.omitted as.length) : signature.bind (as ++ more) = .ok out :=
  bind_eq_ok_iff.mpr (bindFrom_extended h as (bind_eq_ok_iff.mp hout) hmore)

theorem bind_eq_append (h : signature.Sound) (hout : signature.bind as = .ok out) :
    out = as ++ signature.omitted as.length :=
  bindFrom_eq h.trailing as (bind_eq_ok_iff.mp hout)

/-- What is bound is bound to itself. -/
theorem bind_bound (h : signature.Sound) (hout : signature.bind as = .ok out) :
    signature.bind out = .ok out := by
  have hself := bind_extended h hout (List.prefix_refl _)
  rwa [← bind_eq_append h hout] at hself

/-- Every argument that is bound is of the kind that its parameter accepts. -/
theorem bind_accepts (h : signature.Sound) (hout : signature.bind as = .ok out) {i : Nat}
    (ha : out[i]? = some a) :
    ∃ param, signature.paramAt? i = some param ∧ param.kind.accepts a = true := by
  have hfits := (bindFrom_ok_iff h.trailing out).mp ⟨out, bind_eq_ok_iff.mp (bind_bound h hout)⟩
  cases hparam : signature.paramAt? i with
  | none => exact absurd (.leftOver ha hparam) hfits
  | some param =>
    refine ⟨param, rfl, ?_⟩
    by_contra hkind
    exact hfits (.wrongKind ha hparam (Bool.eq_false_iff.mpr hkind))

end Calls

end Signature

end PartScript
