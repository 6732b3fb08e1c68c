/-
  Arguments as they are read and as they are accepted. The grammar reads the arguments of a call one
  after the other, each for the parameter at its position, and the list ends where no further one
  follows and none has to. The constructor of the type binds them to the same parameters. If a
  signature asks for nothing after what may be omitted, whatever is read fits: a call is refused
  while its arguments are read, where the one stands that does not fit, and never as a whole.
-/
import PartScript.Proofs.Binding
import PartScript.Proofs.Positions

namespace PartScript

open Grammar Grammar.Parser

/-! ## Signatures whose calls are read as they are bound -/

/-- Whether a parameter can be omitted for its fallback. -/
def Param.isOptional (param : Param) : Bool :=
  match param.arity with
  | .optional _ => true
  | _ => false

/-- Whether a parameter asks for an argument. -/
def Param.demands (param : Param) : Bool :=
  match param.arity with
  | .required => true
  | .optional _ => false
  | .variadic least => decide (0 < least)

namespace Signature

variable {signature : Signature} {param : Param} {i : Nat} {a : Argument} {as : List Argument}

/-- Only the last parameter is variadic, and none asks for an argument after an optional one. -/
structure Regular (signature : Signature) : Prop where
  trailing : signature.Trailing
  settled : signature.Pairwise fun p q => p.isOptional = true → q.demands = false

instance (signature : Signature) : Decidable signature.Trailing :=
  inferInstanceAs (Decidable (∀ param ∈ signature.dropLast, param.isVariadic = false))

instance (signature : Signature) : Decidable signature.Regular :=
  decidable_of_iff _ ⟨fun h => ⟨h.1, h.2⟩, fun h => And.intro h.trailing h.settled⟩

/-- Whether a call has to give an argument at a position. -/
def demandsAt (signature : Signature) (i : Nat) : Bool :=
  match signature.paramAt? i with
  | some param =>
    match param.arity with
    | .required => true
    | .optional _ => false
    | .variadic least => decide (i - (signature.length - 1) < least)
  | none => false

/-- What is accepted position by position, as far as a call has to go, fits as a whole. -/
theorem Regular.fits (h : signature.Regular)
    (haccepts : ∀ i a, as[i]? = some a →
      ∃ param, signature.paramAt? i = some param ∧ param.kind.accepts a = true)
    (hend : signature.demandsAt as.length = false) : ¬ signature.Misfit as := by
  -- A parameter that no argument was given for is not preceded by one that could be omitted.
  have hbefore : ∀ {i param}, signature[i]? = some param → param.demands = true →
      as.length < i → False := by
    intro i param hparam hdemands hlt
    have hi := (List.getElem?_eq_some_iff.mp hparam).1
    have hlen : as.length < signature.length := Nat.lt_trans hlt hi
    have hfirst : signature[as.length]? = some signature[as.length] := List.getElem?_eq_getElem hlen
    have hnot := h.trailing _ (mem_dropLast hfirst (by omega))
    have hpair := List.pairwise_iff_getElem.mp h.settled as.length i hlen hi hlt
    rw [(List.getElem?_eq_some_iff.mp hparam).2, hdemands] at hpair
    rw [demandsAt, paramAt?, hfirst, Option.some_or] at hend
    cases harity : signature[as.length].arity with
    | required => simp [harity] at hend
    | optional fallback => cases hpair (by rw [Param.isOptional, harity])
    | variadic least =>
      rw [Param.isVariadic, harity] at hnot
      cases hnot
  rintro (⟨ha, hparam, hkind⟩ | ⟨hparam, hrequired, hlen⟩ | ⟨hparam, hvariadic, hlen⟩ |
    ⟨ha, hnone⟩)
  · obtain ⟨param, hsame, haccepted⟩ := haccepts _ _ ha
    obtain rfl := Option.some.inj (hparam.symm.trans hsame)
    cases hkind.symm.trans haccepted
  · next i param =>
    rcases Nat.lt_or_eq_of_le hlen with hlt | rfl
    · exact hbefore hparam (by rw [Param.demands, hrequired]) hlt
    · simp [demandsAt, paramAt?, hparam, hrequired] at hend
  · next i param least =>
    have hi := (List.getElem?_eq_some_iff.mp hparam).1
    have hlast : signature.length - 1 = i := by
      by_contra hne
      have hnot := h.trailing param (mem_dropLast hparam (by omega))
      rw [Param.isVariadic, hvariadic] at hnot
      cases hnot
    rcases Nat.lt_or_ge as.length i with hlt | hge
    · refine hbefore hparam ?_ hlt
      rw [Param.demands, hvariadic]
      exact decide_eq_true (by omega)
    · have hat : signature.paramAt? as.length = some param := by
        rcases Nat.lt_or_eq_of_le hge with hlt | rfl
        · have hgetLast : signature.getLast? = some param := by
            rw [List.getLast?_eq_getElem?, hlast, hparam]
          rw [paramAt?, List.getElem?_eq_none (by omega), hgetLast]
          simp [Param.isVariadic, hvariadic]
        · rw [paramAt?, hparam, Option.some_or]
      have hless : as.length - i < least := hlen
      simp [demandsAt, hat, hvariadic, hlast, hless] at hend
  · obtain ⟨param, hsome, -⟩ := haccepts _ _ ha
    rw [hnone] at hsome
    cases hsome

end Signature

/-- A type whose calls are read in the form in which they are checked, after its signature or as a
placement. -/
def FeatureType.Regular (type : FeatureType) : Prop :=
  (type.written = .declared ∧ type.checked = .declared ∧ type.signature.Regular) ∨
    (type.written = .placement ∧ type.checked = .placement)

instance (type : FeatureType) : Decidable type.Regular :=
  inferInstanceAs (Decidable (_ ∨ _))

namespace Grammar

/-! ## Rules that fail -/

/-- A rule does not apply, or cannot be completed. -/
def Parser.Fails {α : Type} (p : Parser α) (c : Cursor) (stops : List Stop)
    (notice : Option Notice) : Prop :=
  p c = .error stops ∧ notice = none ∨ p c = .failure stops notice

namespace Parser.Fails

variable {α β : Type} {p : Parser α} {c : Cursor} {stops : List Stop} {notice : Option Notice}

/-- A sequence fails in its first part or in the next one. -/
theorem of_bind {f : α → Parser β} (h : (p >>= f).Fails c stops notice) :
    p.Fails c stops notice ∨ ∃ a d, p c = .ok a d ∧ (f a).Fails d stops notice := by
  unfold Fails at *
  rw [bind_apply] at h
  cases ho : p c <;> rw [ho] at h
  case ok a d => exact .inr ⟨a, d, rfl, h⟩
  case error stops' =>
    rcases h with ⟨h, hnotice⟩ | h
    · exact .inl (.inl ⟨congrArg _ (Outcome.error.inj h), hnotice⟩)
    · cases h
  case failure stops' notice' =>
    rcases h with ⟨h, -⟩ | h
    · cases h
    · obtain ⟨rfl, rfl⟩ := Outcome.failure.inj h
      exact .inl (.inr rfl)

theorem of_committed (h : (committed p).Fails c stops notice) : p.Fails c stops notice := by
  unfold Fails committed at *
  cases ho : p c <;> rw [ho] at h
  case ok a d =>
    rcases h with ⟨h, -⟩ | h
    · cases h
    · cases h
  case error stops' =>
    rcases h with ⟨h, -⟩ | h
    · cases h
    · obtain ⟨rfl, rfl⟩ := Outcome.failure.inj h
      exact .inl ⟨rfl, rfl⟩
  case failure stops' notice' =>
    rcases h with ⟨h, -⟩ | h
    · cases h
    · exact .inr h

/-- An optional part fails only where it has committed itself. -/
theorem of_optional (h : (optional p).Fails c stops notice) : p c = .failure stops notice := by
  unfold Fails optional at h
  cases ho : p c <;> rw [ho] at h
  case ok a d => rcases h with ⟨h, -⟩ | h <;> cases h
  case error stops' => rcases h with ⟨h, -⟩ | h <;> cases h
  case failure stops' notice' =>
    rcases h with ⟨h, -⟩ | h
    · cases h
    · obtain ⟨rfl, rfl⟩ := Outcome.failure.inj h
      rfl

/-- Taking down a place does not fail. -/
theorem of_position {f : Cursor → Parser β} (h : (position >>= f).Fails c stops notice) :
    (f c).Fails c stops notice := h

theorem not_pure {a : α} : ¬ (Pure.pure a : Parser α).Fails c stops notice := by
  rintro (⟨h, -⟩ | h) <;> cases h

end Parser.Fails

/-! ## One argument -/

section Arguments

variable {ask : Rules} {c d : Cursor} {typeName : String} {param : Param} {mandatory first : Bool}

theorem optionWord_accepts (choices : List String) (c : Cursor) :
    (optionWord choices).At c fun word _ => choices.contains word = true := by
  refine .bind (P := fun _ _ => True) (fun _ _ _ => .intro) fun _ start _ => .here ?_
  refine .bind (P := fun _ _ => True) (fun _ _ _ => .intro) fun found rest _ => ?_
  cases found with
  | none => exact fun _ _ h => nomatch h
  | some word =>
    by_cases hword : choices.contains word = true
    · simp only [hword]
      exact .bind (P := fun _ _ => True) (fun _ _ _ => .intro) fun _ _ _ => .pure hword
    · simp only [hword]
      exact fun _ _ h => nomatch h

/-- What is read for a kind of parameter is accepted by it. -/
theorem argument_accepts (kind : ParamKind) (c : Cursor) :
    (argument ask kind).At c fun a _ => kind.accepts a = true := by
  have hread : ∀ {α : Type} (p : Parser α), p.At c fun _ _ => True := fun _ _ _ _ => .intro
  cases kind with
  | scalar => exact .bind (hread _) fun _ _ _ => .pure rfl
  | vector => exact .bind (hread _) fun _ _ _ => .pure rfl
  | datum => exact .bind (hread _) fun _ _ _ => .pure rfl
  | feature => exact .bind (hread _) fun _ _ _ => .pure rfl
  | selection => exact .bind (hread _) fun _ _ _ => .pure rfl
  | keyword choices => exact .bind (optionWord_accepts choices c) fun _ _ h => .pure h

/-- The next argument is accepted by its parameter. Nothing is read where nothing has to follow. -/
theorem nextArgument_accepts (typeName : String) (param : Param) (mandatory first : Bool)
    (c : Cursor) :
    (nextArgument ask typeName param mandatory first).At c fun found rest =>
      (∀ a ∈ found, param.kind.accepts a = true) ∧ (found = none → mandatory = false ∧ rest = c) := by
  have hsome : ∀ e mandatory, (do return some (← argument ask param.kind)).At e fun found rest =>
      (∀ a ∈ found, param.kind.accepts a = true) ∧ (found = none → mandatory = false ∧ rest = c) :=
    fun e _ => .bind (argument_accepts param.kind e) fun _ _ h =>
      .pure ⟨fun _ ha => Option.some.inj ha ▸ h, nofun⟩
  unfold nextArgument
  cases first with
  | true =>
    cases mandatory with
    | true => exact hsome c true
    | false =>
      exact .optional ((argument_accepts param.kind c).imp fun _ _ h =>
        ⟨fun _ ha => Option.some.inj ha ▸ h, nofun⟩) ⟨nofun, fun _ => ⟨rfl, rfl⟩⟩
  | false =>
    refine .here (.bind (P := fun found rest => found = none → rest = c)
      (.optional (fun _ _ _ => nofun) fun _ => rfl) fun found rest hrest => ?_)
    cases found with
    | some _ => exact hsome rest mandatory
    | none =>
      cases mandatory with
      | true => exact .refuse _ _ _ _
      | false => exact .pure ⟨nofun, fun _ => ⟨rfl, hrest rfl⟩⟩

/-- Where the next argument cannot be read: at the end of the one before it, where a comma is
missing, or where its own rule fails, after the comma if there has to be one. -/
theorem nextArgument_fails {stops : List Stop} {notice : Option Notice}
    (h : (nextArgument ask typeName param mandatory first).Fails d stops notice) :
    (first = false ∧ mandatory = true ∧ d.head? ≠ some ',' ∧ stops = [⟨d, .rejected⟩] ∧
      notice = some ⟨.malformed,
        s!"Syntax error: {typeName} expects argument '{param.usage}'", .between d d⟩) ∨
    ∃ e, (first = true ∧ e = d ∨ first = false ∧ d.head? = some ',' ∧ e = d.after) ∧
      (argument ask param.kind).Fails e stops notice := by
  have hsome : ∀ {e}, (do return some (← argument ask param.kind)).Fails e stops notice →
      (argument ask param.kind).Fails e stops notice := fun hfails => by
    rcases hfails.of_bind with hfails | ⟨a, rest, -, hpure⟩
    · exact hfails
    · exact absurd hpure Fails.not_pure
  unfold nextArgument at h
  cases first with
  | true =>
    refine .inr ⟨d, .inl ⟨rfl, rfl⟩, ?_⟩
    cases mandatory with
    | true => exact hsome h
    | false => exact .inr (Fails.of_optional h)
  | false =>
    replace h := Fails.of_position h
    by_cases hcomma : d.head? = some ','
    · rw [Fails, bind_ok (optional_ok (mark_ok hcomma))] at h
      exact .inr ⟨d.after, .inr ⟨rfl, hcomma, rfl⟩, hsome h⟩
    · rw [Fails, bind_ok (mark_stops hcomma).optional] at h
      cases mandatory with
      | true =>
        rcases h with ⟨h, -⟩ | h
        · cases h
        · obtain ⟨rfl, rfl⟩ := Outcome.failure.inj h
          exact .inl ⟨rfl, rfl, hcomma, rfl, rfl⟩
      | false => exact absurd h Fails.not_pure

/-! ## Lists of arguments -/

/-- The first arguments of a call of a type, and the place after them. -/
inductive Listed (ask : Rules) (type : FeatureType) (c : Cursor) : List Argument → Cursor → Prop where
  | nil : Listed ask type c [] c
  | snoc {read param a d e} : Listed ask type c read d →
    type.signature.paramAt? read.length = some param →
    nextArgument ask type.name param (type.signature.demandsAt read.length) read.isEmpty d =
      .ok (some a) e → Listed ask type c (read ++ [a]) e

/-- How a list of arguments ends: with as many as there are parameters, or where none follows; or
it fails where the next one is read. -/
inductive Concludes (ask : Rules) (type : FeatureType) (c : Cursor) :
    Outcome (List Argument) → Prop where
  | ok {args rest} : Listed ask type c args rest →
    (∀ param, type.signature.paramAt? args.length = some param →
      nextArgument ask type.name param (type.signature.demandsAt args.length) args.isEmpty rest =
        .ok none rest) → Concludes ask type c (.ok args rest)
  | error {read param d stops} : Listed ask type c read d →
    type.signature.paramAt? read.length = some param →
    nextArgument ask type.name param (type.signature.demandsAt read.length) read.isEmpty d =
      .error stops → Concludes ask type c (.error stops)
  | failure {read param d stops notice} : Listed ask type c read d →
    type.signature.paramAt? read.length = some param →
    nextArgument ask type.name param (type.signature.demandsAt read.length) read.isEmpty d =
      .failure stops notice → Concludes ask type c (.failure stops notice)

variable {type : FeatureType} {read : List Argument}

/-- One argument more, or the end of the list. -/
theorem Listed.bind (h : Listed ask type c read d)
    (hparam : type.signature.paramAt? read.length = some param)
    (hmandatory : type.signature.demandsAt read.length = mandatory)
    {f : List Argument → Parser (List Argument)}
    (hf : ∀ a e, nextArgument ask type.name param mandatory read.isEmpty d = .ok (some a) e →
      Concludes ask type c (f (read ++ [a]) e)) :
    Concludes ask type c ((nextArgument ask type.name param mandatory read.isEmpty >>= fun next =>
      match next with
      | some a => f (read ++ [a])
      | none => Pure.pure read) d) := by
  subst hmandatory
  rw [bind_apply]
  cases hnext : nextArgument ask type.name param (type.signature.demandsAt read.length)
      read.isEmpty d with
  | error stops => exact .error h hparam hnext
  | failure stops notice => exact .failure h hparam hnext
  | ok found rest =>
    cases found with
    | some a => exact hf a rest hnext
    | none =>
      obtain ⟨-, hsame⟩ := (nextArgument_accepts _ _ _ _ d none rest hnext).2 rfl
      subst hsame
      refine .ok h fun param' hparam' => ?_
      obtain rfl := Option.some.inj (hparam.symm.trans hparam')
      exact hnext

/-- The arguments of a variadic last parameter. -/
theorem variadicArguments_concludes (hask : ∀ rule n, Parser.Agree n 1 (ask rule) (ask rule))
    {pre : Signature} (hsignature : type.signature = pre ++ [param]) {least : Nat}
    (hvariadic : param.arity = .variadic least) (n : Nat) :
    ∀ (count : Nat) (read : List Argument) (d : Cursor), read.length = pre.length + count →
      Listed ask type c read d → d.rest.length < n →
      Concludes ask type c (variadicArguments ask type.name param least n count read d) := by
  induction n with
  | zero => exact fun _ _ _ _ _ hn => absurd hn (Nat.not_lt_zero _)
  | succ n ih =>
    intro count read d hlength hlisted hn
    have hparam : type.signature.paramAt? read.length = some param := by
      rw [hsignature, hlength]
      cases count with
      | zero => simp [Signature.paramAt?]
      | succ count => simp [Signature.paramAt?, Param.isVariadic, hvariadic]
    have hmandatory : type.signature.demandsAt read.length = decide (count < least) := by
      have hpre : type.signature.length - 1 = pre.length := by simp [hsignature]
      simp only [Signature.demandsAt, hparam, hvariadic]
      rw [hpre, hlength, Nat.add_sub_cancel_left]
    refine hlisted.bind hparam hmandatory fun a e hnext => ?_
    refine ih (count + 1) _ e ?_ (.snoc hlisted hparam (hmandatory ▸ hnext)) ?_
    · rw [List.length_append, hlength]
      rfl
    · exact Nat.lt_of_lt_of_le (nextArgument_shortens hask hnext) (Nat.le_of_lt_succ hn)

/-- The arguments for the parameters that are left, of which those before them take one each. -/
theorem argumentsFrom_concludes (hask : ∀ rule n, Parser.Agree n 1 (ask rule) (ask rule))
    (htrailing : type.signature.Trailing) (params : Signature) :
    ∀ (pre : Signature) (read : List Argument) (d : Cursor), type.signature = pre ++ params →
      (∀ p ∈ pre, p.isVariadic = false) → read.length = pre.length → Listed ask type c read d →
      Concludes ask type c (argumentsFrom ask type.name params read d) := by
  induction params with
  | nil =>
    intro pre read d hsignature hpre hlength hlisted
    refine .ok hlisted fun param hparam => ?_
    rw [Signature.paramAt?, hsignature, hlength, List.append_nil, List.getElem?_eq_none (Nat.le_refl _),
      Option.none_or, Option.filter_eq_some_iff] at hparam
    exact absurd hparam.2 (by simp [hpre param (List.mem_of_getLast? hparam.1)])
  | cons param params ih =>
    intro pre read d hsignature hpre hlength hlisted
    have hat : type.signature[read.length]? = some param := by simp [hsignature, hlength]
    have hparam : type.signature.paramAt? read.length = some param := by
      rw [Signature.paramAt?, hat, Option.some_or]
    have hstep : param.isVariadic = false → ∀ a e,
        nextArgument ask type.name param (type.signature.demandsAt read.length) read.isEmpty d =
          .ok (some a) e →
        Concludes ask type c (argumentsFrom ask type.name params (read ++ [a]) e) :=
      fun hnot a e hnext => ih (pre ++ [param]) _ e (by simp [hsignature])
        (List.forall_mem_append.mpr ⟨hpre, List.forall_mem_singleton.mpr hnot⟩)
        (by simp [hlength]) (.snoc hlisted hparam hnext)
    unfold argumentsFrom
    cases harity : param.arity with
    | variadic least =>
      have hlast : params = [] := by
        cases params with
        | nil => rfl
        | cons q qs =>
          have hbefore : read.length < type.signature.length - 1 := by
            simp [hsignature, hlength]
          have hnot := htrailing param (Signature.mem_dropLast hat hbefore)
          rw [Param.isVariadic, harity] at hnot
          cases hnot
      subst hlast
      exact variadicArguments_concludes hask hsignature harity _ 0 read d hlength hlisted
        (Nat.lt_succ_self _)
    | required =>
      have hmandatory : type.signature.demandsAt read.length = true := by
        simp only [Signature.demandsAt, hparam, harity]
      exact hlisted.bind hparam hmandatory (hmandatory ▸ hstep (by rw [Param.isVariadic, harity]))
    | optional fallback =>
      have hmandatory : type.signature.demandsAt read.length = false := by
        simp only [Signature.demandsAt, hparam, harity]
      exact hlisted.bind hparam hmandatory (hmandatory ▸ hstep (by rw [Param.isVariadic, harity]))

theorem declaredArguments_concludes (hask : ∀ rule n, Parser.Agree n 1 (ask rule) (ask rule))
    (htrailing : type.signature.Trailing) (c : Cursor) :
    Concludes ask type c (declaredArguments ask type c) :=
  argumentsFrom_concludes hask htrailing type.signature [] [] c rfl nofun rfl .nil

/-! ## What is read is accepted -/

theorem Listed.accepts {args : List Argument} {rest : Cursor} (h : Listed ask type c args rest) :
    ∀ i a, args[i]? = some a →
      ∃ param, type.signature.paramAt? i = some param ∧ param.kind.accepts a = true := by
  induction h with
  | nil => nofun
  | @snoc read param a d e _ hparam hnext ih =>
    intro i b hb
    rcases Nat.lt_trichotomy i read.length with hlt | rfl | hgt
    · rw [List.getElem?_append_left hlt] at hb
      exact ih i b hb
    · obtain rfl : a = b := by simpa using hb
      exact ⟨param, hparam, (nextArgument_accepts _ _ _ _ d _ e hnext).1 a rfl⟩
    · rw [List.getElem?_append_right (Nat.le_of_lt hgt)] at hb
      obtain ⟨k, hk⟩ := Nat.exists_eq_add_of_lt hgt
      rw [show i - read.length = k + 1 by omega] at hb
      cases hb

/-- The arguments of a call after a signature are bound to it. -/
theorem declaredArguments_accepted (hask : ∀ rule n, Parser.Agree n 1 (ask rule) (ask rule))
    (hregular : type.signature.Regular) {args : List Argument} {rest : Cursor}
    (h : declaredArguments ask type c = .ok args rest) :
    ∃ bound, type.signature.bind args = .ok bound := by
  have hconcludes := declaredArguments_concludes hask hregular.trailing c
  rw [h] at hconcludes
  cases hconcludes with
  | ok hlisted hend =>
    have hsettled : type.signature.demandsAt args.length = false := by
      cases hparam : type.signature.paramAt? args.length with
      | none => simp only [Signature.demandsAt, hparam]
      | some param =>
        exact ((nextArgument_accepts _ _ _ _ rest none rest (hend param hparam)).2 rfl).1
    have hfits := hregular.fits hlisted.accepts hsettled
    obtain ⟨bound, hbound⟩ := (Signature.bindFrom_ok_iff hregular.trailing args).mpr hfits
    exact ⟨bound, Signature.bind_eq_ok_iff.mpr hbound⟩

/-- What is read for a placement: a feature, and a datum that was found to be no point and no axis,
or the three vectors of a frame. -/
theorem placementArguments_at (g : Grammar) (c : Cursor) : (placementArguments g ask).At c fun args _ =>
    (∃ base plane, args = [.feature base, .datum plane] ∧
      datumKind? g.model (g.model.bindings.length + 1) plane ≠ some "point" ∧
      datumKind? g.model (g.model.bindings.length + 1) plane ≠ some "axis") ∨
    ∃ base origin ex ez, args = [.feature base, .vector origin, .vector ex, .vector ez] := by
  have hread : ∀ {α : Type} {p : Parser α} {d : Cursor}, p.At d fun _ _ => True := fun _ _ _ => .intro
  refine .bind hread fun base _ _ => .bind hread fun _ d _ => .here ?_
  refine .bind hread fun plane d₁ _ => ?_
  cases plane with
  | none =>
    refine .bind hread fun origin _ _ => .bind hread fun _ _ _ => .bind hread fun ex _ _ => ?_
    exact .bind hread fun _ _ _ => .bind hread fun ez _ _ => .pure (.inr ⟨base, origin, ex, ez, rfl⟩)
  | some plane =>
    refine .here ?_
    split
    · exact .refuse _ _ _ _
    · exact .refuse _ _ _ _
    · next hpoint haxis => exact .pure (.inl ⟨base, plane, rfl, hpoint, haxis⟩)

/-- The arguments of a placement are bound too, on a plane or in a frame. -/
theorem placementArguments_accepted (g : Grammar) (c : Cursor) :
    (placementArguments g ask).At c fun args _ => ∃ signature,
      Placement.signatureFor args = .ok signature ∧ signature.bind args = .ok args := by
  refine (placementArguments_at g c).imp fun args _ hargs => ?_
  rcases hargs with ⟨base, plane, rfl, hpoint, haxis⟩ | ⟨base, origin, ex, ez, rfl⟩
  · cases plane with
    | point location => exact absurd rfl hpoint
    | axis origin direction => exact absurd rfl haxis
    | plane origin normal => exact ⟨Placement.onPlane, rfl, rfl⟩
    | symbol name => exact ⟨Placement.onPlane, rfl, rfl⟩
  · exact ⟨Placement.inFrame, rfl, rfl⟩

/-- The arguments that are read for a type are accepted by its constructor. -/
theorem ReadsArguments.accepted {g : Grammar} (hregular : type.Regular) {args : List Argument}
    (h : g.ReadsArguments type args) (origin : Origin) : ∃ f, type.construct args origin = .ok f := by
  obtain ⟨ask, hask, c, rest, hread⟩ := h
  unfold callArguments at hread
  rcases hregular with ⟨hwritten, hchecked, hregular⟩ | ⟨hwritten, hchecked⟩
  · rw [hwritten] at hread
    obtain ⟨bound, hbound⟩ := declaredArguments_accepted hask hregular hread
    refine ⟨.construct type.name type.signature bound origin none, ?_⟩
    simp [FeatureType.construct, hchecked, hbound, bind, Except.bind, pure, Except.pure]
  · rw [hwritten] at hread
    obtain ⟨signature, hsignature, hbound⟩ := placementArguments_accepted g c args rest hread
    refine ⟨.construct type.name signature args origin none, ?_⟩
    simp [FeatureType.construct, hchecked, hsignature, hbound, bind, Except.bind, pure, Except.pure]

end Arguments

/-! ## Where a call is refused -/

/-- An argument of a call after a signature cannot be read: the comma before it is missing, which is
said by the parameter, or its own rule fails. -/
inductive Misread (g : Grammar) (type : FeatureType) (c : Cursor) :
    Cursor → List Stop → Option Notice → Prop where
  | missing {read param d} : Listed g.parse type c read d → read ≠ [] →
    type.signature.paramAt? read.length = some param →
    type.signature.demandsAt read.length = true → d.head? ≠ some ',' →
    Misread g type c d [⟨d, .rejected⟩] (some ⟨.malformed,
      s!"Syntax error: {type.name} expects argument '{param.usage}'", .between d d⟩)
  | argument {read param d e stops notice} : Listed g.parse type c read d →
    type.signature.paramAt? read.length = some param →
    (read = [] ∧ e = d ∨ read ≠ [] ∧ d.head? = some ',' ∧ e = d.after) →
    (argument g.parse param.kind).Fails e stops notice → Misread g type c e stops notice

/-- The parts of a placement in a frame as messages name them. -/
def frameLabels : List String := ["feature", "origin vector", "x direction", "z direction"]

/-- The first parts of a placement in a frame, and the place after them. -/
inductive Framed (g : Grammar) (c : Cursor) : Nat → Cursor → Prop where
  | base {base d} : labelled "feature" g.parse.feature c = .ok base d → Framed g c 1 d
  | vector {n label v d e} : Framed g c n d → frameLabels[n]? = some label →
    d.head? = some ',' → labelled label g.parse.vector d.after = .ok v e → Framed g c (n + 1) e

/-- A part of a placement cannot be read: its rule fails, or the comma before it is missing, or it
is a datum that closes the list and denotes something else than a plane. -/
inductive Misplaced (g : Grammar) (c : Cursor) : Cursor → List Stop → Option Notice → Prop where
  | base {stops notice} : (labelled "feature" g.parse.feature).Fails c stops notice →
    Misplaced g c c stops notice
  | comma {n d stops notice} : Framed g c n d → n < 4 → d.head? ≠ some ',' →
    comma.Fails d stops notice → Misplaced g c d stops notice
  | kind {d plane stop kind} : Framed g c 1 d → d.head? = some ',' →
    placementPlane g.parse d.after = .ok plane stop →
    datumKind? g.model (g.model.bindings.length + 1) plane = some kind → kind ∈ ["point", "axis"] →
    Misplaced g c d.after [⟨d.after, .rejected⟩] (some ⟨.malformed,
      s!"Syntax error: Place expects a plane datum, found {kind}", .between d.after stop⟩)
  | plane {d stops notice} : Framed g c 1 d → d.head? = some ',' →
    placementPlane g.parse d.after = .failure stops notice → Misplaced g c d.after stops notice
  | vector {n label d stops notice} : Framed g c n d → frameLabels[n]? = some label →
    d.head? = some ',' → (labelled label g.parse.vector).Fails d.after stops notice →
    Misplaced g c d.after stops notice

section Mistakes

variable {g : Grammar} {type : FeatureType} {c d : Cursor} {stops : List Stop}
  {notice : Option Notice}

theorem parse_onwards (g : Grammar) (rule : Rule) (n : Nat) :
    Parser.Agree n 1 (g.parse rule) (g.parse rule) := .of_at (parse_onward g rule)

theorem declaredArguments_fails (htrailing : type.signature.Trailing)
    (h : (declaredArguments g.parse type).Fails c stops notice) :
    ∃ e, Misread g type c e stops notice := by
  have hread : ∃ read param d, Listed g.parse type c read d ∧
      type.signature.paramAt? read.length = some param ∧
      (nextArgument g.parse type.name param (type.signature.demandsAt read.length)
        read.isEmpty).Fails d stops notice := by
    have hconcludes := declaredArguments_concludes (parse_onwards g) htrailing c
    rcases h with ⟨h, hnotice⟩ | h
    · rw [h] at hconcludes
      cases hconcludes with
      | error hlisted hparam hnext => exact ⟨_, _, _, hlisted, hparam, .inl ⟨hnext, hnotice⟩⟩
    · rw [h] at hconcludes
      cases hconcludes with
      | failure hlisted hparam hnext => exact ⟨_, _, _, hlisted, hparam, .inr hnext⟩
  obtain ⟨read, param, d, hlisted, hparam, hfails⟩ := hread
  have hnil : read.isEmpty = true ↔ read = [] := List.isEmpty_iff
  have hcons : read.isEmpty = false ↔ read ≠ [] := by rw [← not_iff_not]; simp
  rcases nextArgument_fails hfails with ⟨hfirst, hdemands, hcomma, rfl, rfl⟩ | ⟨e, he, hfails⟩
  · exact ⟨d, .missing hlisted (hcons.mp hfirst) hparam hdemands hcomma⟩
  · rw [hnil, hcons] at he
    exact ⟨e, .argument hlisted hparam he hfails⟩

/-- The comma before a part of a placement, and the part. -/
theorem comma_fails {β : Type} {f : Char → Parser β} {n : Nat} (hframed : Framed g c n d)
    (hn : n < 4) (h : (comma >>= f).Fails d stops notice) :
    Misplaced g c d stops notice ∨ d.head? = some ',' ∧ (f ',').Fails d.after stops notice := by
  by_cases hcomma : d.head? = some ','
  · rw [Fails, bind_ok (comma_ok hcomma)] at h
    exact .inr ⟨hcomma, h⟩
  · rcases h.of_bind with h | ⟨ch, e, hok, -⟩
    · exact .inl (.comma hframed hn hcomma h)
    · exact absurd (mark_inv (ok_of_labelled hok)).1 hcomma

/-- A direction of a frame, or its origin, after the comma. -/
theorem vector_fails {β : Type} {f : VectorExpr → Parser β} {n : Nat} {label : String}
    (hframed : Framed g c n d) (hlabel : frameLabels[n]? = some label) (hn : n < 4)
    (h : (do let _ ← comma; let v ← labelled label g.parse.vector; f v).Fails d stops notice) :
    (∃ e, Misplaced g c e stops notice) ∨
      ∃ v e, Framed g c (n + 1) e ∧ (f v).Fails e stops notice := by
  rcases comma_fails hframed hn h with h | ⟨hcomma, h⟩
  · exact .inl ⟨_, h⟩
  · rcases h.of_bind with h | ⟨v, e, hv, h⟩
    · exact .inl ⟨_, .vector hframed hlabel hcomma h⟩
    · exact .inr ⟨v, e, .vector hframed hlabel hcomma hv, h⟩

theorem placementArguments_fails (h : (placementArguments g g.parse).Fails c stops notice) :
    ∃ e, Misplaced g c e stops notice := by
  rcases Fails.of_bind h with h | ⟨base, d, hbase, h⟩
  · exact ⟨c, .base h⟩
  have hframed : Framed g c 1 d := .base hbase
  rcases comma_fails hframed (by decide) h with h | ⟨hcomma, h⟩
  · exact ⟨d, h⟩
  rcases h.of_position.of_bind with h | ⟨plane, e, hplane, h⟩
  · exact ⟨_, .plane hframed hcomma h.of_optional⟩
  rcases ok_of_optional hplane with ⟨plane, rfl, hread⟩ | ⟨rfl, rfl, -⟩
  · replace h := h.of_position
    have hrefused : ∀ {kind}, kind ∈ ["point", "axis"] →
        datumKind? g.model (g.model.bindings.length + 1) plane = some kind →
        (refuse d.after e .malformed s!"Syntax error: Place expects a plane datum, found {kind}" :
          Parser (List Argument)).Fails e stops notice → ∃ e, Misplaced g c e stops notice := by
      rintro kind hkind hdatum (⟨h, -⟩ | h)
      · cases h
      · obtain ⟨rfl, rfl⟩ := Outcome.failure.inj h
        exact ⟨_, .kind hframed hcomma hread hdatum hkind⟩
    split at h
    · next hdatum => exact hrefused (by decide) hdatum h
    · next hdatum => exact hrefused (by decide) hdatum h
    · exact absurd h Fails.not_pure
  · have hlabel : frameLabels[1]? = some "origin vector" := rfl
    rcases h.of_bind with h | ⟨origin, d₂, horigin, h⟩
    · exact ⟨_, .vector hframed hlabel hcomma h⟩
    have hframed₂ : Framed g c 2 d₂ := .vector hframed hlabel hcomma horigin
    rcases vector_fails hframed₂ rfl (by decide) h with h | ⟨ex, d₃, hframed₃, h⟩
    · exact h
    rcases vector_fails hframed₃ rfl (by decide) h with h | ⟨ez, d₄, -, h⟩
    · exact h
    · exact absurd h Fails.not_pure

/-- The places from one on. -/
def watchFrom (g : Grammar) (e : Cursor) : Watch := ⟨g, (e.offset ≤ ·.offset)⟩

theorem watchFrom_lawful (g : Grammar) (e : Cursor) : (g.watchFrom e).Lawful :=
  ⟨fun hc => Nat.le_trans hc (Cursor.offset_le_skip _ _),
    fun hc _ _ => Nat.le_trans hc (Cursor.offset_le_next _)⟩

/-- A failure that names no place before another one, neither as a stop nor as the start of a
range. -/
def Behind (e : Cursor) (stops : List Stop) (notice : Option Notice) : Prop :=
  stops ≠ [] ∧ (∀ s ∈ stops, e.offset ≤ s.cursor.offset) ∧ ∀ n ∈ notice, e.offset ≤ n.span.start

/-- A rule fails at the place where it is tried or behind it. -/
theorem behind_of_orderly {α : Type} {R : α → Prop} {p : Parser α} {e : Cursor}
    (hp : (g.watchFrom e).Orderly R p) (h : p.Fails e stops notice) : Behind e stops notice := by
  have hfair := hp e (Nat.le_refl e.offset)
  rcases h with ⟨h, rfl⟩ | h
  · rw [h] at hfair
    cases hfair with
    | error hstopped => exact ⟨hstopped.1, hstopped.2, nofun⟩
  · rw [h] at hfair
    cases hfair with
    | failure hstopped hnotice =>
      refine ⟨hstopped.1, hstopped.2, fun n hn => ?_⟩
      obtain ⟨-, start, stop, hstart, -, hspan⟩ := hnotice n hn
      rw [hspan]
      exact hstart

theorem behind_here (d : Cursor) (m : Mismatch) (kind : CompileErrorKind) (message : String)
    (stop : Cursor) : Behind d [⟨d, m⟩] (some ⟨kind, message, .between d stop⟩) :=
  ⟨List.cons_ne_nil _ _, List.forall_mem_singleton.mpr (Nat.le_refl _),
    fun _ hn => Option.some.inj hn ▸ Nat.le_refl d.offset⟩

theorem Misread.behind {e : Cursor} (h : Misread g type c e stops notice) :
    Behind e stops notice := by
  have hW := g.watchFrom_lawful e
  cases h with
  | missing => exact behind_here _ _ _ _ _
  | argument _ _ _ hfails =>
    exact behind_of_orderly (Watch.argument hW (Watch.parse hW) _) hfails

theorem Misplaced.behind {e : Cursor} (h : Misplaced g c e stops notice) :
    Behind e stops notice := by
  have hW := g.watchFrom_lawful e
  cases h with
  | base hfails => exact behind_of_orderly (.labelled _ (Watch.parse hW .feature)) hfails
  | comma _ _ _ hfails => exact behind_of_orderly hW.comma hfails
  | kind => exact behind_here _ _ _ _ _
  | plane _ _ hfails =>
    exact behind_of_orderly (Watch.placementPlane hW (Watch.parse hW)) (.inr hfails)
  | vector _ _ _ hfails => exact behind_of_orderly (.labelled _ (Watch.parse hW .vector)) hfails

theorem callArguments_fails (hregular : type.Regular)
    (h : (callArguments g g.parse type).Fails c stops notice) :
    ∃ e, (type.written = .declared ∧ Misread g type c e stops notice ∨
      type.written = .placement ∧ Misplaced g c e stops notice) ∧ Behind e stops notice := by
  unfold callArguments at h
  rcases hregular with ⟨hwritten, -, hregular⟩ | ⟨hwritten, -⟩
  · rw [hwritten] at h
    obtain ⟨e, he⟩ := declaredArguments_fails hregular.trailing h
    exact ⟨e, .inl ⟨hwritten, he⟩, he.behind⟩
  · rw [hwritten] at h
    obtain ⟨e, he⟩ := placementArguments_fails h
    exact ⟨e, .inr ⟨hwritten, he⟩, he.behind⟩

/-! ## Calls -/

theorem callArguments_accepted (hregular : type.Regular) {args : List Argument} {rest : Cursor}
    (h : callArguments g g.parse type c = .ok args rest) (origin : Origin) :
    ∃ f, type.construct args origin = .ok f :=
  ReadsArguments.accepted hregular ⟨g.parse, parse_onwards g, c, rest, h⟩ origin

section Called

variable {name : String} {opened : Cursor}

/-- A call is read if its arguments are and it is closed after them. -/
theorem constructor_called (hregular : type.Regular) (hcall : Called c name opened)
    (hfind : g.registry.find? name = some type) {args : List Argument} {rest : Cursor}
    (hargs : callArguments g g.parse type opened = .ok args rest) (hclose : rest.head? = some ')') :
    ∃ f, type.construct args (.text g.model.sources (.between c.start rest.after)) = .ok f ∧
      constructor g g.parse c = .ok f rest.after := by
  obtain ⟨f, hf⟩ := callArguments_accepted hregular hargs
    (.text g.model.sources (.between c.start rest.after))
  exact ⟨f, hf, hcall.constructor_ok hfind hargs hclose hf⟩

/-- It fails only where its arguments do, or behind them where it is not closed. -/
theorem constructor_fails (hregular : type.Regular) (hcall : Called c name opened)
    (hfind : g.registry.find? name = some type)
    (h : (constructor g g.parse).Fails c stops notice) :
    (callArguments g g.parse type).Fails opened stops notice ∨
      ∃ args rest, callArguments g g.parse type opened = .ok args rest ∧
        rest.head? ≠ some ')' ∧ (closing ')').Fails rest stops notice ∧ Behind rest stops notice := by
  rw [Fails, hcall.constructor_eq hfind] at h
  rcases Fails.of_bind h with h | ⟨args, rest, hargs, h⟩
  · exact .inl h.of_committed
  replace hargs : callArguments g g.parse type opened = .ok args rest :=
    At.committed (P := fun a d => callArguments g g.parse type opened = .ok a d)
      (fun _ _ h => h) args rest hargs
  rcases h.of_bind with h | ⟨_, stop, -, h⟩
  · have hbehind := behind_of_orderly ((g.watchFrom_lawful rest).closing (by decide)) h.of_committed
    refine .inr ⟨args, rest, hargs, fun hhead => ?_, h.of_committed, hbehind⟩
    rcases h.of_committed with ⟨h, -⟩ | h <;> rw [closing_ok hhead] at h <;> cases h
  · -- Behind the closing parenthesis nothing is left that could fail.
    obtain ⟨f, hf⟩ := callArguments_accepted hregular hargs
      (.text g.model.sources (.between c.start stop))
    replace h := h.of_position
    rw [hf] at h
    exact absurd h Fails.not_pure

end Called

end Mistakes

/-- The calls of a type are read as they are bound. -/
structure ReadsAsBound (g : Grammar) (type : FeatureType) : Prop where
  /-- Arguments that are read, for a call anywhere in a text, are accepted. -/
  accepted : ∀ {args}, g.ReadsArguments type args → ∀ origin, ∃ f, type.construct args origin = .ok f
  /-- A call whose arguments are read and closed is read, as what they construct. -/
  called : ∀ {name c opened args rest}, g.registry.find? name = some type → Called c name opened →
    callArguments g g.parse type opened = .ok args rest → rest.head? = some ')' →
    ∃ f, type.construct args (.text g.model.sources (.between c.start rest.after)) = .ok f ∧
      constructor g g.parse c = .ok f rest.after
  /-- A call fails only as its arguments do, or behind them where it is not closed. -/
  fails : ∀ {name c opened stops notice}, g.registry.find? name = some type →
    Called c name opened → (constructor g g.parse).Fails c stops notice →
    (callArguments g g.parse type).Fails opened stops notice ∨
      ∃ args rest, callArguments g g.parse type opened = .ok args rest ∧
        rest.head? ≠ some ')' ∧ (closing ')').Fails rest stops notice ∧ Behind rest stops notice
  /-- Arguments fail at the one that does not fit, and nothing before it is named. -/
  located : ∀ {c stops notice}, (callArguments g g.parse type).Fails c stops notice →
    ∃ e, (type.written = .declared ∧ Misread g type c e stops notice ∨
      type.written = .placement ∧ Misplaced g c e stops notice) ∧ Behind e stops notice

/-! ## What errors say -/

/-- A message begins with a character. -/
def Opens (ch : Char) (message : String) : Prop := message.toList.head? = some ch

instance (ch : Char) (message : String) : Decidable (Opens ch message) :=
  inferInstanceAs (Decidable (_ = _))

section Wording

variable {ch : Char} {message : String} {g : Grammar} {kind : CompileErrorKind}

theorem Opens.append (h : Opens ch message) (more : String) : Opens ch (message ++ more) := by
  unfold Opens at *
  rw [String.toList_append, List.head?_append, h, Option.some_or]

theorem Opens.unique {other : Char} (h : Opens ch message) (h' : Opens other message) :
    ch = other := Option.some.inj (h.symm.trans h')

/-- The complaint about the arguments of a call as a whole. -/
def complaint (name cause : String) : String := s!"Invalid arguments for {name}: {cause}"

theorem complaint_opens (name cause : String) : Opens 'I' (complaint name cause) :=
  (((by decide +kernel : Opens 'I' "Invalid arguments for ").append _).append _).append _

theorem Words.opens (h : Words g kind message) (hregular : ∀ type ∈ g.registry.types, type.Regular) :
    ∃ ch ∈ ['S', 'U', '\'', 'D'], Opens ch message := by
  cases h with
  | expects =>
    have hword : Opens 'S' "Syntax error: " := by decide +kernel
    exact ⟨'S', by decide, (((hword.append _).append _).append _).append _⟩
  | foundPoint => exact ⟨'S', by decide, by decide +kernel⟩
  | foundAxis => exact ⟨'S', by decide, by decide +kernel⟩
  | unknownType =>
    have hword : Opens 'U' "Unknown feature type '" := by decide +kernel
    exact ⟨'U', by decide, (hword.append _).append _⟩
  | invalid hfind hread herror =>
    -- What is read is accepted, so that nothing is left to complain about.
    obtain ⟨f, hf⟩ := hread.accepted (hregular _ (List.mem_of_find?_eq_some hfind)) _
    rw [hf] at herror
    cases herror
  | reserved =>
    have hword : Opens '\'' "'" := by decide +kernel
    exact ⟨'\'', by decide, (hword.append _).append _⟩
  | duplicate =>
    have hword : Opens 'D' "Duplicate symbol '" := by decide +kernel
    exact ⟨'D', by decide, (((((hword.append _).append _).append _).append _).append _).append _⟩

theorem Phrased.opens {registry : Registry} (h : Phrased registry kind message)
    (hregular : ∀ type ∈ registry.types, type.Regular) :
    ∃ ch ∈ ['S', 'U', '\'', 'D', 'F'], Opens ch message := by
  cases h with
  | mismatch m =>
    refine ⟨'S', by decide, ?_⟩
    cases m with
    | character c =>
      have hword : Opens 'S' "Syntax error: expected '" := by decide +kernel
      exact (hword.append _).append _
    | phrase label =>
      have hword : Opens 'S' "Syntax error: expected " := by decide +kernel
      exact hword.append _
    | rejected | word | run | digit | follow | alternatives => decide +kernel
  | unknown =>
    have hword : Opens 'S' "Syntax error: unknown identifier '" := by decide +kernel
    exact ⟨'S', by decide, (hword.append _).append _⟩
  | otherKind =>
    have hword : Opens 'S' "Syntax error: '" := by decide +kernel
    exact ⟨'S', by decide, ((((hword.append _).append _).append _).append _).append _⟩
  | words h =>
    obtain ⟨ch, hch, hopens⟩ := h.opens hregular
    exact ⟨ch, List.mem_append_left ['F'] hch, hopens⟩
  | late => exact ⟨'S', by decide, by decide +kernel⟩
  | duplicate =>
    have hword : Opens 'D' "Duplicate symbol '" := by decide +kernel
    exact ⟨'D', by decide, (hword.append _).append _⟩
  | noLoader =>
    have hword : Opens 'F' "Failed to load import '" := by decide +kernel
    exact ⟨'F', by decide, (hword.append _).append _⟩

end Wording

theorem readsAsBound (g : Grammar) {type : FeatureType} (hregular : type.Regular) :
    g.ReadsAsBound type where
  accepted h := h.accepted hregular
  called hfind hcall := constructor_called hregular hcall hfind
  fails hfind hcall := constructor_fails hregular hcall hfind
  located := callArguments_fails hregular

end Grammar

theorem Catalog.regular : ∀ type ∈ registry.types, type.Regular := by decide

/-- Calls are read as they are bound, for each type that asks for nothing after what may be omitted.
What is read for its parameters is accepted, and a call fails at the argument that does not fit, at
the place of this argument. All types of the catalog are such types. Where all registered types are,
no error of reading a text complains about the arguments of a call as a whole. -/
theorem Grammar.calls_read_as_bound :
    (∀ type ∈ Catalog.registry.types, type.Regular) ∧
    (∀ (g : Grammar) (type : FeatureType), type.Regular → g.ReadsAsBound type) ∧
    ∀ (M : Model) (registry : Registry) (file source : String) (e : CompileError),
      (∀ type ∈ registry.types, type.Regular) →
      M.read registry file source = .error e ∨ M.readScript registry source = .error e →
      ∀ name cause, e.message ≠ complaint name cause := by
  refine ⟨Catalog.regular, fun g _ => readsAsBound g, ?_⟩
  intro M registry file source e hregular hread name cause heq
  have hphrased : ∃ kind, Phrased registry kind e.message := by
    rcases hread with hread | hread
    · obtain ⟨_, -, ⟨kind, _, hphrased, rfl⟩, -⟩ := Model.read_points hread
      exact ⟨kind, hphrased⟩
    · obtain ⟨_, -, ⟨kind, _, hphrased, rfl⟩, -⟩ := Model.readScript_points hread
      exact ⟨kind, hphrased⟩
  obtain ⟨kind, hphrased⟩ := hphrased
  obtain ⟨ch, hch, hopens⟩ := hphrased.opens hregular
  obtain rfl := hopens.unique (heq ▸ complaint_opens name cause)
  exact absurd hch (by decide)

set_option maxRecDepth 100000 in
/-- A union of one solid is refused where the comma before the second one is missing. -/
theorem Grammar.calls_read_as_bound_union :
    let e : CompileError :=
      ⟨.malformed, "Syntax error: Union expects argument 'operands: feature... (at least 2)'",
        "pair.ps", 1, 36, "u = Union(Box([0, 0, 0], [1, 1, 1]));", "                                   ^"⟩
    Model.empty.read Catalog.registry "pair.ps" "u = Union(Box([0, 0, 0], [1, 1, 1]));" = .error e ∧
      (∀ name cause, e.message ≠ complaint name cause) ∧
      ReadsAsBound ⟨Catalog.registry, .empty⟩ Catalog.union := by
  intro e
  obtain ⟨hcatalog, htypes, hmessages⟩ := calls_read_as_bound
  have hread : (Model.empty.read Catalog.registry "pair.ps"
      "u = Union(Box([0, 0, 0], [1, 1, 1]));").map (fun _ => ()) = .error e := by decide +kernel
  have hfails : Model.empty.read Catalog.registry "pair.ps"
      "u = Union(Box([0, 0, 0], [1, 1, 1]));" = .error e := by
    revert hread
    cases Model.empty.read Catalog.registry "pair.ps" "u = Union(Box([0, 0, 0], [1, 1, 1]));" with
    | error e' => exact fun h => congrArg Except.error (Except.error.inj h)
    | ok M => nofun
  exact ⟨hfails, hmessages _ _ _ _ e hcatalog (.inl hfails), htypes _ Catalog.union (by decide)⟩

end PartScript
