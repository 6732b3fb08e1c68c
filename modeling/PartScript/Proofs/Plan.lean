/-
  Runs of plans: what a run does at each node of a plan, runs of plans in sequence, and the
  kinds of causes that an evaluation can fail for.
-/
import PartScript.Build.Plan

namespace PartScript

/-! ## Causes -/

/-- The ways in which a backend refuses. -/
inductive Refusal where
  | infeasible
  | unsupported
  | invalidFilter
  | kernelNotAvailable
  | operationFailed
deriving DecidableEq, Repr

def BackendError.refusal : BackendError → Refusal
  | .infeasible _ => .infeasible
  | .unsupported _ => .unsupported
  | .invalidFilter _ => .invalidFilter
  | .kernelNotAvailable _ => .kernelNotAvailable
  | .operationFailed _ => .operationFailed

/-- The kinds of root causes, with the way in which a backend refused. -/
inductive Cause where
  | circular
  | unresolved
  | kindMismatch
  | backend (refusal : Refusal)
  | selection (refusal : Refusal)
  | missingSubResult
  | missingReference
  | incompatibleSelections
  | evaluation
  | noOutputs
deriving DecidableEq, Repr

/-- The kind of the root cause of an error. -/
def BuildError.cause : BuildError → Cause
  | .circularDependency _ => .circular
  | .unresolvedReference _ _ => .unresolved
  | .kindMismatch _ _ _ => .kindMismatch
  | .backend _ source => .backend source.refusal
  | .failedInput _ source => source.cause
  | .selection _ _ source => .selection source.refusal
  | .missingSubResult _ _ => .missingSubResult
  | .missingReference _ _ _ => .missingReference
  | .incompatibleSelections _ _ _ _ => .incompatibleSelections
  | .evaluation _ => .evaluation
  | .noOutputs => .noOutputs

/-- The kind of a cause is read off the root cause. -/
theorem BuildError.cause_rootCause (e : BuildError) : e.rootCause.cause = e.cause := by
  fun_induction rootCause e with
  | case1 label source ih => rw [ih, cause]
  | case2 error h => rfl

theorem BuildError.isDeferred_iff (e : BuildError) : e.isDeferred ↔ e.cause = .unresolved := by
  rw [← e.cause_rootCause, isDeferred]
  cases h : e.rootCause with
  | failedInput label source =>
    exfalso
    fun_induction rootCause e with
    | case1 _ _ ih => exact ih h
    | case2 error hne => exact hne _ _ h
  | _ => simp [cause]

/-- The name for which an evaluation failed, because it is not bound to a value of the kind as
which it is used, with that kind. -/
def BuildError.blamed? (e : BuildError) : Option (SymbolKind × String) :=
  match e.rootCause with
  | .unresolvedReference kind name => some (kind, name)
  | .kindMismatch name expected _ => some (expected, name)
  | _ => none

/-- Only two kinds of causes blame a name. -/
theorem BuildError.blamed?_eq_none {e : BuildError} (h : e.cause ≠ .unresolved)
    (h' : e.cause ≠ .kindMismatch) : e.blamed? = none := by
  rw [← e.cause_rootCause] at h h'
  unfold blamed?
  split
  · next heq => exact absurd (by rw [heq, cause]) h
  · next heq => exact absurd (by rw [heq, cause]) h'
  · rfl

/-- An error as the feature that needs an input reports it. -/
def BuildError.asInput : Option String → BuildError → BuildError
  | some label, error => .failedInput label error
  | none, error => error

@[simp] theorem BuildError.rootCause_asInput (user : Option String) (e : BuildError) :
    (e.asInput user).rootCause = e.rootCause := by
  cases user <;> rfl

@[simp] theorem BuildError.blamed?_asInput (user : Option String) (e : BuildError) :
    (e.asInput user).blamed? = e.blamed? := by
  cases user <;> rfl

@[simp] theorem BuildError.cause_asInput (user : Option String) (e : BuildError) :
    (e.asInput user).cause = e.cause := by
  cases user <;> rfl

/-- Outcomes that agree: related values, or errors with causes of one kind. -/
def Agree {α : Type} (R : α → α → Prop) : Except BuildError α → Except BuildError α → Prop
  | .ok a, .ok a' => R a a'
  | .error e, .error e' => e.cause = e'.cause
  | _, _ => False

/-- A halt as the feature that needs an input reports it. -/
def Halt.within : Option String → Halt → Halt
  | some label, .failed error => .failed (.failedInput label error)
  | none, .failed error => .failed error
  | _, .exhausted => .exhausted

theorem Halt.within_failed {user : Option String} {h : Halt} {e : BuildError}
    (he : h.within user = .failed e) : ∃ e', h = .failed e' ∧ e = e'.asInput user := by
  cases h with
  | exhausted => cases user <;> cases he
  | failed e' =>
    refine ⟨e', rfl, ?_⟩
    cases user <;> cases he <;> rfl

/-! ## Runs -/

namespace Build

variable {α β : Type}

@[simp] theorem pure_apply (a : α) (s : BuildState) : (pure a : Build α) s = (.ok a, s) := rfl

@[simp] theorem fail_apply (e : BuildError) (s : BuildState) :
    (fail e : Build α) s = (.error (.failed e), s) := rfl

@[simp] theorem halt_apply (h : Halt) (s : BuildState) :
    (halt h : Build α) s = (.error h, s) := rfl

theorem bind_apply (m : Build α) (f : α → Build β) (s : BuildState) :
    (m >>= f) s =
      match m s with
      | (.ok a, s') => f a s'
      | (.error h, s') => (.error h, s') := rfl

theorem asInput_apply (user : Option String) (m : Build α) (s : BuildState) :
    asInput user m s =
      match m s with
      | (.ok a, s') => (.ok a, s')
      | (.error h, s') => (.error (h.within user), s') := by
  unfold asInput
  rcases m s with ⟨_ | _, s'⟩
  · rename_i h
    cases h <;> cases user <;> rfl
  · rfl

end Build

namespace Plan

variable {α β γ : Type} (ask : Answers)

@[simp] theorem pure_eq (a : α) : (pure a : Plan α) = done a := rfl

@[simp] theorem done_bind (a : α) (f : α → Plan β) : (done a >>= f) = f a := rfl

@[simp] theorem stop_bind (e : BuildError) (f : α → Plan β) : (stop e >>= f) = stop e := rfl

@[simp] theorem demand_bind (d : Demand) (user : Option String) (next : d.Answer → Plan α)
    (f : α → Plan β) : (demand d user next >>= f) = demand d user fun a => next a >>= f := rfl

@[simp] theorem identify_bind (d : Description) (next : StructuralHash → Plan α)
    (f : α → Plan β) : (identify d next >>= f) = identify d fun h => next h >>= f := rfl

@[simp] theorem run_done (a : α) (s : BuildState) : (done a).run ask s = (.ok a, s) := rfl

@[simp] theorem run_stop (e : BuildError) (s : BuildState) :
    (stop e : Plan α).run ask s = (.error (.failed e), s) := rfl

theorem run_demand (d : Demand) (user : Option String) (next : d.Answer → Plan α)
    (s : BuildState) :
    (demand d user next).run ask s =
      match ask d s with
      | (.ok a, s') => (next a).run ask s'
      | (.error h, s') => (.error (h.within user), s') := by
  rw [run, Build.bind_apply, Build.asInput_apply]
  rcases ask d s with ⟨_ | _, s'⟩ <;> rfl

@[simp] theorem run_identify (d : Description) (next : StructuralHash → Plan α)
    (s : BuildState) :
    (identify d next).run ask s =
      (next d.hash).run ask { s with described := d :: s.described } := rfl

theorem run_bind (p : Plan α) (f : α → Plan β) (s : BuildState) :
    (p >>= f).run ask s = (p.run ask >>= fun a => (f a).run ask) s := by
  induction p generalizing s with
  | done a => rfl
  | stop e => rfl
  | demand d user next ih =>
    rw [demand_bind, run_demand, Build.bind_apply, run_demand]
    rcases ask d s with ⟨_ | a, s'⟩
    · rfl
    · exact ih a s'
  | identify d next ih => exact ih d.hash _

theorem run_bind_ok (p : Plan α) (f : α → Plan β) (s : BuildState) (b : β) :
    ((p >>= f).run ask s).1 = .ok b ↔
      ∃ a, (p.run ask s).1 = .ok a ∧ ((f a).run ask (p.run ask s).2).1 = .ok b := by
  rw [run_bind, Build.bind_apply]
  rcases p.run ask s with ⟨halt | a, s'⟩
  · simp
  · simp

end Plan

end PartScript
