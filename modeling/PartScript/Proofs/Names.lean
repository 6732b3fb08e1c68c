/-
  What names designate. Following a name leads along a chain of aliases to a construction;
  the chain stays the same when more names are bound, unless it ends at a name that is not
  bound yet. A circular dependency is reported only where the chain really is cyclic.
-/
import Mathlib.Data.List.Perm.Subperm
import Mathlib.Logic.Relation
import PartScript.Proofs.Plan
import PartScript.Build.Reference

namespace PartScript

open Relation

/-! ## Extensions of a model -/

namespace Model

/-- More names are bound, after those bound before. -/
def Extends (M' M : Model) : Prop := M.bindings <+: M'.bindings

theorem Extends.refl (M : Model) : M.Extends M := List.prefix_refl _

theorem Extends.trans {M M' M'' : Model} (h' : M''.Extends M') (h : M'.Extends M) :
    M''.Extends M := List.IsPrefix.trans h h'

theorem mem_of_binding? {M : Model} {name : String} {b : Binding}
    (h : M.binding? name = some b) : b ∈ M.bindings ∧ b.name = name := by
  rw [binding?_eq_find?] at h
  refine ⟨List.mem_of_find?_eq_some h, ?_⟩
  simpa using List.find?_some h

theorem Extends.binding? {M M' : Model} (hM : M'.Extends M) {name : String} {b : Binding}
    (h : M.binding? name = some b) : M'.binding? name = some b := by
  obtain ⟨more, hmore⟩ := hM
  rw [binding?_eq_find?] at h ⊢
  rw [← hmore, List.find?_append, h, Option.some_or]

end Model

/-! ## Chains of aliases -/

namespace FeatureRef

/-- The name at the base of a reference, if there is one. -/
def head? : FeatureRef → Option String
  | named name => some name
  | inline _ => none
  | sub base _ => base.head?

variable {follow follow' : String → Except BuildError (Feature × List String)}

/-- An error in following a reference is one of following the name at its base. -/
theorem targetOver_error {r : FeatureRef} {e : BuildError}
    (h : r.targetOver follow = .error e) : ∃ name, r.head? = some name ∧ follow name = .error e := by
  fun_induction targetOver follow r with
  | case1 name => exact ⟨name, rfl, h⟩
  | case2 f => cases h
  | case3 base name ih =>
    cases hb : base.targetOver follow with
    | error e' =>
      rw [hb] at h
      obtain rfl : e' = e := Except.error.inj h
      exact ih hb
    | ok t =>
      rw [hb] at h
      cases h

/-- A reference leads to the construction written in it, or to where its name leads. -/
theorem targetOver_root {r : FeatureRef} {root : Feature} {path : List String}
    (h : r.targetOver follow = .ok (root, path)) :
    root ∈ r.constructions ∨ ∃ name below, r.head? = some name ∧ follow name = .ok (root, below) := by
  fun_induction targetOver follow r generalizing path with
  | case1 name => exact .inr ⟨name, path, rfl, h⟩
  | case2 f =>
    obtain rfl : f = root := congrArg Prod.fst (Except.ok.inj h)
    left
    cases f
    exact List.mem_cons_self
  | case3 base name ih =>
    cases hb : base.targetOver follow with
    | error e =>
      rw [hb] at h
      cases h
    | ok t =>
      rw [hb] at h
      obtain rfl : t.1 = root := congrArg Prod.fst (Except.ok.inj h)
      exact ih hb

/-- Two ways to follow names that differ only on names not bound yet. -/
theorem targetOver_extends {r : FeatureRef}
    (h : ∀ name, follow' name = follow name ∨
      ∃ e, follow name = .error e ∧ e.isDeferred = true) :
    r.targetOver follow' = r.targetOver follow ∨
      ∃ e, r.targetOver follow = .error e ∧ e.isDeferred = true := by
  fun_induction targetOver follow r with
  | case1 name => exact h name
  | case2 f => exact .inl rfl
  | case3 base name ih =>
    rcases ih with heq | ⟨e, he, hd⟩
    · left
      rw [targetOver, heq]
    · right
      refine ⟨e, ?_, hd⟩
      rw [he]
      rfl

end FeatureRef

namespace Model

variable {M M' : Model}

/-- A name is bound to a reference with another name at its base. -/
def Aliases (M : Model) (name other : String) : Prop :=
  ∃ b r, M.binding? name = some b ∧ b.value = .feature r ∧ r.head? = some other

/-- A chain of aliases leads from the base of a reference into a cycle. -/
def AliasCyclic (M : Model) (r : FeatureRef) : Prop :=
  ∃ name other, r.head? = some name ∧ ReflTransGen M.Aliases name other ∧
    TransGen M.Aliases other other

theorem Aliases.mono (hM : M'.Extends M) {name other : String} (h : M.Aliases name other) :
    M'.Aliases name other := by
  obtain ⟨b, r, hb, hv, hr⟩ := h
  exact ⟨b, r, hM.binding? hb, hv, hr⟩

theorem AliasCyclic.mono (hM : M'.Extends M) {r : FeatureRef} (h : M.AliasCyclic r) :
    M'.AliasCyclic r := by
  obtain ⟨name, other, hr, hto, hcycle⟩ := h
  have hstep : ∀ x y, M.Aliases x y → M'.Aliases x y := fun _ _ => Aliases.mono hM
  exact ⟨name, other, hr, ReflTransGen.mono hstep _ _ hto, TransGen.mono hstep _ _ hcycle⟩

/-- The names that have been followed: they are distinct and bound, and `n` more may be. -/
structure Followed (M : Model) (n : Nat) (seen : List String) : Prop where
  nodup : seen.Nodup
  bound : ∀ name ∈ seen, (M.binding? name).isSome
  count : n + seen.length = M.bindings.length + 1

/-- There are no more distinct bound names than bindings. -/
theorem Followed.pos {n : Nat} {seen : List String} (h : M.Followed n seen) : 0 < n := by
  have hsub : seen ⊆ M.bindings.map (·.name) := by
    intro name hname
    obtain ⟨b, hb⟩ := Option.isSome_iff_exists.mp (h.bound name hname)
    obtain ⟨hmem, rfl⟩ := mem_of_binding? hb
    exact List.mem_map_of_mem hmem
  have hle := (h.nodup.subperm hsub).length_le
  have hcount := h.count
  rw [List.length_map] at hle
  omega

theorem Followed.nil (M : Model) : M.Followed (M.bindings.length + 1) [] :=
  ⟨List.nodup_nil, by simp, rfl⟩

theorem Followed.cons {n : Nat} {seen : List String} (h : M.Followed (n + 1) seen)
    {name : String} (hnew : name ∉ seen) (hb : (M.binding? name).isSome) :
    M.Followed n (name :: seen) := by
  refine ⟨List.nodup_cons.mpr ⟨hnew, h.nodup⟩, ?_, ?_⟩
  · intro x hx
    rcases List.mem_cons.mp hx with rfl | hx
    · exact hb
    · exact h.bound x hx
  · have hcount := h.count
    rw [List.length_cons]
    omega

/-- Where following a name ends in a circular dependency, there is a cycle of aliases. -/
theorem targetOfName_circular {n : Nat} {seen : List String} {name : String} {e : BuildError}
    (hseen : M.Followed n seen) (hchain : ∀ x ∈ seen, TransGen M.Aliases x name)
    (h : M.targetOfName n seen name = .error e) (he : e.cause = .circular) :
    ∃ other, ReflTransGen M.Aliases name other ∧ TransGen M.Aliases other other := by
  induction n generalizing seen name with
  | zero => exact absurd hseen.pos (Nat.lt_irrefl 0)
  | succ n ih =>
    unfold targetOfName at h
    by_cases hmem : name ∈ seen
    · exact ⟨name, .refl, hchain name hmem⟩
    · rw [if_neg (by simpa using hmem)] at h
      cases hb : M.binding? name with
      | none =>
        obtain rfl : _ = e := by simpa [hb] using h
        cases he
      | some b =>
        cases hv : b.value with
        | feature r =>
          simp only [hb, hv] at h
          obtain ⟨next, hhead, hnext⟩ := FeatureRef.targetOver_error h
          have hstep : M.Aliases name next := ⟨b, r, hb, hv, hhead⟩
          obtain ⟨other, hto, hcycle⟩ := ih (hseen.cons hmem (by simp [hb]))
            (by
              intro x hx
              rcases List.mem_cons.mp hx with rfl | hx
              · exact .single hstep
              · exact (hchain x hx).tail hstep) hnext
          exact ⟨other, hto.head hstep, hcycle⟩
        | _ =>
          simp only [hb, hv] at h
          obtain rfl := Except.error.inj h
          cases he

/-- A circular dependency in following a reference is a cycle of aliases. -/
theorem target_circular {r : FeatureRef} {e : BuildError} (h : M.target r = .error e)
    (he : e.cause = .circular) : M.AliasCyclic r := by
  obtain ⟨name, hhead, hname⟩ := FeatureRef.targetOver_error h
  obtain ⟨other, hto, hcycle⟩ := targetOfName_circular (.nil M) (by simp) hname he
  exact ⟨name, other, hhead, hto, hcycle⟩

/-- Following names only blames names for not being those of features. -/
theorem targetOfName_blamed {n : Nat} {seen : List String} {name blamed : String} {e : BuildError}
    {kind : SymbolKind} (h : M.targetOfName n seen name = .error e)
    (he : e.blamed? = some (kind, blamed)) : kind = .feature := by
  induction n generalizing seen name with
  | zero =>
    obtain rfl := Except.error.inj h
    cases he
  | succ n ih =>
    unfold targetOfName at h
    split at h
    · obtain rfl := Except.error.inj h
      cases he
    · split at h
      · obtain rfl := Except.error.inj h
        cases he
        rfl
      · split at h
        · obtain ⟨next, -, hnext⟩ := FeatureRef.targetOver_error h
          exact ih hnext
        · obtain rfl := Except.error.inj h
          cases he
          rfl

theorem target_blamed {r : FeatureRef} {e : BuildError} {kind : SymbolKind} {name : String}
    (h : M.target r = .error e) (he : e.blamed? = some (kind, name)) : kind = .feature := by
  obtain ⟨_, -, hname⟩ := FeatureRef.targetOver_error h
  exact targetOfName_blamed hname he

theorem targetOfName_extends (hM : M'.Extends M) {n n' : Nat} {seen : List String}
    (hseen : M.Followed n seen) (hn : n ≤ n') (name : String) :
    M'.targetOfName n' seen name = M.targetOfName n seen name ∨
      ∃ e, M.targetOfName n seen name = .error e ∧ e.isDeferred = true := by
  induction n generalizing n' seen name with
  | zero => exact absurd hseen.pos (Nat.lt_irrefl 0)
  | succ n ih =>
    obtain ⟨n', rfl⟩ := Nat.exists_eq_add_of_le' (Nat.lt_of_lt_of_le (Nat.succ_pos n) hn)
    unfold targetOfName
    by_cases hmem : name ∈ seen
    · left
      rw [if_pos (by simpa using hmem), if_pos (by simpa using hmem)]
    · rw [if_neg (by simpa using hmem), if_neg (by simpa using hmem)]
      cases hb : M.binding? name with
      | none => exact .inr ⟨_, rfl, rfl⟩
      | some b =>
        simp only [hM.binding? hb]
        cases b.value with
        | feature r =>
          exact FeatureRef.targetOver_extends fun other =>
            ih (hseen.cons hmem (by simp [hb])) (Nat.le_of_succ_le_succ hn) other
        | _ => exact .inl rfl

/-- Binding more names changes only where those references lead that ended at a name that
was not bound. -/
theorem target_extends (hM : M'.Extends M) (r : FeatureRef) :
    M'.target r = M.target r ∨ ∃ e, M.target r = .error e ∧ e.isDeferred = true :=
  FeatureRef.targetOver_extends fun name =>
    targetOfName_extends hM (.nil M) (Nat.succ_le_succ hM.length_le) name

theorem targetOfName_root {n : Nat} {seen : List String} {name : String} {root : Feature}
    {path : List String} (h : M.targetOfName n seen name = .ok (root, path)) :
    ∃ b ∈ M.bindings, root ∈ b.value.constructions := by
  induction n generalizing seen name path with
  | zero => simp [targetOfName] at h
  | succ n ih =>
    unfold targetOfName at h
    split at h
    · cases h
    · cases hb : M.binding? name with
      | none => simp [hb] at h
      | some b =>
        cases hv : b.value with
        | feature r =>
          simp only [hb, hv] at h
          rcases FeatureRef.targetOver_root h with hroot | ⟨other, below, -, hother⟩
          · refine ⟨b, (mem_of_binding? hb).1, ?_⟩
            rw [hv]
            exact hroot
          · exact ih hother
        | _ => simp [hb, hv] at h

/-- A reference leads to a construction written in it or in the model. -/
theorem target_root {r : FeatureRef} {root : Feature} {path : List String}
    (h : M.target r = .ok (root, path)) :
    root ∈ r.constructions ∨ ∃ b ∈ M.bindings, root ∈ b.value.constructions := by
  rcases FeatureRef.targetOver_root h with hroot | ⟨name, below, -, hname⟩
  · exact .inl hroot
  · exact .inr (targetOfName_root hname)

end Model

end PartScript
