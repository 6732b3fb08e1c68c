/-
  Imports. A walk that succeeds has asked the library once for every module that the entry needs
  and that was not loaded before, and for no other; it gives these modules, each after all that
  it imports. It fails only if one of them cannot be read, if the imports of one are malformed,
  or at an import that leads back to a module from which it is reached.
-/
import Mathlib.Data.List.Chain
import Mathlib.Data.List.Nodup
import Mathlib.Data.List.Perm.Subperm
import Mathlib.Logic.Relation
import PartScript.Project.Modules

namespace PartScript

open Relation

theorem Table.get?_eq_none_of_notMem {α β : Type} [DecidableEq α] {t : Table α β} {x : α}
    (h : x ∉ t.map (·.1)) : t.get? x = none := by
  induction t with
  | nil => rfl
  | cons p t ih =>
    obtain ⟨k, v⟩ := p
    rw [List.map_cons, List.mem_cons, not_or] at h
    rw [Table.get?, if_neg (Ne.symm h.1)]
    exact ih h.2

namespace Library

/-! ## The import graph -/

variable (library : Library) (loaded : String → Bool) (entry : String)

/-- The text of a module, with its import declarations. -/
def Declares (path source : String) (imports : List Grammar.ImportDeclaration) : Prop :=
  library.read path = .ok source ∧ ∃ last, Grammar.leadingImports path source = .ok (imports, last)

/-- One of the import declarations of a module leads to another. -/
def Imports (path other : String) : Prop :=
  ∃ source imports, library.Declares path source imports ∧
    ∃ declaration ∈ imports, other = ModulePath.resolve path declaration.path

/-- The modules that the import declarations of a module lead to. -/
def importsOf (path : String) : List String :=
  match library.read path with
  | .error _ => []
  | .ok source =>
    match Grammar.leadingImports path source with
    | .error _ => []
    | .ok (imports, _) => imports.map fun declaration => ModulePath.resolve path declaration.path

/-- The modules that are reached from the entry by import declarations without passing through
a module that was loaded before. -/
inductive Needs : String → Prop where
  | entry : loaded entry = false → Needs entry
  | imports {path other : String} : Needs path → library.Imports path other →
      loaded other = false → Needs other

/-- An import of a module that was not loaded before. -/
def Enters (path other : String) : Prop := library.Imports path other ∧ loaded other = false

/-- Each module of a list stands after all that it imports, except for those loaded before. -/
def DependenciesFirst (order : List String) : Prop :=
  ∀ before path after, order = before ++ path :: after →
    ∀ other, library.Imports path other → loaded other = true ∨ other ∈ before

/-- A path of imports from the entry, and an import of its last module that leads back to a
module on it. -/
structure LeadsBack (chain : List String) (last : String) : Prop where
  head : chain.head? = some entry
  imports : (chain ++ [last]).IsChain library.Imports
  needed : ∀ path ∈ chain, library.Needs loaded entry path
  back : last ∈ chain

variable {library loaded entry}

theorem Declares.unique {path source source' : String}
    {imports imports' : List Grammar.ImportDeclaration} (h : library.Declares path source imports)
    (h' : library.Declares path source' imports') : source = source' ∧ imports = imports' := by
  obtain ⟨hread, last, himports⟩ := h
  obtain ⟨hread', last', himports'⟩ := h'
  obtain rfl := Except.ok.inj (hread.symm.trans hread')
  exact ⟨rfl, (Prod.mk.inj (Except.ok.inj (himports.symm.trans himports'))).1⟩

theorem Declares.imports_iff {path source other : String}
    {imports : List Grammar.ImportDeclaration} (h : library.Declares path source imports) :
    library.Imports path other ↔
      ∃ declaration ∈ imports, other = ModulePath.resolve path declaration.path := by
  refine ⟨?_, fun hmem => ⟨source, imports, h, hmem⟩⟩
  rintro ⟨source', imports', h', hmem⟩
  rwa [(h.unique h').2]

theorem mem_importsOf {path other : String} :
    other ∈ library.importsOf path ↔ library.Imports path other := by
  unfold importsOf
  constructor
  · intro h
    split at h
    · cases h
    · next source hread =>
      split at h
      · cases h
      · next imports last himports =>
        obtain ⟨declaration, hmem, rfl⟩ := List.mem_map.mp h
        exact ⟨source, imports, ⟨hread, last, himports⟩, declaration, hmem, rfl⟩
  · rintro ⟨source, imports, ⟨hread, last, himports⟩, declaration, hmem, rfl⟩
    rw [hread]
    simp only [himports]
    exact List.mem_map.mpr ⟨declaration, hmem, rfl⟩

instance (path other : String) : Decidable (library.Imports path other) :=
  decidable_of_iff _ mem_importsOf

instance (path other : String) : Decidable (library.Enters loaded path other) :=
  inferInstanceAs (Decidable (_ ∧ _))

namespace DependenciesFirst

theorem nil : library.DependenciesFirst loaded [] := by
  intro before path after h
  simp at h

theorem concat {order : List String} {path : String} (h : library.DependenciesFirst loaded order)
    (hpath : ∀ other, library.Imports path other → loaded other = true ∨ other ∈ order) :
    library.DependenciesFirst loaded (order ++ [path]) := by
  intro before module after heq other hother
  rcases List.eq_nil_or_concat after with rfl | ⟨rest, last, rfl⟩
  · obtain ⟨rfl, hlast⟩ := List.append_inj' heq rfl
    obtain rfl := List.singleton_inj.mp hlast
    exact hpath other hother
  · rw [List.concat_eq_append, ← List.cons_append, ← List.append_assoc] at heq
    obtain ⟨rfl, -⟩ := List.append_inj' heq rfl
    exact h before module rest rfl other hother

/-- A module that is imported stands before the one that imports it. -/
theorem idxOf_lt {order : List String} {path other : String}
    (h : library.DependenciesFirst loaded order) (hpath : path ∈ order)
    (hother : library.Enters loaded path other) : order.idxOf other < order.idxOf path := by
  obtain ⟨before, after, rfl, hfirst⟩ := List.eq_append_cons_of_mem hpath
  have hmem : other ∈ before := by
    rcases h before path after rfl other hother.1 with hloaded | hmem
    · rw [hother.2] at hloaded
      cases hloaded
    · exact hmem
  rw [List.idxOf_append_of_mem hmem, List.idxOf_append_of_notMem hfirst, List.idxOf_cons_self]
  exact Nat.lt_add_right 0 (List.idxOf_lt_length_of_mem hmem)

end DependenciesFirst

theorem Needs.trans {path other : String} (h : library.Needs loaded entry path)
    (hother : TransGen (library.Enters loaded) path other) : library.Needs loaded entry other := by
  induction hother with
  | single hstep => exact h.imports hstep.1 hstep.2
  | tail _ hstep ih => exact ih.imports hstep.1 hstep.2

/-- Why a walk ends with an error: a module that is needed cannot be read, its imports are
malformed, or one of them leads back. An error may be moved to the import that needs it. -/
inductive Obstacle (library : Library) (loaded : String → Bool) (entry : String) :
    CompileError → Prop where
  | unread {path message : String} : library.Needs loaded entry path →
      library.read path = .error message → Obstacle library loaded entry
        (.inFile .unreadableImport s!"Failed to load source '{path}': {message}" path)
  | malformed {path source : String} {e : CompileError} : library.Needs loaded entry path →
      library.read path = .ok source → Grammar.leadingImports path source = .error e →
      Obstacle library loaded entry e
  | cycle {chain : List String} {last path source : String} (span : SourceSpan) :
      library.LeadsBack loaded entry chain last → chain.getLast? = some path →
      Obstacle library loaded entry (.atSpan .unreadableImport
        ("Import cycle detected: " ++ " -> ".intercalate (chain ++ [last])) path source span)
  | moved {e : CompileError} (path source resolved : String)
      (declaration : Grammar.ImportDeclaration) : Obstacle library loaded entry e →
      Obstacle library loaded entry (ImportWalk.atImport path source resolved declaration e)

/-- How a module is come to: by a path of imports from the entry through modules that have been
read, all of them different. -/
structure Trail (library : Library) (loaded : String → Bool) (entry : String)
    (stack : List String) (path : String) : Prop where
  head : (stack ++ [path]).head? = some entry
  imports : (stack ++ [path]).IsChain library.Imports
  needed : ∀ other ∈ stack, library.Needs loaded entry other
  readable : ∀ other ∈ stack, ∃ source, library.read other = .ok source
  distinct : (stack ++ [path]).Nodup

namespace Trail

variable {stack : List String} {path other : String}

theorem first (library : Library) (loaded : String → Bool) (entry : String) :
    library.Trail loaded entry [] entry :=
  ⟨rfl, .singleton _, nofun, nofun, List.nodup_singleton _⟩

theorem needs (h : library.Trail loaded entry stack path) (hloaded : loaded path = false) :
    library.Needs loaded entry path := by
  rcases List.eq_nil_or_concat stack with rfl | ⟨before, last, rfl⟩
  · obtain rfl := Option.some.inj h.head
    exact .entry hloaded
  · rw [List.concat_eq_append] at h
    have himports : library.Imports last path :=
      (List.isChain_append.mp h.imports).2.2 last (by simp) path (by simp)
    exact (h.needed last (by simp)).imports himports hloaded

theorem needed_concat (h : library.Trail loaded entry stack path) (hloaded : loaded path = false) :
    ∀ x ∈ stack ++ [path], library.Needs loaded entry x := by
  intro x hx
  rcases List.mem_append.mp hx with hx | hx
  · exact h.needed x hx
  · exact List.mem_singleton.mp hx ▸ h.needs hloaded

/-- A module that has been read is on the trail of what it imports. -/
theorem enter {source : String} (h : library.Trail loaded entry stack path)
    (hloaded : loaded path = false) (hread : library.read path = .ok source)
    (hother : library.Imports path other) (hnew : other ∉ stack ++ [path]) :
    library.Trail loaded entry (stack ++ [path]) other where
  head := by
    rw [List.head?_append, h.head]
    rfl
  imports := List.isChain_append.mpr ⟨h.imports, .singleton _, by simpa using hother⟩
  needed := h.needed_concat hloaded
  readable := by
    intro x hx
    rcases List.mem_append.mp hx with hx | hx
    · exact h.readable x hx
    · exact ⟨source, List.mem_singleton.mp hx ▸ hread⟩
  distinct := List.nodup_append_comm.mp (List.nodup_cons.mpr ⟨hnew, h.distinct⟩)

/-- An import of a module on the trail leads back. -/
theorem leadsBack (h : library.Trail loaded entry stack path) (hloaded : loaded path = false)
    (hother : library.Imports path other) (hback : other ∈ stack ++ [path]) :
    library.LeadsBack loaded entry (stack ++ [path]) other where
  head := h.head
  imports := List.isChain_append.mpr ⟨h.imports, .singleton _, by simpa using hother⟩
  needed := h.needed_concat hloaded
  back := hback

/-- A trail is no longer than the library. -/
theorem length_le (h : library.Trail loaded entry stack path) :
    stack.length ≤ library.texts.length := by
  have hsub : stack ⊆ library.texts.map (·.1) := by
    intro x hx
    obtain ⟨source, hread⟩ := h.readable x hx
    unfold read at hread
    by_contra hnot
    rw [Table.get?_eq_none_of_notMem hnot] at hread
    cases hread
  have hle := ((List.nodup_append.mp h.distinct).1.subperm hsub).length_le
  rwa [List.length_map] at hle

end Trail

end Library

namespace ImportWalk

/-- The paths of the modules that have been walked. -/
def paths (walk : ImportWalk) : List String := walk.order.map (·.1)

/-- What holds of a walk while the modules on the stack are being walked. -/
structure Sound (library : Library) (loaded : String → Bool) (entry : String)
    (stack : List String) (walk : ImportWalk) : Prop where
  asked : walk.asked.Perm (walk.paths ++ stack)
  distinct : (walk.paths ++ stack).Nodup
  needed : ∀ path ∈ walk.paths, library.Needs loaded entry path
  declared : ∀ m ∈ walk.order, ∃ imports, library.Declares m.1 m.2 imports
  ordered : library.DependenciesFirst loaded walk.paths

/-- What walking certain modules comes to: each has been walked or was loaded before, and so
has what was walked before them, or there is an obstacle. -/
def Covers (library : Library) (loaded : String → Bool) (entry : String) (stack : List String)
    (walk : ImportWalk) (needed : String → Prop) : Except CompileError Unit × ImportWalk → Prop
  | (.ok (), walk') => walk'.Sound library loaded entry stack ∧ walk.paths ⊆ walk'.paths ∧
      ∀ path, needed path → loaded path = true ∨ path ∈ walk'.paths
  | (.error e, _) => library.Obstacle loaded entry e

variable {library : Library} {loaded : String → Bool} {entry : String} {stack : List String}
  {path : String} {walk : ImportWalk}

theorem isDone_iff : walk.isDone path = true ↔ path ∈ walk.paths := by
  simp [isDone, paths]

theorem Sound.begin (library : Library) (loaded : String → Bool) (entry : String) :
    Sound library loaded entry [] ⟨[], []⟩ :=
  ⟨.refl _, List.nodup_nil, nofun, nofun, .nil⟩

/-- The library is asked for a module. -/
theorem Sound.ask (h : walk.Sound library loaded entry stack)
    (htrail : library.Trail loaded entry stack path) (hnew : path ∉ walk.paths) :
    Sound library loaded entry (stack ++ [path]) { walk with asked := walk.asked ++ [path] } where
  asked := by
    rw [← List.append_assoc]
    exact h.asked.append_right [path]
  distinct := by
    show (walk.paths ++ (stack ++ [path])).Nodup
    rw [← List.append_assoc]
    refine List.nodup_append_comm.mp (List.nodup_cons.mpr ⟨?_, h.distinct⟩)
    have hstack : path ∉ stack :=
      (List.nodup_cons.mp (List.nodup_append_comm.mp htrail.distinct)).1
    simpa using ⟨hnew, hstack⟩
  needed := h.needed
  declared := h.declared
  ordered := h.ordered

/-- All imports of a module have been walked. -/
theorem Sound.finish {source : String} {imports : List Grammar.ImportDeclaration}
    (h : walk.Sound library loaded entry (stack ++ [path]))
    (hneeds : library.Needs loaded entry path) (hdeclares : library.Declares path source imports)
    (himports : ∀ other, library.Imports path other → loaded other = true ∨ other ∈ walk.paths) :
    Sound library loaded entry stack { walk with order := walk.order ++ [(path, source)] } := by
  have hpaths : ({ walk with order := walk.order ++ [(path, source)] } : ImportWalk).paths =
      walk.paths ++ [path] := List.map_append
  have hperm : (walk.paths ++ (stack ++ [path])).Perm (walk.paths ++ [path] ++ stack) := by
    rw [List.append_assoc]
    exact List.perm_append_comm.append_left _
  refine ⟨?_, ?_, fun other hother => ?_, fun m hm => ?_, ?_⟩
  · rw [hpaths]
    exact h.asked.trans hperm
  · rw [hpaths]
    exact hperm.nodup_iff.mp h.distinct
  · rw [hpaths] at hother
    rcases List.mem_append.mp hother with hother | hother
    · exact h.needed other hother
    · exact List.mem_singleton.mp hother ▸ hneeds
  · rcases List.mem_append.mp hm with hm | hm
    · exact h.declared m hm
    · exact List.mem_singleton.mp hm ▸ ⟨imports, hdeclares⟩
  · rw [hpaths]
    exact h.ordered.concat himports

/-! ## Steps of a walk -/

/-- Walking the imports of a module, given what walking each of them comes to. -/
theorem visitImports_covers {visit : String → Step} {source : String}
    {imports : List Grammar.ImportDeclaration} (htrail : library.Trail loaded entry stack path)
    (hloaded : loaded path = false) (hdeclares : library.Declares path source imports)
    (hvisit : ∀ other walk, library.Trail loaded entry (stack ++ [path]) other →
      walk.Sound library loaded entry (stack ++ [path]) →
      Covers library loaded entry (stack ++ [path]) walk (· = other) (visit other walk))
    {rest : List Grammar.ImportDeclaration} (hrest : rest ⊆ imports)
    (hwalk : walk.Sound library loaded entry (stack ++ [path])) :
    Covers library loaded entry (stack ++ [path]) walk
      (fun other => ∃ declaration ∈ rest, other = ModulePath.resolve path declaration.path)
      (visitImports visit (stack ++ [path]) path source rest walk) := by
  induction rest generalizing walk with
  | nil => exact ⟨hwalk, List.Subset.refl _, fun other ⟨_, hmem, _⟩ => absurd hmem List.not_mem_nil⟩
  | cons declaration rest ih =>
    obtain ⟨hmem, hrest⟩ := List.cons_subset.mp hrest
    have hother : library.Imports path (ModulePath.resolve path declaration.path) :=
      hdeclares.imports_iff.mpr ⟨declaration, hmem, rfl⟩
    unfold visitImports
    extract_lets resolved
    split
    · next hback =>
      exact .cycle declaration.span
        (htrail.leadsBack hloaded hother (by simpa using hback)) (by simp)
    · next hnew =>
      have hone := hvisit resolved walk
        (htrail.enter hloaded hdeclares.1 hother (by simpa using hnew)) hwalk
      split
      · next walk' heq =>
        rw [heq] at hone
        obtain ⟨hwalk', hsub, hdone⟩ := hone
        have hmore := ih hrest hwalk'
        revert hmore
        generalize visitImports visit (stack ++ [path]) path source rest walk' = result
        obtain ⟨outcome, last⟩ := result
        cases outcome with
        | error e => exact id
        | ok _ =>
          rintro ⟨hlast, hsub', hall⟩
          refine ⟨hlast, List.Subset.trans hsub hsub', ?_⟩
          rintro other ⟨d, hd, rfl⟩
          rcases List.mem_cons.mp hd with rfl | hd
          · exact (hdone _ rfl).imp id fun h => hsub' h
          · exact hall _ ⟨d, hd, rfl⟩
      · next e walk' heq =>
        rw [heq] at hone
        exact .moved path source resolved declaration hone

/-- Walking a module, to a depth that the library does not exceed. -/
theorem visit_covers {n : Nat} (hdepth : library.texts.length < n + stack.length)
    (htrail : library.Trail loaded entry stack path)
    (hwalk : walk.Sound library loaded entry stack) :
    Covers library loaded entry stack walk (· = path) (visit library loaded n stack path walk) := by
  induction n generalizing stack path walk with
  | zero => exact absurd htrail.length_le (by omega)
  | succ n ih =>
    unfold visit
    split
    · next hpassed =>
      refine ⟨hwalk, List.Subset.refl _, ?_⟩
      rintro _ rfl
      rw [Bool.or_eq_true, isDone_iff] at hpassed
      exact hpassed.symm
    · next hfresh =>
      rw [Bool.or_eq_true, isDone_iff, not_or, Bool.not_eq_true] at hfresh
      obtain ⟨hnew, hloaded⟩ := hfresh
      have hneeds := htrail.needs hloaded
      extract_lets asking onStack
      split
      · next message hread => exact .unread hneeds hread
      · next source hread =>
        split
        · next e hmalformed => exact .malformed hneeds hread hmalformed
        · next imports last himports =>
          have hdeclares : library.Declares path source imports := ⟨hread, last, himports⟩
          have hdeeper : library.texts.length < n + onStack.length := by
            rw [List.length_append, List.length_singleton]
            omega
          have hcovers := visitImports_covers htrail hloaded hdeclares
            (fun _ _ => ih hdeeper) (List.Subset.refl imports) (hwalk.ask htrail hnew)
          revert hcovers
          generalize visitImports (visit library loaded n onStack) onStack path source imports
            asking = result
          obtain ⟨outcome, walk'⟩ := result
          cases outcome with
          | error e => exact id
          | ok _ =>
            rintro ⟨hwalk', hsub, hall⟩
            have hpaths : ({ walk' with order := walk'.order ++ [(path, source)] } :
                ImportWalk).paths = walk'.paths ++ [path] := List.map_append
            refine ⟨hwalk'.finish hneeds hdeclares fun other hother => ?_, ?_, ?_⟩
            · exact hall other (hdeclares.imports_iff.mp hother)
            · rw [hpaths]
              exact List.Subset.trans hsub (List.subset_append_left _ _)
            · rintro _ rfl
              rw [hpaths]
              exact .inr (by simp)

end ImportWalk

namespace Library

variable {library : Library} {loaded : String → Bool} {entry : String}

/-! ## Whole walks -/

theorem walk_covers (library : Library) (loaded : String → Bool) (entry : String) :
    ImportWalk.Covers library loaded entry [] ⟨[], []⟩ (· = entry)
      (library.walk loaded entry) :=
  ImportWalk.visit_covers (Nat.lt_succ_self _) (.first library loaded entry)
    (.begin library loaded entry)

/-- A walk that succeeds has come to all modules that are needed. -/
theorem mem_paths_iff {walk : ImportWalk} (h : library.walk loaded entry = (.ok (), walk))
    {path : String} : path ∈ walk.paths ↔ library.Needs loaded entry path := by
  have hcovers := walk_covers library loaded entry
  rw [h] at hcovers
  obtain ⟨hsound, -, hentry⟩ := hcovers
  refine ⟨hsound.needed path, fun hneeds => ?_⟩
  have hresolve : ∀ {other}, loaded other = false → loaded other = true ∨ other ∈ walk.paths →
      other ∈ walk.paths := fun hfresh hor => hor.resolve_left (by simp [hfresh])
  induction hneeds with
  | entry hfresh => exact hresolve hfresh (hentry entry rfl)
  | @imports path other _ himports hfresh ih =>
    obtain ⟨before, after, hsplit⟩ := List.append_of_mem ih
    refine hresolve hfresh ((hsound.ordered before path after hsplit other himports).imp id ?_)
    intro hmem
    rw [hsplit]
    exact List.mem_append_left _ hmem

/-- No module of a walk that succeeds leads back to itself. -/
theorem not_cyclic {walk : ImportWalk} (h : library.walk loaded entry = (.ok (), walk))
    {path : String} (hpath : library.Needs loaded entry path) :
    ¬ TransGen (library.Enters loaded) path path := by
  have hcovers := walk_covers library loaded entry
  rw [h] at hcovers
  obtain ⟨hsound, -, -⟩ := hcovers
  have hbefore : ∀ {other}, TransGen (library.Enters loaded) path other →
      walk.paths.idxOf other < walk.paths.idxOf path := by
    intro other hother
    induction hother with
    | single hstep => exact hsound.ordered.idxOf_lt ((mem_paths_iff h).mpr hpath) hstep
    | tail hrest hstep ih =>
      exact (hsound.ordered.idxOf_lt ((mem_paths_iff h).mpr (hpath.trans hrest)) hstep).trans ih
  exact fun hcycle => Nat.lt_irrefl _ (hbefore hcycle)

theorem Needs.fresh {path : String} (h : library.Needs loaded entry path) :
    loaded path = false := by
  cases h with
  | entry hfresh => exact hfresh
  | imports _ _ hfresh => exact hfresh

/-- A path that leads back holds a cycle of modules that were not loaded before. -/
theorem LeadsBack.cyclic {chain : List String} {last : String}
    (h : library.LeadsBack loaded entry chain last) :
    TransGen (library.Enters loaded) last last := by
  obtain ⟨before, after, rfl⟩ := List.append_of_mem h.back
  have hcycle : (last :: (after ++ [last])).IsChain library.Imports := by
    have himports := h.imports
    rw [List.append_assoc, List.cons_append] at himports
    exact himports.right_of_append
  have hfresh : ∀ other ∈ after ++ [last], loaded other = false := by
    intro other hother
    refine (h.needed other ?_).fresh
    rcases List.mem_append.mp hother with hother | hother
    · exact List.mem_append_right _ (List.mem_cons_of_mem _ hother)
    · exact List.mem_singleton.mp hother ▸ h.back
  -- From any module on the cycle its imports lead on to the last one.
  have hon : ∀ (rest : List String) (path : String), (path :: (rest ++ [last])).IsChain
      library.Imports → (∀ other ∈ rest ++ [last], loaded other = false) →
      TransGen (library.Enters loaded) path last := by
    intro rest
    induction rest with
    | nil =>
      intro path himports hfresh
      exact .single ⟨by simpa using himports, hfresh last (by simp)⟩
    | cons next rest ih =>
      intro path himports hfresh
      obtain ⟨hstep, hrest⟩ := List.isChain_cons_cons.mp himports
      exact .head ⟨hstep, hfresh next (by simp)⟩
        (ih next hrest fun other hother => hfresh other (List.mem_cons_of_mem _ hother))
  exact hon after last hcycle hfresh

/-- An obstacle is a module that is needed and cannot be read with its imports, or leads back to
itself. -/
theorem Obstacle.module {e : CompileError} (h : library.Obstacle loaded entry e) :
    ∃ path, library.Needs loaded entry path ∧
      ((∀ source imports, ¬ library.Declares path source imports) ∨
        TransGen (library.Enters loaded) path path) := by
  induction h with
  | @unread path message hneeds hread =>
    refine ⟨path, hneeds, .inl fun source imports hdeclares => ?_⟩
    cases hread.symm.trans hdeclares.1
  | @malformed path source e hneeds hread hmalformed =>
    refine ⟨path, hneeds, .inl fun source' imports hdeclares => ?_⟩
    obtain ⟨hread', last, himports⟩ := hdeclares
    obtain rfl := Except.ok.inj (hread.symm.trans hread')
    cases hmalformed.symm.trans himports
  | @cycle chain last _ _ _ hback _ => exact ⟨last, hback.needed last hback.back, .inr hback.cyclic⟩
  | moved _ _ _ _ _ ih => exact ih

/-- A walk succeeds exactly if every module that is needed can be read with its imports and none
of them leads back to itself. -/
theorem walk_ok_iff : (∃ walk, library.walk loaded entry = (.ok (), walk)) ↔
    ∀ path, library.Needs loaded entry path →
      (∃ source imports, library.Declares path source imports) ∧
        ¬ TransGen (library.Enters loaded) path path := by
  have hcovers := walk_covers library loaded entry
  constructor
  · rintro ⟨walk, h⟩ path hpath
    refine ⟨?_, not_cyclic h hpath⟩
    rw [h] at hcovers
    obtain ⟨⟨path, source⟩, hm, rfl⟩ := List.mem_map.mp ((mem_paths_iff h).mpr hpath)
    exact ⟨source, hcovers.1.declared _ hm⟩
  · intro hall
    rcases h : library.walk loaded entry with ⟨e | _, walk⟩
    · rw [h] at hcovers
      obtain ⟨path, hpath, hnone | hcycle⟩ := hcovers.module
      · obtain ⟨source, imports, hdeclares⟩ := (hall path hpath).1
        exact absurd hdeclares (hnone source imports)
      · exact absurd hcycle (hall path hpath).2
    · exact ⟨walk, rfl⟩

/-! ## Messages -/

/-- A text begins as its first part does. -/
theorem head?_append {s t : String} {c : Char} (h : s.toList.head? = some c) :
    (s ++ t).toList.head? = some c := by
  rw [String.toList_append, List.head?_append, h]
  rfl

theorem mismatch_message_head (m : Grammar.Mismatch) : m.message.toList.head? = some 'S' := by
  cases m with
  | character c => exact head?_append (head?_append (by decide))
  | phrase label => exact head?_append (by decide)
  | _ => decide

theorem malformedAt_message_head (stops : List Grammar.Stop) (file source : String) :
    (Grammar.malformedAt stops file source).message.toList.head? = some 'S' := by
  unfold Grammar.malformedAt
  split
  · next stop _ => exact mismatch_message_head stop.mismatch
  · show "Syntax error".toList.head? = some 'S'
    decide

/-- Malformed imports are told as a mistake of the text. -/
theorem importsFrom_message_head {file source : String} {n : Nat} {c : Cursor} {e : CompileError}
    (h : Grammar.importsFrom file source n c = .error e) : e.message.toList.head? = some 'S' := by
  induction n generalizing c with
  | zero => cases h
  | succ n ih =>
    unfold Grammar.importsFrom at h
    split at h
    · next declaration rest _ =>
      cases hrest : Grammar.importsFrom file source n rest with
      | error e' =>
        rw [hrest] at h
        obtain rfl := Except.error.inj h
        exact ih hrest
      | ok read =>
        rw [hrest] at h
        cases h
    · cases h
    · obtain rfl := Except.error.inj h
      exact malformedAt_message_head _ file source

/-- The only obstacle that is told as an import cycle is one, and its modules are told. -/
theorem Obstacle.cycle_of_message {e : CompileError} (h : library.Obstacle loaded entry e)
    (hmessage : "Import cycle detected".toList <+: e.message.toList) :
    ∃ chain last, library.LeadsBack loaded entry chain last ∧ chain.getLast? = some e.file ∧
      e.message = "Import cycle detected: " ++ " -> ".intercalate (chain ++ [last]) := by
  have hhead : e.message.toList.head? = some 'I' := by
    obtain ⟨rest, hrest⟩ := hmessage
    have hI : "Import cycle detected".toList.head? = some 'I' := by decide
    rw [← hrest, List.head?_append, hI]
    rfl
  -- Every other message begins with another letter.
  induction h with
  | @unread path message _ _ =>
    have hF : s!"Failed to load source '{path}': {message}".toList.head? = some 'F' :=
      head?_append (head?_append (head?_append (by decide)))
    cases hF.symm.trans hhead
  | malformed _ _ hmalformed => cases (importsFrom_message_head hmalformed).symm.trans hhead
  | @cycle chain last path source span hback hlast => exact ⟨chain, last, hback, hlast, rfl⟩
  | @moved e path source resolved declaration hinner ih =>
    revert hmessage hhead
    unfold ImportWalk.atImport
    split
    · intro _ hhead
      have hF : s!"Failed to load import '{declaration.path}': {e.message}".toList.head? =
          some 'F' := head?_append (head?_append (head?_append (by decide)))
      cases hF.symm.trans hhead
    · exact ih

/-- A walk that succeeds has read the modules that are needed, each once and after what it
imports; it fails if one of them leads back to itself, and tells of a cycle only if it has come
to one. -/
theorem walk_closure (library : Library) (loaded : String → Bool) (entry : String) :
    (∀ walk, library.walk loaded entry = (.ok (), walk) →
      walk.paths.Nodup ∧ (∀ path, path ∈ walk.paths ↔ library.Needs loaded entry path) ∧
      (∀ m ∈ walk.order, library.read m.1 = .ok m.2) ∧
      library.DependenciesFirst loaded walk.paths ∧ walk.asked.Perm walk.paths) ∧
    (∀ path, library.Needs loaded entry path → TransGen (library.Enters loaded) path path →
      ∃ e walk, library.walk loaded entry = (.error e, walk)) ∧
    (∀ e walk, library.walk loaded entry = (.error e, walk) →
      "Import cycle detected".toList <+: e.message.toList →
      ∃ chain last, library.LeadsBack loaded entry chain last ∧ chain.getLast? = some e.file ∧
        e.message = "Import cycle detected: " ++ " -> ".intercalate (chain ++ [last])) := by
  have hcovers := walk_covers library loaded entry
  refine ⟨fun walk h => ?_, fun path hpath hcycle => ?_, fun e walk h hmessage => ?_⟩
  · rw [h] at hcovers
    obtain ⟨hsound, -, -⟩ := hcovers
    refine ⟨by simpa using hsound.distinct, fun path => mem_paths_iff h, fun m hm => ?_,
      hsound.ordered, by simpa using hsound.asked⟩
    obtain ⟨imports, hdeclares⟩ := hsound.declared m hm
    exact hdeclares.1
  · rcases h : library.walk loaded entry with ⟨e | _, walk⟩
    · exact ⟨e, walk, rfl⟩
    · exact absurd hcycle (not_cyclic h hpath)
  · rw [h] at hcovers
    exact hcovers.cycle_of_message hmessage

/-- Two ways to one module, and two modules that import each other. -/
def crossroads : Library where
  texts := [("base", ""), ("left", "import \"base\";"), ("right", "import \"./base\";"),
    ("main", "import \"left\"; import \"x/../right\";"),
    ("here", "import \"there\";"), ("there", "import \"here\";")]
  missing := fun _ => "missing"

set_option maxRecDepth 100000 in
/-- The module with two ways to it is read once, before both; and the two modules that import
each other are told as a cycle. -/
theorem walk_closure_crossroads :
    (∃ walk, crossroads.walk (fun _ => false) "main" = (.ok (), walk) ∧
      walk.paths = ["base", "left", "right", "main"] ∧
      walk.asked.Perm ["base", "left", "right", "main"]) ∧
    (∃ e walk, crossroads.walk (fun _ => false) "here" = (.error e, walk) ∧
      ∃ chain last, crossroads.LeadsBack (fun _ => false) "here" chain last ∧
        e.message = "Import cycle detected: " ++ " -> ".intercalate (chain ++ [last])) := by
  constructor
  · have hok : (crossroads.walk (fun _ => false) "main").1 = .ok () := by decide +kernel
    have hpaths : (crossroads.walk (fun _ => false) "main").2.paths =
        ["base", "left", "right", "main"] := by decide +kernel
    obtain ⟨hall, -, -⟩ := walk_closure crossroads (fun _ => false) "main"
    rcases h : crossroads.walk (fun _ => false) "main" with ⟨outcome, walk⟩
    rw [h] at hok hpaths
    dsimp only at hok hpaths
    subst hok
    obtain ⟨-, -, -, -, hasked⟩ := hall walk h
    exact ⟨walk, rfl, hpaths, hpaths ▸ hasked⟩
  · have hhere : TransGen (crossroads.Enters fun _ => false) "here" "here" :=
      .tail (.single (by decide +kernel : crossroads.Enters _ "here" "there")) (by decide +kernel)
    obtain ⟨-, hcycles, hmessages⟩ := walk_closure crossroads (fun _ => false) "here"
    obtain ⟨e, walk, h⟩ := hcycles "here" (.entry rfl) hhere
    have htold : (crossroads.walk (fun _ => false) "here").1.mapError CompileError.message =
        .error "Import cycle detected: here -> there -> here" := by decide +kernel
    rw [h] at htold
    have he : "Import cycle detected".toList <+: e.message.toList := by
      rw [Except.error.inj htold]
      decide
    obtain ⟨chain, last, hback, -, htold⟩ := hmessages e walk h he
    exact ⟨e, walk, h, chain, last, hback, htold⟩

set_option maxRecDepth 100000 in
/-- A module that leads back to itself through one that was loaded before is walked. -/
theorem walk_past_loaded : (crossroads.walk (· == "there") "here").1 = .ok () ∧
    crossroads.Needs (· == "there") "here" "here" ∧
    TransGen crossroads.Imports "here" "here" := by
  refine ⟨by decide +kernel, .entry rfl, ?_⟩
  have hthere : crossroads.Imports "here" "there" := by decide +kernel
  have hback : crossroads.Imports "there" "here" := by decide +kernel
  exact .tail (.single hthere) hback

end Library

end PartScript
