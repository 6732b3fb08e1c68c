/-
  Spellings of module paths. Components that say nothing are dropped, a name is folded with the way
  back up from it, and so is a way up from the root. Whichever of these is done first, and whether
  before or after a path is put below a directory, what is left in the end is the same: two texts are
  spellings of one path exactly if their normal forms are equal, so a module has one key.
-/
import Mathlib.Data.List.Induction
import Mathlib.Logic.Relation
import PartScript.Project.Modules

namespace PartScript

open Relation

/-! ## Texts in pieces -/

namespace Text

variable {mark : Char} {p xs ys : List Char} {ps : List (List Char)}

theorem pieces_of_notMem (h : mark ∉ p) : pieces mark p = [p] := by
  induction p with
  | nil => rfl
  | cons c cs ih =>
    obtain ⟨hc, hcs⟩ := not_or.mp (mt List.mem_cons.mpr h)
    rw [pieces, if_neg (Ne.symm hc), ih hcs]

/-- A mark separates the pieces before it from those after it. -/
theorem pieces_append_mark (xs ys : List Char) :
    pieces mark (xs ++ mark :: ys) = pieces mark xs ++ pieces mark ys := by
  induction xs with
  | nil => simp [pieces]
  | cons c cs ih =>
    rw [List.cons_append, pieces, pieces, ih]
    split
    · rfl
    · cases h : pieces mark cs with
      | nil => exact absurd h (pieces_ne_nil mark cs)
      | cons q qs => rfl

/-- Pieces without the mark are read back. -/
theorem pieces_join (hne : ps ≠ []) (h : ∀ p ∈ ps, mark ∉ p) : pieces mark (join mark ps) = ps := by
  induction ps with
  | nil => exact absurd rfl hne
  | cons p ps ih =>
    obtain ⟨hp, hps⟩ := List.forall_mem_cons.mp h
    cases ps with
    | nil => exact pieces_of_notMem hp
    | cons q qs =>
      rw [join_cons p (List.cons_ne_nil q qs), pieces_append_mark, ih (List.cons_ne_nil q qs) hps,
        pieces_of_notMem hp]
      rfl

end Text

namespace ModulePath

/-! ## Spellings -/

/-- The name of a file or a directory. -/
def IsName (part : List Char) : Prop := isPart part = true ∧ part ≠ up ∧ '/' ∉ part

/-- A path is spelled with fewer components: without a blank one or one that stays where it is,
without a name and the way back up from it, or without a way up from the root. -/
inductive Shortens (rooted : Bool) : List (List Char) → List (List Char) → Prop where
  | dropped {before part after} : isPart part = false →
    Shortens rooted (before ++ part :: after) (before ++ after)
  | folded {before name after} : isPart name = true → name ≠ up →
    Shortens rooted (before ++ name :: up :: after) (before ++ after)
  | top {after} : rooted = true → Shortens rooted (up :: after) after

/-- Two texts are spellings of one path: both of them are rooted or none is, and shortening either
of them, any number of times, makes their components equal. -/
def Respells (s t : String) : Prop :=
  (ofText s).rooted = (ofText t).rooted ∧ EqvGen (Shortens (ofText s).rooted)
    (Text.pieces '/' s.toList) (Text.pieces '/' t.toList)

/-- The text of a path below a directory. A rooted path stands for itself, and a slash is written in
between where there is a directory that does not end with one. -/
def joinText (directory path : String) : String :=
  if (ofText path).rooted then path
  else if directory.toList.getLast?.all (· == '/') then directory ++ path
  else directory ++ "/" ++ path

/-! ## Folding -/

variable {rooted : Bool} {stack parts : List (List Char)} {part : List Char} {path : ModulePath}

theorem push_name (h : part ≠ up) : push rooted stack part = part :: stack := if_neg h

/-- The way up from a name leads back to where the name was added. -/
theorem push_up_cons (h : part ≠ up) : push rooted (part :: stack) up = stack := by
  simp [push, h]

theorem push_up_up : push rooted (up :: stack) up = up :: up :: stack := by simp [push]

/-- Components may be folded among themselves before they are added to a stack. If the way up from
the root is left out there, the stack has to be one to which it adds nothing either. -/
theorem foldl_push_folded (rooted inner : Bool) (stack parts : List (List Char))
    (h : inner = true → push rooted stack up = stack) :
    (parts.foldl (push inner) []).reverse.foldl (push rooted) stack =
      parts.foldl (push rooted) stack := by
  induction parts using List.reverseRecOn with
  | nil => rfl
  | append_singleton parts part ih =>
    simp only [List.foldl_append, List.foldl_cons, List.foldl_nil, ← ih]
    generalize parts.foldl (push inner) [] = folded
    by_cases hup : part = up
    · subst hup
      cases folded with
      | nil =>
        cases inner with
        | true => exact (h rfl).symm
        | false => rfl
      | cons last rest =>
        by_cases hlast : last = up
        · subst hlast
          simp only [push_up_up, List.reverse_cons, List.foldl_append, List.foldl_cons,
            List.foldl_nil]
        · simp only [push_up_cons hlast, List.reverse_cons, List.foldl_append, List.foldl_cons,
            List.foldl_nil, push_name hlast]
    · simp only [push_name hup, List.reverse_cons, List.foldl_append, List.foldl_cons,
        List.foldl_nil]

theorem fold_fold (path : ModulePath) : path.fold.fold = path.fold := by
  have h := foldl_push_folded path.rooted path.rooted [] path.parts fun hrooted => by
    simp [push, hrooted]
  simp only [fold, h]

/-- A path below a directory may be folded before or after it is put there. -/
theorem fold_join_fold_right (directory path : ModulePath) :
    (directory.join path.fold).fold = (directory.join path).fold := by
  have hrooted : path.fold.rooted = path.rooted := rfl
  unfold join
  rw [hrooted]
  split
  · exact path.fold_fold
  · next h =>
    have hfold := foldl_push_folded directory.rooted path.rooted
      (directory.parts.foldl (push directory.rooted) []) path.parts fun hinner => absurd hinner h
    simp only [fold, List.foldl_append, hfold]

theorem fold_join_fold_left (directory path : ModulePath) :
    (directory.fold.join path).fold = (directory.join path).fold := by
  unfold join
  split
  · rfl
  · have hfold := foldl_push_folded directory.rooted directory.rooted [] directory.parts
      fun hrooted => by simp [push, hrooted]
    simp only [fold, List.foldl_append, hfold]

/-! ## Normal forms -/

/-- The components lead up a number of times, unless the path is rooted, and then down by names. -/
def Normal (path : ModulePath) : Prop :=
  ∃ n names, path.parts = List.replicate n up ++ names ∧ (∀ name ∈ names, IsName name) ∧
    (path.rooted = true → n = 0)

/-- Every component counts and none of them holds a slash. -/
def Clean (path : ModulePath) : Prop := ∀ part ∈ path.parts, isPart part = true ∧ '/' ∉ part

theorem ofText_clean (text : String) : (ofText text).Clean := fun _ hpart =>
  ⟨(List.mem_filter.mp hpart).2, Text.not_mem_of_mem_pieces (List.mem_filter.mp hpart).1⟩

theorem Normal.clean (h : path.Normal) : path.Clean := by
  obtain ⟨n, names, hparts, hnames, -⟩ := h
  intro part hpart
  rw [hparts] at hpart
  rcases List.mem_append.mp hpart with hpart | hpart
  · obtain rfl := List.eq_of_mem_replicate hpart
    decide
  · exact ⟨(hnames part hpart).1, (hnames part hpart).2.2⟩

/-- Folding leaves a normal form. -/
theorem Clean.fold_normal (h : path.Clean) : path.fold.Normal := by
  obtain ⟨rooted, parts⟩ := path
  have hstack : ∃ names n, parts.foldl (push rooted) [] = names ++ List.replicate n up ∧
      (∀ name ∈ names, IsName name) ∧ (rooted = true → n = 0) := by
    induction parts using List.reverseRecOn with
    | nil => exact ⟨[], 0, rfl, nofun, fun _ => rfl⟩
    | append_singleton parts part ih =>
      obtain ⟨hparts, hpart⟩ := List.forall_mem_append.mp h
      obtain ⟨names, n, hfold, hnames, hn⟩ := ih hparts
      simp only [List.foldl_append, List.foldl_cons, List.foldl_nil, hfold]
      by_cases hup : part = up
      · subst hup
        cases names with
        | nil =>
          cases rooted with
          | true =>
            obtain rfl := hn rfl
            exact ⟨[], 0, rfl, nofun, fun _ => rfl⟩
          | false =>
            refine ⟨[], n + 1, ?_, nofun, nofun⟩
            cases n with
            | zero => rfl
            | succ n => exact push_up_up
        | cons name names =>
          obtain ⟨hname, hrest⟩ := List.forall_mem_cons.mp hnames
          exact ⟨names, n, push_up_cons hname.2.1, hrest, hn⟩
      · obtain ⟨hcounts, hslash⟩ := hpart part (List.mem_singleton_self part)
        refine ⟨part :: names, n, push_name hup, List.forall_mem_cons.mpr ⟨?_, hnames⟩, hn⟩
        exact ⟨hcounts, hup, hslash⟩
  obtain ⟨names, n, hfold, hnames, hn⟩ := hstack
  refine ⟨n, names.reverse, ?_, fun name hname => hnames name (List.mem_reverse.mp hname), hn⟩
  simp only [fold, hfold, List.reverse_append, List.reverse_replicate]

/-! ## Reading back -/

/-- The characters of a path that has components or is rooted. -/
theorem toText_toList (h : path.rooted = true ∨ Text.join '/' path.parts ≠ []) :
    path.toText.toList = (if path.rooted then ['/'] else []) ++ Text.join '/' path.parts := by
  unfold toText
  cases hrooted : path.rooted with
  | true => simp
  | false =>
    have hbody := h.resolve_left (by simp [hrooted])
    simp [hbody]

theorem Clean.join_ne_nil (h : path.Clean) (hne : path.parts ≠ []) :
    Text.join '/' path.parts ≠ [] := by
  obtain ⟨rooted, parts⟩ := path
  cases parts with
  | nil => exact absurd rfl hne
  | cons part rest =>
    have hpart : part ≠ [] := by
      have := (h part List.mem_cons_self).1
      rintro rfl
      exact absurd this (by decide)
    cases rest with
    | nil => exact hpart
    | cons next rest => simp [Text.join]

/-- The first character of a path that is not rooted is no slash. -/
theorem Clean.head?_join (h : path.Clean) : (Text.join '/' path.parts).head? ≠ some '/' := by
  obtain ⟨rooted, parts⟩ := path
  cases parts with
  | nil => simp [Text.join]
  | cons part rest =>
    obtain ⟨hcounts, hslash⟩ := h part List.mem_cons_self
    cases part with
    | nil => exact absurd hcounts (by decide)
    | cons c cs =>
      have hc : c ≠ '/' := fun heq => hslash (heq ▸ List.mem_cons_self)
      cases rest <;> simpa [Text.join] using hc

/-- The text of a path is read as this path. -/
theorem Clean.ofText_toText (h : path.Clean) : ofText path.toText = path := by
  obtain ⟨rooted, parts⟩ := path
  have hfilter : parts.filter isPart = parts := List.filter_eq_self.mpr fun part hpart =>
    (h part hpart).1
  cases parts with
  | nil => cases rooted <;> decide
  | cons part rest =>
    have hpieces : Text.pieces '/' (Text.join '/' (part :: rest)) = part :: rest :=
      Text.pieces_join (List.cons_ne_nil _ _) fun p hp => (h p hp).2
    have hjoin := h.join_ne_nil (List.cons_ne_nil part rest)
    have htext := toText_toList (.inr hjoin)
    unfold ofText
    rw [htext]
    cases rooted with
    | true => simp [Text.pieces, hpieces, hfilter, isPart]
    | false => simp [hpieces, hfilter, h.head?_join]

theorem ofText_fold_toText (text : String) :
    ofText (ofText text).fold.toText = (ofText text).fold :=
  (ofText_clean text).fold_normal.clean.ofText_toText

/-- The components of a text below a directory. -/
theorem ofText_joinText (directory text : String) :
    ofText (joinText directory text) = (ofText directory).join (ofText text) := by
  unfold joinText join
  split
  · rfl
  · next hrooted =>
    have hrelative : text.toList.head? ≠ some '/' := fun h => hrooted (decide_eq_true h)
    rcases List.eq_nil_or_concat directory.toList with hnil | ⟨init, last, hlast⟩
    · simp [ofText, hnil, hrelative, Text.pieces, isPart]
    · have hhead : ∀ more, (directory.toList ++ more).head? = directory.toList.head? := fun more =>
        by simp [hlast, List.head?_append]
      split
      · next hslash =>
        obtain rfl : last = '/' := by simpa [hlast] using hslash
        simp only [ofText, String.toList_append, hhead]
        simp [hlast, Text.pieces_append_mark, Text.pieces, isPart]
      · simp only [ofText, String.toList_append, List.append_assoc, hhead]
        simp [Text.pieces_append_mark]

/-- What holds a directory is no deeper than its text. -/
theorem Clean.directory (h : path.Clean) : path.directory.Clean := by
  unfold ModulePath.directory
  split
  · nofun
  · exact fun part hpart => h part (List.dropLast_subset _ hpart)

theorem resolve_eq_normalize (importer text : String) :
    resolve importer text = normalize (joinText (ofText importer).directory.toText text) := by
  rw [normalize, ofText_joinText, (ofText_clean importer).directory.ofText_toText, resolve]

/-! ## One form for all spellings -/

/-- What is shortened stays so below more components. -/
theorem Shortens.append {xs ys : List (List Char)} (h : Shortens rooted xs ys)
    (more : List (List Char)) : Shortens rooted (xs ++ more) (ys ++ more) := by
  cases h with
  | dropped hpart =>
    simpa only [List.append_assoc, List.cons_append] using Shortens.dropped hpart
  | folded hname hup =>
    simpa only [List.append_assoc, List.cons_append] using Shortens.folded hname hup
  | top hrooted => exact .top hrooted

/-- Shortening leaves the folded components as they are. -/
theorem Shortens.foldl_eq {xs ys : List (List Char)} (h : Shortens rooted xs ys) :
    (xs.filter isPart).foldl (push rooted) [] = (ys.filter isPart).foldl (push rooted) [] := by
  cases h with
  | dropped hpart => simp [hpart]
  | folded hname hup =>
    have hcounts : isPart up = true := by decide
    simp [hname, hcounts, push_name hup, push_up_cons hup]
  | top hrooted =>
    have hcounts : isPart up = true := by decide
    simp [hcounts, hrooted, push]

/-- Components that do not count are dropped one after the other. -/
theorem shortens_filter (rooted : Bool) (before parts : List (List Char)) :
    ReflTransGen (Shortens rooted) (before ++ parts) (before ++ parts.filter isPart) := by
  induction parts generalizing before with
  | nil => exact .refl
  | cons part parts ih =>
    cases hpart : isPart part with
    | false =>
      rw [List.filter_cons_of_neg (by simp [hpart])]
      exact .head (.dropped hpart) (ih before)
    | true =>
      rw [List.filter_cons_of_pos hpart]
      simpa using ih (before ++ [part])

/-- Components that count are folded from left to right. -/
theorem shortens_foldl (h : ∀ part ∈ parts, isPart part = true) :
    ReflTransGen (Shortens rooted) parts (parts.foldl (push rooted) []).reverse ∧
      ∀ part ∈ parts.foldl (push rooted) [], isPart part = true := by
  induction parts using List.reverseRecOn with
  | nil => exact ⟨.refl, nofun⟩
  | append_singleton parts part ih =>
    obtain ⟨hparts, hpart⟩ := List.forall_mem_append.mp h
    obtain ⟨hshort, hstack⟩ := ih hparts
    have hbelow := hshort.lift (· ++ [part]) fun _ _ hstep => hstep.append [part]
    simp only [List.foldl_append, List.foldl_cons, List.foldl_nil]
    generalize parts.foldl (push rooted) [] = stack at hstack hbelow
    have hadded : ∀ x ∈ part :: stack, isPart x = true :=
      List.forall_mem_cons.mpr ⟨hpart part (List.mem_singleton_self part), hstack⟩
    by_cases hup : part = up
    · subst hup
      cases stack with
      | nil =>
        cases rooted with
        | true => exact ⟨hbelow.tail (.top rfl), nofun⟩
        | false => exact ⟨hbelow, hadded⟩
      | cons last rest =>
        by_cases hlast : last = up
        · subst hlast
          rw [push_up_up, List.reverse_cons]
          exact ⟨hbelow, hadded⟩
        · obtain ⟨hcounts, hrest⟩ := List.forall_mem_cons.mp hstack
          have hfolded : Shortens rooted ((last :: rest).reverse ++ [up]) rest.reverse := by
            simpa using @Shortens.folded rooted rest.reverse last [] hcounts hlast
          rw [push_up_cons hlast]
          exact ⟨hbelow.tail hfolded, hrest⟩
    · rw [push_name hup, List.reverse_cons]
      exact ⟨hbelow, hadded⟩

/-- Every text is shortened to the components of its normal form. -/
theorem shortens_normal (text : String) :
    ReflTransGen (Shortens (ofText text).rooted) (Text.pieces '/' text.toList)
      (ofText text).fold.parts :=
  (shortens_filter _ [] _).trans (shortens_foldl fun _ hpart => (List.mem_filter.mp hpart).2).1

/-- Texts are spellings of one path exactly if they fold to the same. -/
theorem respells_iff_fold (s t : String) : Respells s t ↔ (ofText s).fold = (ofText t).fold := by
  constructor
  · rintro ⟨hrooted, hparts⟩
    have hfold : ∀ xs ys, EqvGen (Shortens (ofText s).rooted) xs ys →
        (xs.filter isPart).foldl (push (ofText s).rooted) [] =
          (ys.filter isPart).foldl (push (ofText s).rooted) [] := by
      intro xs ys h
      induction h with
      | rel _ _ hstep => exact hstep.foldl_eq
      | refl => rfl
      | symm _ _ _ ih => exact ih.symm
      | trans _ _ _ _ _ ih₁ ih₂ => exact ih₁.trans ih₂
    have hstack := hfold _ _ hparts
    unfold fold
    rw [← hrooted]
    exact congrArg (fun stack => ModulePath.mk (ofText s).rooted stack.reverse) hstack
  · intro hfold
    have hfolded : (ofText s).fold.rooted = (ofText t).fold.rooted := congrArg rooted hfold
    have hrooted : (ofText s).rooted = (ofText t).rooted := hfolded
    have hs := EqvGen.reflTransGen_le_eqvGen _ _ _ (shortens_normal s)
    have ht := EqvGen.reflTransGen_le_eqvGen _ _ _ (shortens_normal t)
    rw [← hrooted, ← hfold] at ht
    exact ⟨hrooted, .trans _ _ _ hs (.symm _ _ ht)⟩

theorem respells_iff (s t : String) : Respells s t ↔ normalize s = normalize t := by
  rw [respells_iff_fold]
  constructor
  · exact congrArg toText
  · intro h
    rw [← ofText_fold_toText s, ← ofText_fold_toText t]
    exact congrArg ofText h

theorem Respells.resolve_eq {s t : String} (h : Respells s t) (importer : String) :
    resolve importer s = resolve importer t := by
  have hfold := (respells_iff_fold s t).mp h
  rw [resolve, resolve, ← fold_join_fold_right, hfold, fold_join_fold_right]

/-! ## Normal texts -/

theorem normalize_normalize (text : String) : normalize (normalize text) = normalize text := by
  have h := fold_fold (ofText text)
  rw [normalize, normalize, ofText_fold_toText, h]

/-- A normal text is the dot, or it leads up and then down without detours. -/
theorem normalize_shape (text : String) : normalize text = "." ∨ ∃ path : ModulePath,
    path.Normal ∧ path.rooted = (ofText text).rooted ∧ (path.rooted = true ∨ path.parts ≠ []) ∧
      (normalize text).toList =
        (if path.rooted then ['/'] else []) ++ Text.join '/' path.parts := by
  have hnormal := (ofText_clean text).fold_normal
  unfold normalize
  rw [show (ofText text).rooted = (ofText text).fold.rooted from rfl]
  generalize (ofText text).fold = path at hnormal
  by_cases hdot : path = ⟨false, []⟩
  · subst hdot
    exact .inl (by decide)
  · have hsome : path.rooted = true ∨ path.parts ≠ [] := by
      obtain ⟨rooted, parts⟩ := path
      cases rooted
      · exact .inr fun hnil => hdot (congrArg _ hnil)
      · exact .inl rfl
    have htext := toText_toList (hsome.imp_right hnormal.clean.join_ne_nil)
    exact .inr ⟨path, hnormal, rfl, hsome, htext⟩

theorem normalize_joinText (directory text : String) :
    normalize (joinText directory text) =
      normalize (joinText (normalize directory) (normalize text)) := by
  unfold normalize
  rw [ofText_joinText, ofText_joinText, ofText_fold_toText, ofText_fold_toText,
    fold_join_fold_right, fold_join_fold_left]

theorem normalize_resolve (importer text : String) :
    normalize (resolve importer text) = resolve importer text := by
  rw [resolve_eq_normalize, normalize_normalize]

end ModulePath

/-! ## Keys of modules -/

open ModulePath

/-- Module texts may be given under any spelling of their paths. -/
theorem Library.index_respelled {sources others : List (String × String)}
    (h : List.Forall₂ (fun a b => Respells a.1 b.1 ∧ a.2 = b.2) sources others)
    (table : Table String String) : index sources table = index others table := by
  induction h generalizing table with
  | nil => rfl
  | @cons a b _ _ hab _ ih =>
    obtain ⟨path, text⟩ := a
    obtain ⟨other, text'⟩ := b
    obtain ⟨hpath, rfl⟩ : Respells path other ∧ text = text' := hab
    simp only [index, (respells_iff path other).mp hpath, ih]

/-- So may the entry module. -/
theorem Library.ofSources_respelled {entry other : String} {sources others : List (String × String)}
    (hentry : Respells entry other)
    (h : List.Forall₂ (fun a b => Respells a.1 b.1 ∧ a.2 = b.2) sources others) :
    ofSources entry sources = ofSources other others := by
  simp only [ofSources, index_respelled h, (respells_iff entry other).mp hentry]

/-- A module whose imports are spelled differently leads to the same modules. Only the errors of
imports that cannot be followed show how these are spelled. -/
theorem ImportWalk.visitImports_respelled (visit : String → Step) (stack : List String)
    (path source : String) {imports others : List Grammar.ImportDeclaration}
    (h : List.Forall₂ (fun a b => Respells a.path b.path) imports others) (walk : ImportWalk) :
    let walked := visitImports visit stack path source imports walk
    let other := visitImports visit stack path source others walk
    walked.1.isOk = other.1.isOk ∧ walked.2 = other.2 := by
  induction h generalizing walk with
  | nil => exact ⟨rfl, rfl⟩
  | @cons a b _ _ hab _ ih =>
    unfold visitImports
    rw [hab.resolve_eq path]
    by_cases hcycle : stack.contains (resolve path b.path) = true
    · simp only [if_pos hcycle]
      exact ⟨rfl, trivial⟩
    · simp only [if_neg hcycle]
      split
      · exact ih _
      · exact ⟨rfl, rfl⟩

/-- Modules are told apart by what their paths say, however these are written. A path has one normal
form, which does not change when it is normalized again, and it may be taken before or after the
path is put below a directory. Two texts have the same normal form exactly if they are spellings of
one path, and then they designate the same module: as an entry, as the path of a given text, and as
an import of any module. -/
theorem ModulePath.lexical_identity :
    (∀ text, normalize (normalize text) = normalize text) ∧
    (∀ text, normalize text = "." ∨ ∃ path : ModulePath,
      path.Normal ∧ path.rooted = (ofText text).rooted ∧ (path.rooted = true ∨ path.parts ≠ []) ∧
        (normalize text).toList =
          (if path.rooted then ['/'] else []) ++ Text.join '/' path.parts) ∧
    (∀ directory text, normalize (joinText directory text) =
      normalize (joinText (normalize directory) (normalize text))) ∧
    (∀ importer text, resolve importer text = resolve importer (normalize text) ∧
      resolve importer text = normalize (joinText (ofText importer).directory.toText text) ∧
      normalize (resolve importer text) = resolve importer text) ∧
    (∀ s t, Respells s t ↔ normalize s = normalize t) ∧
    (∀ s t, Respells s t → (∀ importer, resolve importer s = resolve importer t) ∧
      ∀ (model : Model) registry library,
        model.readProject registry library s = model.readProject registry library t) ∧
    (∀ entry other sources others, Respells entry other →
      List.Forall₂ (fun a b => Respells a.1 b.1 ∧ a.2 = b.2) sources others →
      Library.ofSources entry sources = Library.ofSources other others) ∧
    ∀ visit stack path source (imports others : List Grammar.ImportDeclaration) walk,
      List.Forall₂ (fun a b => Respells a.path b.path) imports others →
      let walked := ImportWalk.visitImports visit stack path source imports walk
      let other := ImportWalk.visitImports visit stack path source others walk
      walked.1.isOk = other.1.isOk ∧ walked.2 = other.2 := by
  refine ⟨normalize_normalize, normalize_shape, normalize_joinText, fun importer text => ?_,
    respells_iff, fun s t h => ⟨h.resolve_eq, fun model registry library => ?_⟩,
    fun _ _ _ _ hentry h => Library.ofSources_respelled hentry h,
    fun visit stack path source _ _ walk h =>
      ImportWalk.visitImports_respelled visit stack path source h walk⟩
  · have hspelled : Respells text (normalize text) :=
      (respells_iff _ _).mpr (normalize_normalize text).symm
    exact ⟨hspelled.resolve_eq importer, resolve_eq_normalize importer text,
      normalize_resolve importer text⟩
  · rw [Model.readProject, Model.readProject, (respells_iff s t).mp h]

/-- A detour through a directory is another spelling of the way past it. -/
theorem ModulePath.lexical_identity_detour :
    Respells "./lib//old/../std.cad" "lib/std.cad" ∧
      resolve "parts/body.cad" "./lib//old/../std.cad" = resolve "parts/body.cad" "lib/std.cad" ∧
      resolve "parts/body.cad" "lib/std.cad" = "parts/lib/std.cad" ∧
      normalize "/a/../../b.cad" = normalize "/b.cad" ∧
      Library.ofSources "./main.cad" [("a/../main.cad", "")] =
        Library.ofSources "main.cad" [("main.cad", "")] := by
  have hlib : Respells "./lib//old/../std.cad" "lib/std.cad" :=
    (lexical_identity.2.2.2.2.1 _ _).mpr (by decide +kernel)
  have hmain : Respells "./main.cad" "main.cad" := (respells_iff _ _).mpr (by decide +kernel)
  have hdetour : Respells "a/../main.cad" "main.cad" := (respells_iff _ _).mpr (by decide +kernel)
  have hroot : Respells "/a/../../b.cad" "/b.cad" := (respells_iff _ _).mpr (by decide +kernel)
  refine ⟨hlib, (lexical_identity.2.2.2.2.2.1 _ _ hlib).1 _, by decide +kernel,
    (lexical_identity.2.2.2.2.1 _ _).mp hroot, ?_⟩
  exact lexical_identity.2.2.2.2.2.2.1 _ _ _ _ hmain (.cons ⟨hdetour, rfl⟩ .nil)

end PartScript
