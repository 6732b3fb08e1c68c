/-
  Finite sets of sub-shape ids, as ascending lists. Two sets with the same members are
  equal. Unions and differences walk along both lists once, since the sets grow as large as
  the shapes that they pick from.
-/
namespace PartScript

/-- A finite set of ids. -/
structure IdSet where
  /-- The members in ascending order. -/
  toList : List UInt32
  ascending : toList.Pairwise (· < ·)
deriving DecidableEq, Repr

namespace IdSet

/-! ## Adding an id -/

/-- Puts an id at its place in an ascending list. -/
def insertSorted (x : UInt32) : List UInt32 → List UInt32
  | [] => [x]
  | y :: ys => if x < y then x :: y :: ys else if x = y then y :: ys else y :: insertSorted x ys

theorem mem_insertSorted {x z : UInt32} {ys : List UInt32} :
    z ∈ insertSorted x ys ↔ z = x ∨ z ∈ ys := by
  induction ys with
  | nil => simp [insertSorted]
  | cons y ys ih =>
    unfold insertSorted
    split
    · simp
    · split
      · simp_all
      · simp only [List.mem_cons, ih]
        constructor
        · rintro (h | h | h) <;> simp [h]
        · rintro (h | h | h) <;> simp [h]

theorem ascending_insertSorted {x : UInt32} {ys : List UInt32} (h : ys.Pairwise (· < ·)) :
    (insertSorted x ys).Pairwise (· < ·) := by
  induction ys with
  | nil => simp [insertSorted]
  | cons y ys ih =>
    obtain ⟨hy, hys⟩ := List.pairwise_cons.1 h
    unfold insertSorted
    split
    · rename_i hlt
      refine List.pairwise_cons.2 ⟨fun z hz => ?_, h⟩
      rcases List.mem_cons.1 hz with rfl | hz
      · exact hlt
      · exact UInt32.lt_trans hlt (hy z hz)
    · split
      · exact h
      · rename_i hlt hne
        refine List.pairwise_cons.2 ⟨fun z hz => ?_, ih hys⟩
        rcases mem_insertSorted.1 hz with rfl | hz
        · exact UInt32.lt_of_le_of_ne (UInt32.not_lt.1 hlt) (Ne.symm hne)
        · exact hy z hz

/-! ## The part of an ascending list from an id on -/

theorem mem_dropWhile_lt {x z : UInt32} {ys : List UInt32} (h : ys.Pairwise (· < ·)) :
    z ∈ ys.dropWhile (· < x) ↔ z ∈ ys ∧ x ≤ z := by
  induction ys with
  | nil => simp
  | cons y ys ih =>
    obtain ⟨hy, hys⟩ := List.pairwise_cons.1 h
    by_cases hlt : y < x
    · rw [List.dropWhile_cons_of_pos (by simpa using hlt), ih hys, List.mem_cons]
      constructor
      · rintro ⟨hz, hx⟩
        exact ⟨.inr hz, hx⟩
      · rintro ⟨rfl | hz, hx⟩
        · exact absurd hlt (UInt32.not_lt.2 hx)
        · exact ⟨hz, hx⟩
    · rw [List.dropWhile_cons_of_neg (by simpa using hlt)]
      have hxy := UInt32.not_lt.1 hlt
      refine ⟨fun hz => ⟨hz, ?_⟩, And.left⟩
      rcases List.mem_cons.1 hz with rfl | hz
      · exact hxy
      · exact UInt32.le_trans hxy (UInt32.le_of_lt (hy z hz))

theorem ascending_dropWhile {p : UInt32 → Bool} {ys : List UInt32}
    (h : ys.Pairwise (· < ·)) : (ys.dropWhile p).Pairwise (· < ·) :=
  h.sublist (List.dropWhile_sublist p)

theorem head?_eq_some_iff {x : UInt32} {ys : List UInt32} (h : ys.Pairwise (· < ·))
    (hx : ∀ z ∈ ys, x ≤ z) : ys.head? = some x ↔ x ∈ ys := by
  cases ys with
  | nil => simp
  | cons y ys =>
    rw [List.head?_cons, Option.some_inj, List.mem_cons]
    refine ⟨fun e => .inl e.symm, ?_⟩
    rintro (rfl | hmem)
    · rfl
    · have hlt := (List.pairwise_cons.1 h).1 x hmem
      exact absurd hlt (UInt32.not_lt.2 (hx y List.mem_cons_self))

/-! ## Differences -/

/-- The ids of an ascending list that are not in another one, after those in `kept`, which
are in descending order. -/
def subtractOnto (kept : List UInt32) : List UInt32 → List UInt32 → List UInt32
  | [], _ => kept.reverse
  | x :: xs, ys =>
    let rest := ys.dropWhile (· < x)
    subtractOnto (if rest.head? = some x then kept else x :: kept) xs rest

theorem subtractOnto_eq {kept xs ys : List UInt32} (hxs : xs.Pairwise (· < ·))
    (hys : ys.Pairwise (· < ·)) :
    subtractOnto kept xs ys = kept.reverse ++ xs.filter fun x => x ∉ ys := by
  induction xs generalizing kept ys with
  | nil => simp [subtractOnto]
  | cons x xs ih =>
    obtain ⟨hx, hxs⟩ := List.pairwise_cons.1 hxs
    have hrest := ascending_dropWhile (p := fun y => decide (y < x)) hys
    have hhead := head?_eq_some_iff hrest fun z hz => ((mem_dropWhile_lt hys).1 hz).2
    have hmem : x ∈ ys.dropWhile (· < x) ↔ x ∈ ys := by
      simp [mem_dropWhile_lt hys]
    have htail : (xs.filter fun z => z ∉ ys.dropWhile (· < x)) = xs.filter fun z => z ∉ ys := by
      refine List.filter_congr fun z hz => ?_
      simp [mem_dropWhile_lt hys, UInt32.le_of_lt (hx z hz)]
    rw [subtractOnto, ih hxs hrest, htail]
    by_cases h : x ∈ ys
    · simp [h, hhead.2 (hmem.2 h)]
    · have hne : ¬(ys.dropWhile (· < x)).head? = some x := fun e => h (hmem.1 (hhead.1 e))
      simp [h, hne]

/-! ## Unions -/

/-- The ids of two ascending lists in ascending order, after those in `merged`, which are
in descending order. -/
def mergeOnto (merged : List UInt32) : List UInt32 → List UInt32 → List UInt32
  | [], ys => merged.reverseAux ys
  | x :: xs, ys =>
    let rest := ys.dropWhile (· < x)
    mergeOnto (x :: (ys.takeWhile (· < x)).reverseAux merged) xs
      (if rest.head? = some x then rest.tail else rest)

theorem mem_mergeOnto {merged xs ys : List UInt32} {z : UInt32} :
    z ∈ mergeOnto merged xs ys ↔ z ∈ merged ∨ z ∈ xs ∨ z ∈ ys := by
  induction xs generalizing merged ys with
  | nil => simp [mergeOnto]
  | cons x xs ih =>
    have hsplit : z ∈ ys ↔ z ∈ ys.takeWhile (· < x) ∨ z ∈ ys.dropWhile (· < x) := by
      rw [← List.mem_append, List.takeWhile_append_dropWhile]
    have hrest : (z = x ∨ z ∈ if (ys.dropWhile (· < x)).head? = some x then
        (ys.dropWhile (· < x)).tail else ys.dropWhile (· < x)) ↔
        z = x ∨ z ∈ ys.dropWhile (· < x) := by
      split
      · rename_i h
        obtain ⟨rest, hrest⟩ := List.head?_eq_some_iff.1 h
        simp [hrest]
      · rfl
    rw [mergeOnto, ih, List.mem_cons, List.mem_cons, List.reverseAux_eq, List.mem_append,
      List.mem_reverse, hsplit]
    grind

theorem ascending_mergeOnto {merged xs ys : List UInt32}
    (hxs : (merged.reverse ++ xs).Pairwise (· < ·))
    (hys : (merged.reverse ++ ys).Pairwise (· < ·)) :
    (mergeOnto merged xs ys).Pairwise (· < ·) := by
  induction xs generalizing merged ys with
  | nil => simpa [mergeOnto, List.reverseAux_eq] using hys
  | cons x xs ih =>
    obtain ⟨hm, hxxs, hmx⟩ := List.pairwise_append.1 hxs
    obtain ⟨hx, hxs⟩ := List.pairwise_cons.1 hxxs
    obtain ⟨_, hys, hmy⟩ := List.pairwise_append.1 hys
    have hlesser : ∀ y ∈ ys.takeWhile (· < x), y < x := by
      intro y hy
      simpa using List.all_eq_true.1 List.all_takeWhile y hy
    have hgrow {zs : List UInt32} (hzs : (x :: zs).Pairwise (· < ·)) :
        ((x :: (ys.takeWhile (· < x)).reverseAux merged).reverse ++ zs).Pairwise (· < ·) := by
      have hlt := (List.pairwise_cons.1 hzs).1
      have hshape : (x :: (ys.takeWhile (· < x)).reverseAux merged).reverse ++ zs =
          merged.reverse ++ (ys.takeWhile (· < x) ++ x :: zs) := by
        simp [List.reverseAux_eq]
      rw [hshape]
      refine List.pairwise_append.2 ⟨hm, List.pairwise_append.2 ⟨?_, hzs, ?_⟩, ?_⟩
      · exact hys.sublist (List.takeWhile_sublist _)
      · intro y hy z hz
        rcases List.mem_cons.1 hz with rfl | hz
        · exact hlesser y hy
        · exact UInt32.lt_trans (hlesser y hy) (hlt z hz)
      · intro a ha z hz
        have hax := hmx a ha x List.mem_cons_self
        rcases List.mem_append.1 hz with hz | hz
        · exact hmy a ha z ((List.takeWhile_sublist _).subset hz)
        · rcases List.mem_cons.1 hz with rfl | hz
          · exact hax
          · exact UInt32.lt_trans hax (hlt z hz)
    have hrest := ascending_dropWhile (p := fun y => decide (y < x)) hys
    have hle : ∀ z ∈ ys.dropWhile (· < x), x ≤ z := fun z hz => ((mem_dropWhile_lt hys).1 hz).2
    refine ih (hgrow hxxs) (hgrow ?_)
    split
    · rename_i h
      obtain ⟨rest, heq⟩ := List.head?_eq_some_iff.1 h
      rwa [heq, List.tail_cons, ← heq]
    · rename_i h
      refine List.pairwise_cons.2 ⟨fun z hz => UInt32.lt_of_le_of_ne (hle z hz) ?_, hrest⟩
      rintro rfl
      exact h ((head?_eq_some_iff hrest hle).2 hz)

/-! ## Sets -/

instance : Membership UInt32 IdSet := ⟨fun s x => x ∈ s.toList⟩

theorem mem_toList {s : IdSet} {x : UInt32} : x ∈ s.toList ↔ x ∈ s := .rfl

def empty : IdSet := ⟨[], .nil⟩

/-- Adds an id. -/
def insert (s : IdSet) (x : UInt32) : IdSet :=
  ⟨insertSorted x s.toList, ascending_insertSorted s.ascending⟩

theorem mem_insert {s : IdSet} {x z : UInt32} : z ∈ s.insert x ↔ z = x ∨ z ∈ s :=
  mem_insertSorted

/-- The set of the ids in a list. -/
def ofList (xs : List UInt32) : IdSet := xs.foldr (fun x s => s.insert x) empty

theorem mem_ofList {xs : List UInt32} {z : UInt32} : z ∈ ofList xs ↔ z ∈ xs := by
  induction xs with
  | nil => exact .rfl
  | cons x xs ih =>
    have h : ofList (x :: xs) = (ofList xs).insert x := rfl
    rw [h, mem_insert, ih, List.mem_cons]

/-- The ids below a count. -/
def below (count : UInt32) : IdSet :=
  ofList ((List.range count.toNat).map UInt32.ofNat)

/-- The ids in one of two sets. -/
def union (s t : IdSet) : IdSet :=
  ⟨mergeOnto [] s.toList t.toList, ascending_mergeOnto s.ascending t.ascending⟩

theorem mem_union {s t : IdSet} {z : UInt32} : z ∈ s.union t ↔ z ∈ s ∨ z ∈ t := by
  rw [← mem_toList, union, mem_mergeOnto]
  simp [mem_toList]

/-- The ids in the first set but not in the second. -/
def difference (s t : IdSet) : IdSet :=
  ⟨subtractOnto [] s.toList t.toList, by
    rw [subtractOnto_eq s.ascending t.ascending]
    exact s.ascending.filter _⟩

theorem toList_difference {s t : IdSet} :
    (s.difference t).toList = s.toList.filter fun x => x ∉ t.toList :=
  subtractOnto_eq s.ascending t.ascending

theorem mem_difference {s t : IdSet} {z : UInt32} : z ∈ s.difference t ↔ z ∈ s ∧ z ∉ t := by
  rw [← mem_toList, toList_difference]
  simp [mem_toList]

end IdSet

end PartScript
