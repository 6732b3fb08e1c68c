/-
  Splitting a text at a mark and writing it back with the mark between the pieces.
-/
namespace PartScript.Text

/-- The pieces of a text between the occurrences of `mark`; a text without `mark` is one
piece. -/
def pieces (mark : Char) : List Char → List (List Char)
  | [] => [[]]
  | c :: cs =>
    if c = mark then [] :: pieces mark cs
    else
      match pieces mark cs with
      | [] => [[c]]
      | p :: ps => (c :: p) :: ps

/-- Writes `mark` between the pieces. -/
def join (mark : Char) : List (List Char) → List Char
  | [] => []
  | [p] => p
  | p :: ps => p ++ mark :: join mark ps

theorem pieces_ne_nil (mark : Char) (cs : List Char) : pieces mark cs ≠ [] := by
  cases cs with
  | nil => simp [pieces]
  | cons c cs =>
    unfold pieces
    split
    · simp
    · split <;> simp

theorem join_cons {mark : Char} (p : List Char) {ps : List (List Char)} (h : ps ≠ []) :
    join mark (p :: ps) = p ++ mark :: join mark ps := by
  cases ps with
  | nil => exact absurd rfl h
  | cons q qs => rfl

/-- Nothing is lost by splitting. -/
theorem join_pieces (mark : Char) (cs : List Char) : join mark (pieces mark cs) = cs := by
  induction cs with
  | nil => rfl
  | cons c cs ih =>
    unfold pieces
    split
    · rename_i h
      rw [join_cons [] (pieces_ne_nil mark cs), ih, h]
      rfl
    · cases hp : pieces mark cs with
      | nil => exact absurd hp (pieces_ne_nil mark cs)
      | cons p ps =>
        rw [hp] at ih
        cases ps with
        | nil => exact congrArg (c :: ·) ih
        | cons q qs => exact congrArg (c :: ·) ih

/-- No piece holds the mark. -/
theorem not_mem_of_mem_pieces {mark : Char} {cs p : List Char} (h : p ∈ pieces mark cs) :
    mark ∉ p := by
  induction cs generalizing p with
  | nil =>
    have hp : p = [] := by simpa [pieces] using h
    simp [hp]
  | cons c cs ih =>
    unfold pieces at h
    split at h
    · rcases List.mem_cons.1 h with rfl | h
      · simp
      · exact ih h
    · rename_i hc
      cases hs : pieces mark cs with
      | nil => exact absurd hs (pieces_ne_nil mark cs)
      | cons q qs =>
        rw [hs] at h ih
        rcases List.mem_cons.1 h with rfl | h
        · have hq := ih List.mem_cons_self
          simp only [List.mem_cons, not_or]
          exact ⟨fun e => hc e.symm, hq⟩
        · exact ih (List.mem_cons_of_mem q h)

end PartScript.Text
