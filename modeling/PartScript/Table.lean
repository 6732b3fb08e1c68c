/-
  Finite maps as lists of pairs with distinct keys, in the order in which the keys were
  first written.
-/
namespace PartScript

/-- A finite map from `α` to `β`. -/
abbrev Table (α β : Type) := List (α × β)

namespace Table

variable {α β : Type} [DecidableEq α]

/-- The value stored under a key. -/
def get? : Table α β → α → Option β
  | [], _ => none
  | (k, v) :: t, x => if k = x then some v else get? t x

/-- Stores a value, in the place of an earlier one under the same key. -/
def insert : Table α β → α → β → Table α β
  | [], x, y => [(x, y)]
  | (k, v) :: t, x, y => if k = x then (x, y) :: t else (k, v) :: insert t x y

/-- Whether a value is stored under a key. -/
def contains (t : Table α β) (x : α) : Bool := (t.get? x).isSome

theorem get?_insert (t : Table α β) (x z : α) (y : β) :
    (t.insert x y).get? z = if x = z then some y else t.get? z := by
  induction t with
  | nil => simp [insert, get?]
  | cons p t ih =>
    obtain ⟨k, v⟩ := p
    by_cases hk : k = x
    · subst hk
      by_cases hz : k = z <;> simp [insert, get?, hz]
    · by_cases hz : k = z
      · subst hz
        simp [insert, get?, hk, Ne.symm hk]
      · simp [insert, get?, hk, hz, ih]

end Table

end PartScript
