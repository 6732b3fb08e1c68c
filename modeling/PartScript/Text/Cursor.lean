/-
  Positions in a source text. A cursor holds what is left to read together with the byte
  offset, the line and the column at which the reading stands; every operation only moves
  it forward.
-/
namespace PartScript

/-- A place in a source text: the characters still to be read, the number of UTF-8 bytes
before them, the line (from 1, counted by line feeds) and the column (from 1, counted in
characters). -/
structure Cursor where
  rest : List Char
  offset : Nat
  line : Nat
  column : Nat
deriving DecidableEq, Repr, Inhabited

namespace Cursor

/-- The cursor before the first character of a text. -/
def ofText (text : String) : Cursor := ⟨text.toList, 0, 1, 1⟩

/-- The cursor after the next character, or the same cursor at the end of the text. -/
def next (c : Cursor) : Cursor :=
  match c.rest with
  | [] => c
  | '\n' :: rest => ⟨rest, c.offset + 1, c.line + 1, 1⟩
  | ch :: rest => ⟨rest, c.offset + ch.utf8Size, c.line, c.column + 1⟩

/-- The cursor after the next `n` characters. -/
def skip : Nat → Cursor → Cursor
  | 0, c => c
  | n + 1, c => skip n c.next

/-- Splits off the longest run of characters in the class `p`. -/
def takeWhile (p : Char → Bool) (c : Cursor) : List Char × Cursor :=
  let run := c.rest.takeWhile p
  (run, c.skip run.length)

theorem next_rest (c : Cursor) : c.next.rest = c.rest.tail := by
  unfold next
  split <;> simp_all

theorem skip_rest (n : Nat) (c : Cursor) : (c.skip n).rest = c.rest.drop n := by
  induction n generalizing c with
  | zero => rfl
  | succ n ih => simp [skip, ih, next_rest, List.drop_tail]

end Cursor

end PartScript
