/-
  Selection filters: all sub-shapes, none of them, or a list of ids.
-/
import PartScript.Build.Backend
import PartScript.Text.Blank
import PartScript.Text.Pieces

namespace PartScript.Filter

/-- Reads an id: decimal digits with an optional plus sign, at most the largest word. -/
def id? (cs : List Char) : Option UInt32 :=
  let digits := match cs with
    | '+' :: rest => rest
    | _ => cs
  if digits.isEmpty || !digits.all Char.isDigit then none
  else
    let n := digits.foldl (fun n d => 10 * n + (d.toNat - '0'.toNat)) 0
    if n ≤ 0xFFFFFFFF then some (UInt32.ofNat n) else none

/-- Reads one piece of an id list. -/
def readPiece (count : UInt32) (piece : List Char) : Except BackendError UInt32 :=
  let text := Text.trim piece
  match id? text with
  | none => .error (.invalidFilter s!"'{String.ofList text}' is not an id")
  | some id =>
    if id < count then .ok id
    else .error (.invalidFilter s!"id {id} out of range (0..{count})")

/-- The ids below `count` that a filter selects: all of them for a blank filter, none for
`none`, else those listed with commas between them. -/
def select (filter : String) (count : UInt32) : Except BackendError IdSet :=
  let text := Text.trim filter.toList
  if text.isEmpty then .ok (.below count)
  else if text = "none".toList then .ok .empty
  else return .ofList (← (Text.pieces ',' text).mapM (readPiece count))

end PartScript.Filter
