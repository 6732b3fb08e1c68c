/-
  Module paths. They are logical names: two spellings name the same module when they agree
  after blank and `.` components have been dropped and `name/..` pairs have been folded,
  whatever files there are.
-/
import PartScript.Text.Pieces

namespace PartScript

/-- A path as a list of components between slashes, without blank and `.` components. -/
structure ModulePath where
  rooted : Bool
  parts : List (List Char)
deriving DecidableEq, Repr

namespace ModulePath

/-- The component that leads to the containing directory. -/
def up : List Char := ['.', '.']

/-- Whether a component counts. -/
def isPart (part : List Char) : Bool := part ≠ [] && part ≠ ['.']

/-- The components of a text; a leading slash makes the path rooted. -/
def ofText (text : String) : ModulePath :=
  ⟨text.toList.head? = some '/', (Text.pieces '/' text.toList).filter isPart⟩

/-- Adds a component to a folded path whose last component comes first. Folding keeps the
leading `..` of a path that is not rooted, and drops them at the root. -/
def push (rooted : Bool) (stack : List (List Char)) (part : List Char) : List (List Char) :=
  if part = up then
    match stack with
    | [] => if rooted then [] else [up]
    | top :: rest => if top = up then up :: stack else rest
  else part :: stack

/-- Folds `name/..` pairs. -/
def fold (path : ModulePath) : ModulePath :=
  ⟨path.rooted, (path.parts.foldl (push path.rooted) []).reverse⟩

/-- The text of a path, `.` for the empty one. -/
def toText (path : ModulePath) : String :=
  let body := Text.join '/' path.parts
  if path.rooted then String.ofList ('/' :: body)
  else if body.isEmpty then "."
  else String.ofList body

/-- The directory that contains a path. The root is contained in no directory and stands in
the current one. -/
def directory (path : ModulePath) : ModulePath :=
  if path.parts.isEmpty then ⟨false, []⟩ else ⟨path.rooted, path.parts.dropLast⟩

/-- A path relative to a directory; a rooted path stands for itself. -/
def join (directory path : ModulePath) : ModulePath :=
  if path.rooted then path else ⟨directory.rooted, directory.parts ++ path.parts⟩

/-- The one spelling of a module path. -/
def normalize (text : String) : String := (ofText text).fold.toText

/-- The module that an import designates, relative to the directory of the importer. -/
def resolve (importer text : String) : String :=
  ((ofText importer).directory.join (ofText text)).fold.toText

end ModulePath

end PartScript
