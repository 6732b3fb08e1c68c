/-
  Projects of several modules: which modules an entry module needs, in which order they
  are read, and the errors of imports that cannot be followed.
-/
import PartScript.Grammar.Script
import PartScript.Project.Path
import PartScript.Table

namespace PartScript

/-- A source of module texts: the texts it has, and what it says about a missing one. -/
structure Library where
  texts : Table String String
  missing : String → String

namespace Library

/-- Reads a module. -/
def read (library : Library) (path : String) : Except String String :=
  match library.texts.get? path with
  | some text => .ok text
  | none => .error (library.missing path)

/-- Indexes module texts by their normalized paths, each of which may occur once. -/
def index : List (String × String) → Table String String →
    Except CompileError (Table String String)
  | [], table => .ok table
  | (path, text) :: rest, table =>
    let normalized := ModulePath.normalize path
    if table.contains normalized then
      .error (.inFile .unreadableImport s!"Duplicate source path '{normalized}'" normalized)
    else index rest (table.insert normalized text)

/-- The library of the given texts, which has to contain the entry module. -/
def ofSources (entry : String) (sources : List (String × String)) :
    Except CompileError Library := do
  let table ← index sources []
  let normalized := ModulePath.normalize entry
  if table.contains normalized then
    return ⟨table, fun path => s!"source '{path}' was not provided"⟩
  else
    .error (.inFile .unreadableImport s!"Entry source '{normalized}' was not provided"
      normalized)

end Library

/-- A walk through the import graph: the modules whose imports have all been walked, with
their texts, and the paths that the library was asked for. Both are in order of time. -/
structure ImportWalk where
  order : List (String × String)
  asked : List String

namespace ImportWalk

/-- Whether a module and all it needs have been walked. -/
def isDone (walk : ImportWalk) (path : String) : Bool := walk.order.any (·.1 == path)

/-- A step of a walk, which may end it with an error. -/
abbrev Step := ImportWalk → Except CompileError Unit × ImportWalk

/-- The error of a module that cannot be read, at the import that needs it. -/
def atImport (path source resolved : String) (declaration : Grammar.ImportDeclaration)
    (error : CompileError) : CompileError :=
  if !error.hasLocation && error.file = resolved then
    .atSpan .unreadableImport
      s!"Failed to load import '{declaration.path}': {error.message}" path source
      declaration.span
  else error

/-- Walks the imports of a module in order. `stack` holds the modules whose imports are
being walked, outermost first; meeting one of them again is an import cycle. -/
def visitImports (visit : String → Step) (stack : List String) (path source : String) :
    List Grammar.ImportDeclaration → Step
  | [], walk => (.ok (), walk)
  | declaration :: rest, walk =>
    let resolved := ModulePath.resolve path declaration.path
    if stack.contains resolved then
      (.error (.atSpan .unreadableImport
        ("Import cycle detected: " ++ " -> ".intercalate (stack ++ [resolved]))
        path source declaration.span), walk)
    else
      match visit resolved walk with
      | (.ok (), walk') => visitImports visit stack path source rest walk'
      | (.error error, walk') =>
        (.error (atImport path source resolved declaration error), walk')

/-- Walks a module and all it needs. Modules that are done or were loaded before are passed
over. The modules on the stack are distinct and in the library, which bounds the nesting
`n`. -/
def visit (library : Library) (loaded : String → Bool) :
    (n : Nat) → (stack : List String) → String → Step
  | 0, _, path, walk =>
    (.error (.inFile .unreadableImport s!"Imports of '{path}' nest too deeply" path), walk)
  | n + 1, stack, path, walk =>
    if walk.isDone path || loaded path then (.ok (), walk)
    else
      let asking := { walk with asked := walk.asked ++ [path] }
      match library.read path with
      | .error message =>
        (.error (.inFile .unreadableImport s!"Failed to load source '{path}': {message}" path),
          asking)
      | .ok source =>
        match Grammar.leadingImports path source with
        | .error error => (.error error, asking)
        | .ok (imports, _) =>
          let onStack := stack ++ [path]
          match visitImports (visit library loaded n onStack) onStack path source imports asking with
          | (.error error, walk') => (.error error, walk')
          | (.ok (), walk') => (.ok (), { walk' with order := walk'.order ++ [(path, source)] })

end ImportWalk

/-- Walks from an entry module through everything it needs that is not loaded yet. -/
def Library.walk (library : Library) (loaded : String → Bool) (entry : String) :
    Except CompileError Unit × ImportWalk :=
  ImportWalk.visit library loaded (library.texts.length + 1) [] entry ⟨[], []⟩

namespace Model

/-- Reads modules in order, each on top of those before it. -/
def readModules (registry : Registry) :
    List (String × String) → Model → Except CompileError Model
  | [], model => .ok model
  | (path, source) :: rest, model => do
    let extended ← model.read registry path source
    readModules registry rest (extended.markLoaded path)

/-- The model extended by an entry module and everything it needs, and the paths that the
library was asked for. -/
def readProject (model : Model) (registry : Registry) (library : Library) (entry : String) :
    Except CompileError Model × List String :=
  match library.walk model.isLoaded (ModulePath.normalize entry) with
  | (.ok (), walk) => (readModules registry walk.order model, walk.asked)
  | (.error error, walk) => (.error error, walk.asked)

/-- The name of a script that was given without a path. -/
def scriptName : String := "<script>"

/-- The model extended by a script, which cannot import. -/
def readScript (model : Model) (registry : Registry) (source : String) :
    Except CompileError Model := do
  let (imports, _) ← Grammar.leadingImports scriptName source
  match imports with
  | declaration :: _ =>
    .error (.atSpan .unreadableImport
      s!"Failed to load import '{declaration.path}': no loader configured" scriptName source
      declaration.span)
  | [] => model.read registry scriptName source

end Model

end PartScript
