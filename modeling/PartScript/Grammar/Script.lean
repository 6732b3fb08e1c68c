/-
  Whole scripts: reading the statements of a text into a model, and the diagnostics of a
  text that cannot be read.
-/
import PartScript.Grammar.Statement

namespace PartScript

namespace Grammar

/-! ## Diagnostics -/

/-- The error for a text that does not follow the grammar, at the stop to report. -/
def malformedAt (stops : List Stop) (file source : String) : CompileError :=
  match furthest? stops with
  | some s => .atSpan .malformed s.mismatch.message file source (.between s.cursor s.cursor)
  | none => .inFile .malformed "Syntax error" file

/-- The phrases whose absence is explained by the name found in their place. -/
def explainedPhrases : List String :=
  ["scalar expression", "vector expression", "datum", "selection"]

/-- Explains a value phrase that stopped at a name: the name is not bound, or bound to a
value of another kind. -/
def explanation? (g : Grammar) (s : Stop) : Option String :=
  match s.mismatch with
  | .phrase label =>
    if explainedPhrases.contains label then
      match identifier s.cursor with
      | .ok word _ =>
        if isReserved word || g.registry.contains word then none
        else
          match g.model.kindOf? word with
          | none => some s!"Syntax error: unknown identifier '{word}'"
          | some found =>
            some s!"Syntax error: '{word}' is a {found.name}, expected {label}"
      | _ => none
    else none
  | _ => none

/-- The error for a statement that cannot be read. A rule's own notice comes first. -/
def diagnose (g : Grammar) (stops : List Stop) (notice : Option Notice)
    (file source : String) : CompileError :=
  match notice with
  | some n => .atSpan n.kind n.message file source n.span
  | none =>
    let error := malformedAt stops file source
    match (furthest? stops).bind g.explanation? with
    | some message => { error with message := message }
    | none => error

/-! ## Imports -/

/-- Reads the leading import declarations. Each takes at least one character, so the text
left bounds their number. -/
def importsFrom (file source : String) :
    Nat → Cursor → Except CompileError (List ImportDeclaration × Cursor)
  | 0, c => .ok ([], c)
  | n + 1, c =>
    match importDeclaration c with
    | .ok declaration rest => do
      let (more, last) ← importsFrom file source n rest
      return (declaration :: more, last)
    | .error _ => .ok ([], c)
    | .failure stops _ => .error (malformedAt stops file source)

/-- The leading import declarations of a text and what follows them. -/
def leadingImports (file source : String) :
    Except CompileError (List ImportDeclaration × Cursor) :=
  let c := Cursor.ofText source
  importsFrom file source (c.rest.length + 1) c

/-! ## Statements -/

/-- Adds a statement to a model. -/
def addStatement (model : Model) (statement : Statement) (span : SourceSpan) (file source : String) :
    Except CompileError Model :=
  match statement with
  | .binding name value =>
    match model.bind? ⟨name, value, span, file⟩ with
    | some extended => .ok extended
    | none => .error (.atSpan .duplicateSymbol s!"Duplicate symbol '{name}'" file source span)
  | .output feature path => .ok (model.request ⟨feature, path, span, file⟩)

/-- Reads statements up to the end of the text; each sees the names bound before it. Each
takes at least one character, so the text left bounds their number. -/
def statementsFrom (registry : Registry) (file source : String) :
    Nat → Cursor → Model → Except CompileError Model
  | 0, _, model => .ok model
  | n + 1, c, model =>
    let start := c.skip (triviaLength false c.rest)
    if start.rest.isEmpty then .ok model
    else
      match keyword "import" start with
      | .ok _ stop =>
        .error (.atSpan .malformed "Syntax error: imports must precede all other statements"
          file source (.between start stop))
      | _ =>
        let g : Grammar := ⟨registry, model⟩
        match statement g start with
        | .ok parsed rest => do
          let extended ← addStatement model parsed (.between start rest) file source
          statementsFrom registry file source n rest extended
        | .error stops => .error (g.diagnose stops none file source)
        | .failure stops notice => .error (g.diagnose stops notice file source)

end Grammar

/-- The model extended by the statements of a text. Imports are skipped. -/
def Model.read (model : Model) (registry : Registry) (file source : String) :
    Except CompileError Model := do
  let (_, c) ← Grammar.leadingImports file source
  let extended ← Grammar.statementsFrom registry file source (c.rest.length + 1) c model
  return extended.nextSource

end PartScript
