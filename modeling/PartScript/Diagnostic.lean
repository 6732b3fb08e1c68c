/-
  Errors of loading a script, with the source line and a caret pointer under it.
-/
import PartScript.Text.Cursor
import PartScript.Text.Lines

namespace PartScript

/-- A range of a source text in bytes, and the line and column of its start. -/
structure SourceSpan where
  start : Nat
  stop : Nat
  line : Nat
  column : Nat
deriving DecidableEq, Repr

namespace SourceSpan

/-- The range from one cursor to another. -/
def between (start stop : Cursor) : SourceSpan :=
  ⟨start.offset, stop.offset, start.line, start.column⟩

/-- The number of bytes in the range. -/
def length (s : SourceSpan) : Nat := s.stop - s.start

def isEmpty (s : SourceSpan) : Bool := s.length = 0

end SourceSpan

/-- The ways in which a script can fail to load. -/
inductive CompileErrorKind where
  /-- The text does not follow the grammar, or arguments do not fit their constructor. -/
  | malformed
  /-- A constructor call names a type that is not registered. -/
  | unknownFeatureType
  /-- A binding uses a name that is bound already. -/
  | duplicateSymbol
  /-- A binding uses a keyword or the name of a feature type. -/
  | reservedName
  /-- A module cannot be read, or the imports form a cycle. -/
  | unreadableImport
deriving DecidableEq, Repr

/-- An error of loading a script. An error without a position has line and column zero. -/
structure CompileError where
  kind : CompileErrorKind
  message : String
  file : String
  line : Nat
  column : Nat
  /-- The source line at which the error stands. -/
  snippet : String
  /-- Spaces and carets to print under the snippet. -/
  pointer : String
deriving DecidableEq, Repr

namespace CompileError

/-- An error about a file as a whole. -/
def inFile (kind : CompileErrorKind) (message file : String) : CompileError :=
  ⟨kind, message, file, 0, 0, "", ""⟩

/-- The pointer under a line of `width` characters for a span: the carets start at the
column of the span, count its bytes, are cut off at the end of the line, and are at least
one. -/
def caretLine (width : Nat) (span : SourceSpan) : String :=
  let indent := min (span.column - 1) width
  let carets := min (max span.length 1) (max (width - indent) 1)
  String.ofList (List.replicate indent ' ' ++ List.replicate carets '^')

/-- An error at a span of a source text. Past the last line the snippet is empty. -/
def atSpan (kind : CompileErrorKind) (message file source : String) (span : SourceSpan) :
    CompileError :=
  let snippet := (Text.lines source).getD (span.line - 1) ""
  ⟨kind, message, file, span.line, span.column, snippet, caretLine snippet.length span⟩

/-- Whether the error carries a position. -/
def hasLocation (e : CompileError) : Bool := e.line ≠ 0 && e.column ≠ 0

/-- Pads a number with spaces on the left to three characters. -/
def gutter (n : Nat) : String :=
  let digits := toString n
  String.ofList (List.replicate (3 - digits.length) ' ') ++ digits

/-- The text of an error: the message alone, with the file, or with position, source line
and pointer. -/
def display (e : CompileError) : String :=
  if e.hasLocation then
    let place :=
      if e.file.isEmpty then s!"line {e.line}, column {e.column}"
      else s!"{e.file}:{e.line}:{e.column}"
    e.message ++ "\n --> " ++ place ++ "\n  |\n" ++ gutter e.line ++ " | " ++ e.snippet ++
      "\n  | " ++ e.pointer
  else if e.file.isEmpty then e.message
  else s!"{e.message} ({e.file})"

end CompileError

end PartScript
