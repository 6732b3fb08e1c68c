/-
  What a grammar rule does at a cursor, and the ways to combine rules. A rule succeeds, or
  stops in a way that lets another alternative be tried, or fails for good. Both kinds of
  failure list where reading stopped and what was expected there.
-/
import PartScript.Diagnostic

namespace PartScript.Grammar

/-- Why reading stopped at a place. -/
inductive Mismatch where
  /-- The text was read but does not mean what the rule needs. -/
  | rejected
  /-- A fixed word was expected. -/
  | word
  /-- A run of characters of a class was expected. -/
  | run
  /-- A digit was expected. -/
  | digit
  /-- A word goes on where it should have ended. -/
  | follow
  /-- None of the alternatives applies. -/
  | alternatives
  /-- A certain character was expected. -/
  | character (c : Char)
  /-- A phrase of the language was expected. -/
  | phrase (label : String)
deriving DecidableEq, Repr

/-- The message for a mismatch. -/
def Mismatch.message : Mismatch → String
  | .rejected => "Syntax error near Verify"
  | .word => "Syntax error near Tag"
  | .run => "Syntax error near TakeWhile1"
  | .digit => "Syntax error near Digit"
  | .follow => "Syntax error near Not"
  | .alternatives => "Syntax error near Alt"
  | .character c => s!"Syntax error: expected '{c}'"
  | .phrase label => s!"Syntax error: expected {label}"

/-- One mismatch and its place. -/
structure Stop where
  cursor : Cursor
  mismatch : Mismatch
deriving DecidableEq, Repr

/-- A diagnostic that a rule words itself. -/
structure Notice where
  kind : CompileErrorKind
  message : String
  span : SourceSpan
deriving DecidableEq, Repr

/-- The outcome of a rule. -/
inductive Outcome (α : Type) where
  /-- The rule applies; reading goes on at `rest`. -/
  | ok (value : α) (rest : Cursor)
  /-- The rule does not apply; another one may. -/
  | error (stops : List Stop)
  /-- The rule has committed itself and cannot be completed. -/
  | failure (stops : List Stop) (notice : Option Notice)

/-- The byte offset of the furthest stop, zero if there is none. -/
def reach (stops : List Stop) : Nat := stops.foldl (fun n s => max n s.cursor.offset) 0

/-- The stop to report: the first phrase among the furthest stops, or else the first of
them. -/
def furthest? (stops : List Stop) : Option Stop :=
  let last := stops.filter fun s => s.cursor.offset = reach stops
  let isPhrase (s : Stop) : Bool := match s.mismatch with
    | .phrase _ => true
    | _ => false
  match last.find? isPhrase with
  | some s => some s
  | none => last.head?

/-- A grammar rule. -/
def Parser (α : Type) : Type := Cursor → Outcome α

namespace Parser

variable {α β : Type}

instance : Monad Parser where
  pure a := fun c => .ok a c
  bind p f := fun c =>
    match p c with
    | .ok a rest => f a rest
    | .error stops => .error stops
    | .failure stops notice => .failure stops notice

/-- The place reached, without reading. -/
def position : Parser Cursor := fun c => .ok c c

/-- Stops at an earlier place because what was read there does not fit. -/
def reject (start : Cursor) : Parser α := fun _ => .error [⟨start, .rejected⟩]

/-- Fails for good with a diagnostic about a range of the text. -/
def refuse (start stop : Cursor) (kind : CompileErrorKind) (message : String) : Parser α :=
  fun _ => .failure [⟨start, .rejected⟩] (some ⟨kind, message, .between start stop⟩)

/-- Names the phrase that a rule reads, for messages. -/
def labelled (label : String) (p : Parser α) : Parser α := fun c =>
  match p c with
  | .ok a rest => .ok a rest
  | .error stops => .error (stops ++ [⟨c, .phrase label⟩])
  | .failure stops notice => .failure (stops ++ [⟨c, .phrase label⟩]) notice

/-- Commits to a rule: where it does not apply, reading fails for good. -/
def committed (p : Parser α) : Parser α := fun c =>
  match p c with
  | .ok a rest => .ok a rest
  | .error stops => .failure stops none
  | .failure stops notice => .failure stops notice

/-- Applies a rule if it applies, else reads nothing. -/
def optional (p : Parser α) : Parser (Option α) := fun c =>
  match p c with
  | .ok a rest => .ok (some a) rest
  | .error _ => .ok none c
  | .failure stops notice => .failure stops notice

/-- Applies a rule; where it does not apply, the text from `start` on is rejected. -/
def orReject (start : Cursor) (p : Parser α) : Parser α := fun c =>
  match p c with
  | .ok a rest => .ok a rest
  | .error _ => .error [⟨start, .rejected⟩]
  | .failure stops notice => .failure stops notice

/-- Requires a rule to apply, but reads nothing. -/
def ahead (p : Parser α) : Parser α := fun c =>
  match p c with
  | .ok a _ => .ok a c
  | .error stops => .error stops
  | .failure stops notice => .failure stops notice

/-- The first alternative that applies. If none does, the stops of the last one are kept. -/
def choice : List (Parser α) → Parser α
  | [], c => .error [⟨c, .alternatives⟩]
  | [p], c =>
    match p c with
    | .ok a rest => .ok a rest
    | .error stops => .error (stops ++ [⟨c, .alternatives⟩])
    | .failure stops notice => .failure stops notice
  | p :: ps, c =>
    match p c with
    | .ok a rest => .ok a rest
    | .error _ => choice ps c
    | .failure stops notice => .failure stops notice

/-- The first alternative that applies. If none does, the stops that reach furthest are
kept, of `best` and of those of the alternatives; the earliest of several. -/
def furthestChoice (best : Option (List Stop)) : List (Parser α) → Parser α
  | [], c => .error (best.getD [⟨c, .alternatives⟩])
  | p :: ps, c =>
    match p c with
    | .ok a rest => .ok a rest
    | .error stops =>
      match best with
      | none => furthestChoice (some stops) ps c
      | some found =>
        furthestChoice (some (if reach found < reach stops then stops else found)) ps c
    | .failure stops notice => .failure stops notice

/-- Extends `first` as long as `more` applies, at most `n` times. -/
def extend (more : α → Parser α) : Nat → α → Parser α
  | 0, first => pure first
  | n + 1, first => do
    match ← optional (more first) with
    | some longer => extend more n longer
    | none => return first

/-- Reads operands and the operators between them, grouping to the left. Each operator
takes at least one character, so the text left bounds their number. An operator commits
nothing: an operand that does not apply after it makes the whole chain not apply. -/
def chainLoop (operator : Parser β) (operand : β → α → Parser α) : Nat → α → Parser α
  | 0, left => pure left
  | n + 1, left => do
    match ← optional operator with
    | some op => chainLoop operator operand n (← operand op left)
    | none => return left

def chain (first : Parser α) (operator : Parser β) (operand : β → α → Parser α) : Parser α :=
  do
    let left ← first
    fun c => chainLoop operator operand c.rest.length left c

end Parser

end PartScript.Grammar
