/-
  The words, marks, strings and numbers of the script language, and the blanks and comments
  between them.
-/
import PartScript.Decimal.Nearest
import PartScript.Grammar.Outcome

namespace PartScript.Grammar

open Grammar.Parser

/-! ## Blanks and comments -/

/-- The blank characters of scripts. -/
def isSpace (c : Char) : Bool := c == ' ' || c == '\t' || c == '\r' || c == '\n'

/-- Whether the text up to the next line feed, if any, is free of carriage returns other
than one right before that line feed. -/
def lineEndsWell : List Char → Bool
  | [] => true
  | '\n' :: _ => true
  | '\r' :: '\n' :: _ => true
  | '\r' :: _ => false
  | _ :: cs => lineEndsWell cs

/-- The number of characters of blanks and comments at the head of a text. `inComment`
holds inside a comment, which reaches to the end of its line. A comment whose line is
broken by a lone carriage return consists of its mark alone. -/
def triviaLength (inComment : Bool) : List Char → Nat
  | [] => 0
  | '\n' :: cs => triviaLength false cs + 1
  | '/' :: '/' :: cs =>
    if inComment then triviaLength true cs + 2
    else triviaLength (lineEndsWell cs) cs + 2
  | '#' :: cs =>
    if inComment then triviaLength true cs + 1
    else triviaLength (lineEndsWell cs) cs + 1
  | c :: cs =>
    if inComment then triviaLength true cs + 1
    else if isSpace c then triviaLength false cs + 1
    else 0

/-- Skips blanks and comments. -/
def trivia : Parser Unit := fun c => .ok () (c.skip (triviaLength false c.rest))

/-- Reads what `p` reads together with the blanks and comments around it. -/
def padded {α : Type} (p : Parser α) : Parser α := do
  trivia
  let a ← p
  trivia
  return a

/-! ## Characters and runs -/

/-- Reads a certain character. -/
def char (ch : Char) : Parser Char := fun c =>
  match c.rest with
  | d :: _ => if d = ch then .ok ch c.next else .error [⟨c, .character ch⟩]
  | [] => .error [⟨c, .character ch⟩]

/-- Reads the longest run of characters of a class, which may be empty. -/
def runOf (p : Char → Bool) : Parser (List Char) := fun c =>
  let (run, rest) := c.takeWhile p
  .ok run rest

/-- Reads the longest run of characters of a class, which must not be empty. -/
def someOf (p : Char → Bool) (mismatch : Mismatch) : Parser (List Char) := fun c =>
  let (run, rest) := c.takeWhile p
  if run.isEmpty then .error [⟨c, mismatch⟩] else .ok run rest

/-- Reads a character with the blanks and comments around it. -/
def mark (ch : Char) : Parser Char := padded (char ch)

/-! ## Words and strings -/

/-- The letters that can begin a word. -/
def isWordStart (c : Char) : Bool := c == '_' || c.isAlpha

/-- The characters that can continue a word. -/
def isWordPart (c : Char) : Bool := c == '_' || c.isAlphanum

/-- Reads a word: a letter or underscore, then letters, digits and underscores. -/
def identifier : Parser String := do
  let first ← someOf isWordStart .run
  let more ← runOf isWordPart
  return String.ofList (first ++ more)

/-- Reads a fixed text. -/
def literally (word : String) : Parser Unit := fun c =>
  if word.toList.isPrefixOf c.rest then .ok () (c.skip word.length)
  else .error [⟨c, .word⟩]

/-- Requires that no character of a class follows. -/
def notFollowedBy (p : Char → Bool) : Parser Unit := fun c =>
  match c.rest with
  | d :: _ => if p d then .error [⟨c, .follow⟩] else .ok () c
  | [] => .ok () c

/-- Reads a whole word of the language with the blanks and comments around it; gives the
place of the word. -/
def keyword (word : String) : Parser Cursor :=
  padded do
    let start ← position
    literally word
    notFollowedBy isWordPart
    return start

/-- Reads a string in double quotes on one line. There are no escapes. -/
def stringLiteral : Parser String := do
  let _ ← char '"'
  let inner ← runOf fun c => c != '"' && c != '\n' && c != '\r'
  let _ ← labelled "closing quote" (char '"')
  return String.ofList inner

/-! ## Numbers -/

/-- The value of a run of decimal digits. -/
def digitsValue (digits : List Char) : Nat :=
  digits.foldl (fun n d => 10 * n + (d.toNat - '0'.toNat)) 0

/-- Reads an optional sign; holds for a minus sign. -/
def sign : Parser Bool := do
  return (← optional (choice [char '+', char '-'])) = some '-'

def digits : Parser (List Char) := someOf Char.isDigit .digit

/-- Reads the digits before and after the point, of which one may be missing. -/
def mantissa : Parser (List Char × List Char) :=
  choice [
    do
      let whole ← digits
      let fraction ← optional do
        let _ ← char '.'
        runOf Char.isDigit
      return (whole, fraction.getD []),
    do
      let _ ← char '.'
      let fraction ← digits
      return ([], fraction)]

/-- Reads a number with an optional sign, fraction and exponent. An exponent mark commits:
digits have to follow. -/
def numeral : Parser Decimal := do
  let negative ← sign
  let (whole, fraction) ← mantissa
  let power ← optional do
    let _ ← choice [char 'e', char 'E']
    let down ← sign
    let ds ← committed digits
    return if down then -(digitsValue ds : Int) else (digitsValue ds : Int)
  return ⟨negative, digitsValue (whole ++ fraction), power.getD 0 - fraction.length⟩

/-- Reads a number with the blanks and comments around it. -/
def number : Parser Float := padded do
  return (← numeral).toFloat

end PartScript.Grammar
