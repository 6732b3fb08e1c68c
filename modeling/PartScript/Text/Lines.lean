/-
  The lines of a text, as a listing shows them.
-/
namespace PartScript.Text

/-- Drops a carriage return at the head. Lines are collected backwards, so the head is the
last character read. -/
def dropReturn : List Char → List Char
  | '\r' :: cs => cs
  | cs => cs

/-- The lines of a text when `seen` (backwards) has been read of the current one. -/
def linesFrom (seen : List Char) : List Char → List (List Char)
  | [] => if seen.isEmpty then [] else [seen.reverse]
  | '\n' :: cs => (dropReturn seen).reverse :: linesFrom [] cs
  | c :: cs => linesFrom (c :: seen) cs

/-- The lines of a text. A line ends at a line feed; a carriage return right before the
line feed is not part of it. Nothing follows the last line feed, and a last line without a
line feed keeps its carriage return. -/
def lines (text : String) : List String :=
  (linesFrom [] text.toList).map String.ofList

end PartScript.Text
