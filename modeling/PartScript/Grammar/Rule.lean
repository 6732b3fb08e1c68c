/-
  The rules that the phrases of the language are built from. Expressions contain each
  other without bound, so every phrase is written over the rules for its parts, which are
  given to it; `Grammar.parse` ties the knot.
-/
import PartScript.Grammar.Lexeme
import PartScript.Model
import PartScript.Registry

namespace PartScript

/-- What a text is read with: the registered feature types and the names bound so far. -/
structure Grammar where
  registry : Registry
  model : Model

namespace Grammar

open Grammar.Parser

/-- The phrases that can contain each other. -/
inductive Rule where
  | scalar
  /-- A signed power, as an operand of `*` and as an exponent. -/
  | scalarUnary
  | vector
  /-- A vector with scalar factors on its left. -/
  | vectorFactor
  /-- A signed vector. -/
  | vectorUnary
  | datum
  | selection
  | feature
deriving DecidableEq, Repr

/-- What a rule reads. -/
def Rule.Value : Rule → Type
  | .scalar => ScalarExpr
  | .scalarUnary => ScalarExpr
  | .vector => VectorExpr
  | .vectorFactor => VectorExpr
  | .vectorUnary => VectorExpr
  | .datum => DatumExpr
  | .selection => SelectionExpr
  | .feature => FeatureRef

/-- A parser for every rule. -/
abbrev Rules := (rule : Rule) → Parser rule.Value

/-! ## The rules by their values -/

def Rules.scalar (ask : Rules) : Parser ScalarExpr := ask .scalar

def Rules.scalarUnary (ask : Rules) : Parser ScalarExpr := ask .scalarUnary

def Rules.vector (ask : Rules) : Parser VectorExpr := ask .vector

def Rules.vectorFactor (ask : Rules) : Parser VectorExpr := ask .vectorFactor

def Rules.vectorUnary (ask : Rules) : Parser VectorExpr := ask .vectorUnary

def Rules.datum (ask : Rules) : Parser DatumExpr := ask .datum

def Rules.selection (ask : Rules) : Parser SelectionExpr := ask .selection

def Rules.feature (ask : Rules) : Parser FeatureRef := ask .feature

/-! ## Names and punctuation -/

/-- Reads a name that is bound to a value of a kind. -/
def symbol (g : Grammar) (kind : SymbolKind) : Parser String := do
  trivia
  let start ← position
  let name ← identifier
  if g.model.kindOf? name = some kind then
    trivia
    return name
  else reject start

/-- Reads a comma, named in messages. -/
def comma : Parser Char := labelled "','" (mark ',')

/-- Reads a closing bracket, named in messages. -/
def closing (bracket : Char) : Parser Char :=
  labelled (String.ofList ['\'', bracket, '\'']) (mark bracket)

/-- Reads two phrases with a comma between them. -/
def pairOf {α : Type} (p : Parser α) : Parser (α × α) := do
  let a ← p
  let _ ← comma
  let b ← p
  return (a, b)

/-- Reads a phrase in parentheses. -/
def parenthesized {α : Type} (p : Parser α) : Parser α := do
  let _ ← mark '('
  let a ← p
  let _ ← closing ')'
  return a

/-- Reads one of two operators. -/
def operator (a b : Char) : Parser Char := choice [mark a, mark b]

end Grammar

end PartScript
