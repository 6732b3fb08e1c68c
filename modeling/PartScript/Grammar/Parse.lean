/-
  The grammar as a whole: every rule over the rules for its parts, and these over theirs.
  A rule asks for another one only after it has read something, so a depth of one more
  than the number of characters left is never used up.
-/
import PartScript.Grammar.Value

namespace PartScript.Grammar

/-- Every rule, over the rules for its parts. -/
def ruleOver (g : Grammar) (ask : Rules) : Rules
  | .scalar => scalarOver g ask
  | .scalarUnary => scalarUnaryOver g ask
  | .vector => vectorOver g ask
  | .vectorFactor => vectorFactorOver g ask
  | .vectorUnary => vectorUnaryOver g ask
  | .datum => datumOver g ask
  | .selection => selectionOver g ask
  | .feature => featureOver g ask

/-- Every rule, for phrases nested less than `depth` deep. A phrase nested deeper fails
without naming a place. -/
def within (g : Grammar) : (depth : Nat) → Rules
  | 0, _, _ => .failure [] none
  | depth + 1, rule, c => ruleOver g (within g depth) rule c

/-- Every rule of the grammar. -/
def parse (g : Grammar) : Rules := fun rule c => within g (c.rest.length + 1) rule c

end PartScript.Grammar
