import Rulebook.Rule.Basic
import Rulebook.Number.Layout

/-!
# The text of a rule

Connectives bind to the left, so the text of a rule needs parentheses only around a joined rule on
the right of a connective.
-/

namespace Rulebook

/-- The text of a value: a number by its digits, a text between apostrophes. -/
def Value.chars : Value → List Char
  | number x => Layout.rule.text x
  | text s => '\'' :: (s.toList ++ ['\''])

def Rule.chars : Rule → List Char
  | comparison c field value =>
    field.toList ++ ' ' :: (c.symbol.toList ++ ' ' :: value.chars)
  | join c left right@(join ..) =>
    left.chars ++ ' ' :: (c.symbol.toList ++ ' ' :: '(' :: (right.chars ++ [')']))
  | join c left right => left.chars ++ ' ' :: (c.symbol.toList ++ ' ' :: right.chars)

def Rule.text (r : Rule) : String := String.ofList r.chars

end Rulebook
