/-!
# Limits

How large a rule text may be, and how strictly its parentheses are read.
-/

namespace Rulebook

/-- The deepest nesting of JSON text that a rule is read from. -/
def greatestDepth : Nat := 1024

/-- What a rule text may hold. -/
structure Limits where
  /-- How many parentheses may be open at once. -/
  depth : Nat := 64
  /-- How many comparisons a rule may hold. -/
  terms : Nat := 256
  /-- Takes any character, or the end of the text, for the closing parenthesis of a group. -/
  lenient : Bool := false
deriving DecidableEq, Repr, Inhabited

end Rulebook
