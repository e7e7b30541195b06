/-!
# Hexadecimal digits

The digits of the base sixteen, with letters of either case.
-/

namespace Rulebook.Hexadecimal

def digit? (c : Char) : Option Nat :=
  if c.isDigit then some (c.toNat - '0'.toNat)
  else if 'a' ≤ c ∧ c ≤ 'f' then some (c.toNat - 'a'.toNat + 10)
  else if 'A' ≤ c ∧ c ≤ 'F' then some (c.toNat - 'A'.toNat + 10)
  else none

/-- The number that hexadecimal digits spell, the first one counting most. -/
def read? (cs : List Char) : Option Nat :=
  (cs.mapM digit?).map fun values => values.foldl (fun n d => 16 * n + d) 0

end Rulebook.Hexadecimal
