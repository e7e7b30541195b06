import Rulebook.Fault

/-!
# The conjunction of rules

Several rules are joined into one that holds where all of them hold, from the left and in their
order.
-/

namespace Rulebook.Rule

def conjunction : List Rule → Except Fault Rule
  | [] => .error .nothingToJoin
  | first :: rules => .ok (rules.foldl (join .and) first)

def totalCount : List Rule → Nat
  | [] => 0
  | rule :: rules => rule.count + totalCount rules

/-- The conjunction of some rules that hold at most so many comparisons together. -/
def conjunctionWithin (limit : Nat) (rules : List Rule) : Except Fault Rule :=
  if limit < totalCount rules then .error (.tooManyTerms (totalCount rules) limit)
  else conjunction rules

end Rulebook.Rule
