import Rulebook.Fault
import Rulebook.Table

/-!
# Facts

Facts say what each of some named fields holds. They are what a rule is judged by. Facts read from
JSON keep the members that hold strings and numbers; a member that holds anything else hides earlier
members of its name all the same.
-/

namespace Rulebook

/-- What named fields hold. -/
abbrev Facts := Table String Value

/-- What a JSON value says about a field, if it says anything that a rule can use. -/
def Value.ofJson? : Json → Option Value
  | .number n => some (.number n.toBinary64)
  | .string s => some (.text s)
  | _ => none

namespace Facts

/-- The facts that the members of an object state, each of the members having a name of its own. -/
def ofMembers (members : List (String × Json)) : Facts :=
  Table.ofPairs (members.filterMap fun (name, j) => (Value.ofJson? j).map (name, ·))

/-- The facts that a JSON value states, if it is an object. -/
def ofJson (j : Json) : Except Fault Facts :=
  match j.canonical with
  | .object members => .ok (ofMembers members)
  | _ => .error (.notAnObject j)

def parse (text : String) : Except Fault Facts := do ofJson (← Json.parse text)

/-- Equality of facts: the same fields hold equal values. -/
def same (a b : Facts) : Bool :=
  a.size = b.size && a.pairs.all fun (field, v) => (b.find? field).any v.same

end Facts

end Rulebook
