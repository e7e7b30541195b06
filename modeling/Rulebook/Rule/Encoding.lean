import Rulebook.Json.Basic
import Rulebook.Rule.Basic

/-!
# Rules as JSON

A rule is encoded as an object whose first member tells a comparison from a joined rule.
-/

namespace Rulebook

/-- The two kinds of rule, as encoded rules tell them apart. -/
inductive Rule.Tag where
  | join
  | comparison
deriving DecidableEq, Repr

def Rule.Tag.word : Rule.Tag → String
  | join => "operator"
  | comparison => "operand"

def Value.toJson : Value → Json
  | number x => .number (.float x)
  | text s => .string s

def Rule.toJson : Rule → Json
  | comparison c field value => .object [
      ("type", .string Tag.comparison.word),
      ("operator", .string c.symbol),
      ("field", .string field),
      ("value", value.toJson)]
  | join c left right => .object [
      ("type", .string Tag.join.word),
      ("operator", .string c.symbol),
      ("left", left.toJson),
      ("right", right.toJson)]

def Rule.encode (r : Rule) : String := r.toJson.compact

end Rulebook
