import Rulebook.Number.Binary64

/-!
# Rules

A rule is a comparison of a named field with a value, or two rules joined by a connective.
-/

namespace Rulebook

inductive Connective where
  | and
  | or
deriving DecidableEq, Repr

/-- How a field is compared with a value. -/
inductive Comparison where
  | greater
  | less
  | equal
  | atLeast
  | atMost
deriving DecidableEq, Repr

/-- What a field holds and what it is compared with. -/
inductive Value where
  | number (x : Binary64)
  | text (s : String)
deriving DecidableEq, Repr

inductive Rule where
  | comparison (comparison : Comparison) (field : String) (value : Value)
  | join (connective : Connective) (left right : Rule)
deriving DecidableEq, Repr

namespace Connective

def symbol : Connective → String
  | and => "AND"
  | or => "OR"

/-- The connectives, in the order in which messages list them. -/
def all : List Connective := [and, or]

def ofSymbol? (s : String) : Option Connective := all.find? fun c => c.symbol = s

/-- The truth of two joined rules. -/
def apply : Connective → Bool → Bool → Bool
  | and => (· && ·)
  | or => (· || ·)

end Connective

namespace Comparison

def symbol : Comparison → String
  | greater => ">"
  | less => "<"
  | equal => "="
  | atLeast => ">="
  | atMost => "<="

/-- The comparisons, in the order in which messages list them. -/
def all : List Comparison := [greater, less, equal, atLeast, atMost]

def ofSymbol? (s : String) : Option Comparison := all.find? fun c => c.symbol = s

end Comparison

/-- Equality of values as the data sees it: numbers are equal as numbers. -/
def Value.same : Value → Value → Bool
  | number x, number y => x.same y
  | text s, text t => s = t
  | _, _ => false

namespace Rule

def count : Rule → Nat
  | comparison .. => 1
  | join _ left right => left.count + right.count

/-- The number of levels of a rule; a comparison is one level. -/
def depth : Rule → Nat
  | comparison .. => 1
  | join _ left right => max left.depth right.depth + 1

/-- Equality of rules up to equality of the numbers in them. -/
def same : Rule → Rule → Bool
  | comparison c f v, comparison d g w => c = d && f = g && v.same w
  | join c a b, join d e f => c = d && a.same e && b.same f
  | _, _ => false

end Rule

end Rulebook
