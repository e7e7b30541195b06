import Rulebook.Json.Token

/-!
# JSON values

A JSON value keeps the members of an object in the order in which they were written, repeats
included. `Json.canonical` is the value as a dictionary sees it: the last member of a name counts
and members are sorted by name. `Json.text` is the compact text of a value.
-/

namespace Rulebook

/-- A JSON value. -/
inductive Json where
  | null
  | boolean (b : Bool)
  | number (n : Json.Number)
  | string (s : String)
  | array (items : List Json)
  | object (members : List (String × Json))
deriving Repr, Inhabited

namespace Json

/-! ## Text -/

mutual

/-- The tokens of a value. -/
def tokens : Json → List Token
  | null => [.null]
  | boolean b => [.boolean b]
  | number n => [.number (some n)]
  | string s => [.string (some s)]
  | array items => .openBracket :: (itemTokens true items ++ [.closeBracket])
  | object members => .openBrace :: (memberTokens true members ++ [.closeBrace])

/-- The tokens of array elements; a comma stands before all but the first. -/
def itemTokens (first : Bool) : List Json → List Token
  | [] => []
  | item :: items => (if first then [] else [.comma]) ++ tokens item ++ itemTokens false items

/-- The tokens of object members; a comma stands before all but the first. -/
def memberTokens (first : Bool) : List (String × Json) → List Token
  | [] => []
  | (name, value) :: members =>
    (if first then [] else [.comma]) ++ [.string (some name), .colon] ++ tokens value ++
      memberTokens false members

end

/-- The compact text of a value. -/
def text (j : Json) : List Char := j.tokens.flatMap Token.text

def compact (j : Json) : String := String.ofList j.text

/-! ## Dictionaries -/

/-- Adds a member to members sorted by name, unless they have one of its name. -/
def addMember (name : String) (value : Json) : List (String × Json) → List (String × Json)
  | [] => [(name, value)]
  | (other, kept) :: members =>
    if name < other then (name, value) :: (other, kept) :: members
    else if name = other then (other, kept) :: members
    else (other, kept) :: addMember name value members

mutual

/-- A value whose objects have sorted members, the last one of each name. -/
def canonical : Json → Json
  | array items => array (canonicalItems items)
  | object members => object (canonicalMembers members)
  | scalar => scalar

def canonicalItems : List Json → List Json
  | [] => []
  | item :: items => canonical item :: canonicalItems items

/-- Object members in canonical form: a later member of a name hides an earlier one. -/
def canonicalMembers : List (String × Json) → List (String × Json)
  | [] => []
  | (name, value) :: members => addMember name (canonical value) (canonicalMembers members)

end

/-! ## Nesting -/

mutual

/-- The deepest nesting of arrays and objects in a value. -/
def depth : Json → Nat
  | array items => depthOfItems items + 1
  | object members => depthOfMembers members + 1
  | _ => 0

def depthOfItems : List Json → Nat
  | [] => 0
  | item :: items => max (depth item) (depthOfItems items)

def depthOfMembers : List (String × Json) → Nat
  | [] => 0
  | (_, value) :: members => max (depth value) (depthOfMembers members)

end

end Json

end Rulebook
