/-!
# Nesting of JSON text

The nesting of a text is read off its brackets and braces before anything else is known of the text,
so it is defined for every text. Brackets inside quotation marks do not count, and a closing bracket
with nothing to close has no effect.
-/

namespace Rulebook.Json

/-- Where a scan of brackets stands in a text. -/
inductive Within where
  | outside
  | quotes
  | escape
deriving DecidableEq, Repr

/-- A scan of brackets: how many are open, and how many were open at most. -/
structure Scan where
  within : Within := .outside
  opened : Nat := 0
  deepest : Nat := 0
deriving DecidableEq, Repr

/-- One character of a scan. -/
def Scan.step (s : Scan) (c : Char) : Scan :=
  match s.within with
  | .escape => { s with within := .quotes }
  | .quotes =>
    if c = '\\' then { s with within := .escape }
    else if c = '"' then { s with within := .outside }
    else s
  | .outside =>
    if c = '"' then { s with within := .quotes }
    else if c = '{' ∨ c = '[' then
      { s with opened := s.opened + 1, deepest := max s.deepest (s.opened + 1) }
    else if c = '}' ∨ c = ']' then { s with opened := s.opened - 1 }
    else s

/-- The deepest nesting of the brackets and braces of a text. -/
def nesting (cs : List Char) : Nat := (cs.foldl Scan.step {}).deepest

end Rulebook.Json
