import Rulebook.Number.Decimal

/-!
# Numerals

A numeral is an optional sign and either a name of a value without digits or decimal digits with an
optional point and an optional power of ten. `Numeral.read?` gives the number nearest to what the
numeral says; a numeral beyond the finite numbers reads as infinity.
-/

namespace Rulebook

namespace Numeral

def digitValue (c : Char) : Nat := c.toNat - '0'.toNat

/-- The number that a run of digits spells. -/
def natOfDigits (cs : List Char) : Nat := cs.foldl (fun n c => 10 * n + digitValue c) 0

/-- The number that the digits of a power of ten spell. It stops growing once it has reached
`65536`, which is far beyond the powers of the finite numbers. -/
def powerOfDigits (cs : List Char) : Nat :=
  cs.foldl (fun n c => if n < 65536 then 10 * n + digitValue c else n) 0

/-- An optional sign in front, and what follows it. -/
def splitSign : List Char → Bool × List Char
  | '-' :: cs => (true, cs)
  | '+' :: cs => (false, cs)
  | cs => (false, cs)

/-- The power of ten at the end of a numeral: nothing, or a letter, an optional sign and digits up
to the end of the text. -/
def power? : List Char → Option Int
  | [] => some 0
  | c :: cs =>
    if c = 'e' ∨ c = 'E' then
      let (negative, digits) := splitSign cs
      if digits ≠ [] ∧ digits.all Char.isDigit then
        some (if negative then -(powerOfDigits digits : Int) else powerOfDigits digits)
      else none
    else none

/-- The digits after an optional point, and what follows them. -/
def splitFraction : List Char → List Char × List Char
  | '.' :: cs => (cs.takeWhile Char.isDigit, cs.dropWhile Char.isDigit)
  | cs => ([], cs)

/-- Digits with an optional point and an optional power of ten. At least one digit stands before or
after the point. -/
def decimal? (cs : List Char) : Option Decimal :=
  let whole := cs.takeWhile Char.isDigit
  let (fraction, afterFraction) := splitFraction (cs.dropWhile Char.isDigit)
  if whole = [] ∧ fraction = [] then none
  else (power? afterFraction).map fun power =>
    ⟨natOfDigits (whole ++ fraction), power - fraction.length⟩

/-- The names of the values without digits, in letters of either case. -/
def named? (negative : Bool) (cs : List Char) : Option Binary64 :=
  let word := String.ofList (cs.map Char.toLower)
  if word = "inf" ∨ word = "infinity" then some (.signed negative Magnitude.infinity)
  else if word = "nan" then some .nan
  else none

/-- The number that a text spells, if it is a numeral from its first to its last character. -/
def read? (cs : List Char) : Option Binary64 :=
  let (negative, unsigned) := splitSign cs
  match decimal? unsigned with
  | some d => some (.signed negative d.nearest)
  | none => named? negative unsigned

end Numeral

end Rulebook
