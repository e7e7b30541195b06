import Rulebook.Number.Decimal

/-!
# Layouts of numbers

A layout fixes how the shortest digits of a number are set out as text: where positional digits give
way to a power of ten, what follows a whole number, and how the values without digits are spelled.
The library writes numbers in two layouts, one for rule text and one for JSON text.
-/

namespace Rulebook

/-- The choices that turn digits into text. -/
structure Layout where
  /-- Powers of ten of the first digit that are written positionally; `none` stands for all. -/
  positional : Option (Int × Int)
  /-- What follows the digits of a whole number written positionally. -/
  wholeEnding : List Char
  /-- Which of two equally near decimals is written. -/
  tie : Tie
  /-- The spelling of what is not a number. -/
  nan : List Char
  /-- The spellings of the two infinities. -/
  infinity : Bool → List Char

namespace Layout

/-- Numbers in rule text: always positional, whole numbers bare. -/
def rule : Layout where
  positional := none
  wholeEnding := []
  tie := .upward
  nan := "NaN".toList
  infinity negative := if negative then "-inf".toList else "inf".toList

/-- Numbers in JSON text: positional from `1e-5` up to sixteen digits before the point, whole
numbers marked by `.0`; JSON has no spelling for infinities and what is not a number but `null`. -/
def json : Layout where
  positional := some (-5, 15)
  wholeEnding := ".0".toList
  tie := .toEven
  nan := "null".toList
  infinity _ := "null".toList

/-- Does the layout write a number whose first digit counts `10 ^ k` positionally? -/
def isPositional (l : Layout) (k : Int) : Bool :=
  match l.positional with
  | none => true
  | some (least, greatest) => decide (least ≤ k) && decide (k ≤ greatest)

/-- Digits set out around the decimal point, the first one counting `10 ^ k`. -/
def positionalText (l : Layout) (digits : List Char) (k : Int) : List Char :=
  if k < 0 then '0' :: '.' :: (List.replicate (-k - 1).toNat '0' ++ digits)
  else if digits.length ≤ k.toNat + 1 then
    digits ++ List.replicate (k.toNat + 1 - digits.length) '0' ++ l.wholeEnding
  else digits.take (k.toNat + 1) ++ '.' :: digits.drop (k.toNat + 1)

/-- Digits with a power of ten after them. -/
def scientificText (digits : List Char) (k : Int) : List Char :=
  let mantissa := match digits with
    | first :: second :: more => first :: '.' :: second :: more
    | few => few
  let sign := if k < 0 then '-' else '+'
  mantissa ++ 'e' :: sign :: Decimal.digitChars k.natAbs

/-- A positive decimal in a layout. Zeros at the end of its digits are not significant. -/
def decimalText (l : Layout) (d : Decimal) : List Char :=
  let digits := Decimal.digitChars d.digits
  let k := d.exponent + digits.length - 1
  let significant := (digits.reverse.dropWhile (· = '0')).reverse
  if l.isPositional k then l.positionalText significant k else scientificText significant k

def magnitudeText (l : Layout) (m : Magnitude) : List Char :=
  if m = Magnitude.zero then '0' :: l.wholeEnding
  else l.decimalText (Decimal.shortest l.tie m)

/-- A number in a layout. The sign of zero is written. -/
def text (l : Layout) : Binary64 → List Char
  | .nan => l.nan
  | .signed negative m =>
    if m = Magnitude.infinity then l.infinity negative
    else if negative then '-' :: l.magnitudeText m
    else l.magnitudeText m

end Layout

end Rulebook
