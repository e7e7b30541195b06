import Rulebook.Number.Numeral
import Rulebook.Number.Layout

/-!
# Numbers in JSON text

A JSON number without point and power of ten is an integer as long as 64 bits hold it; all others
are floating point. The floating point reading is a cheap one: it keeps the digits that fit a
significand of 64 bits and scales that significand by a power of ten, so it may differ from the
nearest number in its last place. A number beyond the finite ones has no value.
-/

namespace Rulebook

inductive Json.Number where
  | integer (i : Int)
  | float (x : Binary64)
deriving DecidableEq, Repr

namespace Json

/-- A JSON number as floating point. -/
def Number.toBinary64 : Number → Binary64
  | integer i => Binary64.ofInt i
  | float x => x

/-- A JSON number as it is written: an integer by its digits, floating point in the JSON layout. -/
def Number.text : Number → List Char
  | integer i => if i < 0 then '-' :: Decimal.digitChars i.natAbs else Decimal.digitChars i.natAbs
  | float x => Layout.json.text x

/-- The parts of a written number. The fraction is empty if there is no point, and the power is
`none` if there is no letter for it. -/
structure Written where
  negative : Bool
  whole : List Char
  fraction : List Char
  power : Option Int
deriving DecidableEq, Repr

namespace Written

/-- The fraction in front of a text: a point and at least one digit, or nothing. -/
def scanFraction? : List Char → Option (List Char × List Char)
  | '.' :: cs =>
    let digits := cs.takeWhile Char.isDigit
    if digits = [] then none else some (digits, cs.dropWhile Char.isDigit)
  | cs => some ([], cs)

/-- The power of ten in front of a text: a letter, an optional sign and at least one digit, or
nothing. -/
def scanPower? : List Char → Option (Option Int × List Char)
  | c :: cs =>
    if c = 'e' ∨ c = 'E' then
      let (negative, unsigned) := Numeral.splitSign cs
      let digits := unsigned.takeWhile Char.isDigit
      let power : Int := Numeral.natOfDigits digits
      if digits = [] then none
      else some (some (if negative then -power else power), unsigned.dropWhile Char.isDigit)
    else some (none, c :: cs)
  | [] => some (none, [])

/-- The minus sign in front of a text, if there is one. -/
def scanMinus : List Char → Bool × List Char
  | '-' :: cs => (true, cs)
  | cs => (false, cs)

/-- The longest number in front of a text, and the rest of the text. Digits before the point do not
start with a zero unless it is the only one. -/
def scan? (cs : List Char) : Option (Written × List Char) :=
  let (negative, unsigned) := scanMinus cs
  let whole := unsigned.takeWhile Char.isDigit
  if whole = [] ∨ (whole.head? = some '0' ∧ whole.length ≠ 1) then none
  else do
    let (fraction, afterFraction) ← scanFraction? (unsigned.dropWhile Char.isDigit)
    let (power, rest) ← scanPower? afterFraction
    return (⟨negative, whole, fraction, power⟩, rest)

/-- The greatest number of 64 bits. -/
def greatest : Nat := 0xFFFFFFFFFFFFFFFF

/-- Appends digits to a significand as long as it fits 64 bits; counts those appended. -/
def absorb : Nat → List Char → Nat × Nat
  | s, [] => (s, 0)
  | s, c :: cs =>
    let longer := 10 * s + Numeral.digitValue c
    if longer ≤ greatest then
      let (t, n) := absorb longer cs
      (t, n + 1)
    else (s, 0)

/-- The power of ten `10 ^ n` as a magnitude. -/
def tenTo (n : Nat) : Magnitude := Magnitude.nearest (Nat.pow 10 n) 1

/-- A magnitude times `10 ^ power`, in rounded steps of at most `10 ^ 308`. Nothing comes of a
result that is not finite. -/
def scale? (m : Magnitude) (power : Int) : (steps : Nat) → Option Magnitude
  | 0 =>
    if power < 0 then some (m.dividedBy (tenTo power.natAbs))
    else
      let scaled := m.times (tenTo power.natAbs)
      if scaled = Magnitude.infinity then none else some scaled
  | steps + 1 =>
    if m = Magnitude.zero then some m
    else if power < 0 then scale? (m.dividedBy (tenTo 308)) (power + 308) steps
    else none

/-- The value of a written number: an integer if it has only digits and 64 bits hold it, signed bits
if it has a minus sign; else floating point, if that is finite. -/
def value? (w : Written) : Option Number :=
  let (s, used) := absorb 0 w.whole
  if w.fraction = [] ∧ w.power = none ∧ used = w.whole.length then
    if w.negative then
      if 0 < s ∧ s ≤ 0x8000000000000000 then some (.integer (-(s : Int)))
      else some (.float (.signed true (Magnitude.nearest s 1)))
    else some (.integer s)
  else
    let (t, usedFraction) := absorb s w.fraction
    let power : Int := w.power.getD 0 + (w.whole.length - used : Nat) - usedFraction
    (scale? (Magnitude.nearest t 1) power ((power.natAbs - 1) / 308)).map
      fun m => .float (.signed w.negative m)

end Written

end Json

end Rulebook
