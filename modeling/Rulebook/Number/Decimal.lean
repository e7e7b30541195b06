import Rulebook.Number.Binary64

/-!
# Decimals and the fewest digits that read back

A decimal is a whole number of some power of ten. `Decimal.nearest` reads one as the nearest
magnitude. `Decimal.shortest` goes the other way: of all decimals that read back as a magnitude it
takes one with the fewest digits, and of those the one nearest to the magnitude.
-/

namespace Rulebook

/-- The number `digits * 10 ^ exponent`. -/
structure Decimal where
  digits : Nat
  exponent : Int
deriving DecidableEq, Repr

/-- Which of two equally near decimals is written. -/
inductive Tie where
  | upward
  | toEven
deriving DecidableEq, Repr

namespace Decimal

/-- The magnitude nearest to a decimal. A decimal of `10 ^ 310` or more is infinite and one below
`10 ^ -399` is zero, so no power beyond those is formed. -/
def nearest (d : Decimal) : Magnitude :=
  if d.digits = 0 then Magnitude.zero
  else if 0 ≤ d.exponent then
    if 310 ≤ d.exponent then Magnitude.infinity
    else Magnitude.nearest (d.digits * Nat.pow 10 d.exponent.toNat) 1
  else if (d.digits.log2 + 400 : Int) < -d.exponent then Magnitude.zero
  else Magnitude.nearest d.digits (Nat.pow 10 (-d.exponent).toNat)

/-- The decimal digits of a natural number, most significant first; zero has one digit. -/
def digitChars (n : Nat) : List Char := Nat.toDigits 10 n

/-- The exponent `k` with `10 ^ k ≤ num / den < 10 ^ (k + 1)`, for positive `num` and `den`. -/
def leadingExponent (num den : Nat) : Int :=
  if den ≤ num then (digitChars (num / den)).length - 1
  else -((digitChars ((den - 1) / num)).length : Int)

/-- The one or two neighbours of `num / den` among the whole numbers, the nearer one first. -/
def neighbours (tie : Tie) (num den : Nat) : List Nat :=
  let below := num / den
  let rest := num % den
  if rest = 0 then [below]
  else if 2 * rest < den then [below, below + 1]
  else if den < 2 * rest then [below + 1, below]
  else if tie = .toEven && below % 2 = 0 then [below, below + 1]
  else [below + 1, below]

/-- The neighbours of a magnitude among the multiples of `10 ^ exponent`, the nearer one first. -/
def neighboursOnGrid (tie : Tie) (m : Magnitude) (exponent : Int) : List Decimal :=
  let near :=
    if 0 ≤ exponent then
      neighbours tie m.units (Magnitude.unitsPerOne * Nat.pow 10 exponent.toNat)
    else neighbours tie (m.units * Nat.pow 10 (-exponent).toNat) Magnitude.unitsPerOne
  near.map (⟨·, exponent⟩)

/-- The exact value of a finite magnitude. -/
def exact (m : Magnitude) : Decimal := ⟨m.units * Nat.pow 5 1074, -1074⟩

/-- The decimal with the fewest digits that reads back as a finite positive magnitude, and of those
with as few the one nearest to it. Seventeen digits always suffice. -/
def shortest (tie : Tie) (m : Magnitude) : Decimal :=
  let k := leadingExponent m.units Magnitude.unitsPerOne
  let grids := (List.range 17).map fun (n : Nat) => neighboursOnGrid tie m (k - n)
  (grids.flatten.find? fun d => d.nearest = m).getD (exact m)

end Decimal

end Rulebook
