/-!
# Binary floating point of 64 bits

A magnitude is named by its *rank*, its place in the increasing list of all magnitudes from zero to
infinity, so that comparing magnitudes is comparing natural numbers. Every finite magnitude is a
whole number of `2 ^ -1074`, the least positive one; `Magnitude.units` says how many. Products and
quotients are formed exactly in those units and rounded once, to the nearest magnitude and from the
middle to the even rank.
-/

namespace Rulebook

/-- Quotient rounded to the nearest natural number, from the middle to the even one. -/
def roundDiv (num den : Nat) : Nat :=
  let whole := num / den
  let rest := num % den
  if 2 * rest < den then whole
  else if den < 2 * rest then whole + 1
  else whole + whole % 2

/-- The finite magnitudes form runs of `2 ^ 52` neighbours at equal distances. -/
def runLength : Nat := 0x10000000000000

/-- Rank of infinity: there are 2047 runs of finite magnitudes below it. -/
def infiniteRank : Nat := 2047 * runLength

/-- A magnitude, named by its rank. -/
abbrev Magnitude := Fin (infiniteRank + 1)

namespace Magnitude

def zero : Magnitude := ⟨0, Nat.succ_pos _⟩

def infinity : Magnitude := ⟨infiniteRank, Nat.lt_succ_self _⟩

/-- The number of units of `2 ^ -1074` in one. -/
def unitsPerOne : Nat := Nat.pow 2 1074

/-- The number of units in a magnitude; infinity counts as `2 ^ 1024`. -/
def units (m : Magnitude) : Nat :=
  if m.val < runLength then m.val
  else (runLength + m.val % runLength) * Nat.pow 2 (m.val / runLength - 1)

/-- The rank nearest to `num / den`: the quotient is brought to 53 binary digits, or to whole units
if that is coarser, and what lies beyond the finite magnitudes becomes infinity. -/
def nearestRank (num den : Nat) : Nat :=
  let shift := Nat.log2 (num * unitsPerOne / den) - 52
  min infiniteRank (shift * runLength + roundDiv (num * unitsPerOne) (den * Nat.pow 2 shift))

theorem nearestRank_lt (num den : Nat) : nearestRank num den < infiniteRank + 1 :=
  Nat.lt_succ_of_le (Nat.min_le_left _ _)

/-- The magnitude nearest to `num / den`. -/
def nearest (num den : Nat) : Magnitude := ⟨nearestRank num den, nearestRank_lt num den⟩

/-- The product, rounded once. -/
def times (a b : Magnitude) : Magnitude := nearest (a.units * b.units) (unitsPerOne * unitsPerOne)

/-- The quotient, rounded once. -/
def dividedBy (a b : Magnitude) : Magnitude := nearest a.units b.units

end Magnitude

/-- A floating point number: not a number, or a sign and a magnitude. -/
inductive Binary64 where
  | nan
  | signed (negative : Bool) (magnitude : Magnitude)
deriving DecidableEq, Repr

namespace Binary64

instance : Inhabited Binary64 := ⟨signed false Magnitude.zero⟩

def zero : Binary64 := signed false Magnitude.zero

/-- The nearest number to an integer; zero gets the positive sign. -/
def ofInt (i : Int) : Binary64 := signed (decide (i < 0)) (Magnitude.nearest i.natAbs 1)

/-- Neither infinite nor not a number. -/
def isFinite : Binary64 → Bool
  | nan => false
  | signed _ m => decide (m ≠ Magnitude.infinity)

/-- Place of a number in the order of numbers: the two zeros share a place. -/
def place (negative : Bool) (m : Magnitude) : Int := if negative then -(m.val : Int) else m.val

/-- The order of two numbers; nothing is comparable with what is not a number. -/
def order : Binary64 → Binary64 → Option Ordering
  | signed s m, signed t n => some (compare (place s m) (place t n))
  | _, _ => none

/-- Equality of numbers as numbers: the zeros are equal, and what is not a number differs from all.
-/
def same (a b : Binary64) : Bool := a.order b = some .eq

end Binary64

end Rulebook
