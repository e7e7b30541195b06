import Mathlib.Tactic.Ring
import Mathlib.Tactic.NormNum
import Rulebook.Number.Decimal

/-!
# Rounding to the nearest magnitude

Rounding looks at a quotient and not at how it is written (`Magnitude.nearest_congr`), and a
magnitude is nearest to itself (`Magnitude.nearest_units`). The shortcuts for very large and very
small decimals agree with rounding, so reading a decimal is rounding its value (`Decimal.nearest_eq`).
-/

namespace Rulebook

theorem roundDiv_mul {k : Nat} (hk : 0 < k) (num den : Nat) :
    roundDiv (k * num) (k * den) = roundDiv num den := by
  have hl : 2 * (k * (num % den)) < k * den ↔ 2 * (num % den) < den := by
    rw [Nat.mul_left_comm]
    exact Nat.mul_lt_mul_left hk
  have hg : k * den < 2 * (k * (num % den)) ↔ den < 2 * (num % den) := by
    rw [Nat.mul_left_comm 2]
    exact Nat.mul_lt_mul_left hk
  simp only [roundDiv, Nat.mul_div_mul_left _ _ hk, Nat.mul_mod_mul_left, hl, hg]

theorem roundDiv_exact {den : Nat} (hd : 0 < den) (n : Nat) : roundDiv (n * den) den = n := by
  simp [roundDiv, Nat.mul_div_cancel n hd, hd]

namespace Magnitude

/-- The least positive magnitude is two to the power of minus this. -/
def unitExponent : Nat := 1074

theorem unitsPerOne_eq : unitsPerOne = 2 ^ unitExponent := by
  unfold unitsPerOne unitExponent
  generalize 1074 = k
  rfl

theorem unitsPerOne_pos : 0 < unitsPerOne := by
  rw [unitsPerOne_eq]
  exact Nat.two_pow_pos _

theorem nearestRank_of_shift {num den e : Nat}
    (h : Nat.log2 (num * unitsPerOne / den) - 52 = e) :
    nearestRank num den =
      min infiniteRank (e * runLength + roundDiv (num * unitsPerOne) (den * 2 ^ e)) := by
  subst h
  rfl

theorem nearestRank_mul {k : Nat} (hk : 0 < k) (num den : Nat) :
    nearestRank (k * num) (k * den) = nearestRank num den := by
  have hq : k * num * unitsPerOne / (k * den) = num * unitsPerOne / den := by
    rw [Nat.mul_assoc, Nat.mul_div_mul_left _ _ hk]
  rw [nearestRank_of_shift (congrArg (Nat.log2 · - 52) hq), nearestRank_of_shift rfl,
    Nat.mul_assoc, Nat.mul_assoc, roundDiv_mul hk]

theorem nearest_congr {a b c d : Nat} (hb : 0 < b) (hd : 0 < d) (h : a * d = c * b) :
    nearest a b = nearest c d := by
  apply Fin.ext
  show nearestRank a b = nearestRank c d
  calc nearestRank a b
      = nearestRank (d * a) (d * b) := (nearestRank_mul hd a b).symm
    _ = nearestRank (b * c) (b * d) := by rw [Nat.mul_comm d a, h, Nat.mul_comm c b, Nat.mul_comm d b]
    _ = nearestRank c d := nearestRank_mul hb c d

/-! ### Magnitudes are nearest to themselves -/

theorem units_of_lt {m : Magnitude} (h : m.val < runLength) : m.units = m.val := if_pos h

theorem units_of_le {m : Magnitude} (h : runLength ≤ m.val) :
    m.units = (runLength + m.val % runLength) * 2 ^ (m.val / runLength - 1) :=
  if_neg (Nat.not_lt.2 h)

theorem runLength_eq : runLength = 2 ^ 52 := rfl

theorem two_pow_53 : 2 ^ 53 = 2 * runLength := by norm_num [runLength]

theorem log2_mul_two_pow {f e : Nat} (hl : 2 ^ 52 ≤ f) (hu : f < 2 ^ 53) :
    Nat.log2 (f * 2 ^ e) = 52 + e := by
  have hpos : f * 2 ^ e ≠ 0 := by positivity
  rw [Nat.log2_eq_iff hpos]
  constructor
  · rw [Nat.pow_add]
    exact Nat.mul_le_mul_right _ hl
  · rw [show 52 + e + 1 = 53 + e by omega, Nat.pow_add]
    exact Nat.mul_lt_mul_of_pos_right hu (by positivity)

theorem val_lt_of_ne {m : Magnitude} (h : m ≠ infinity) : m.val < infiniteRank := by
  have hm : m.val ≤ infiniteRank := Nat.le_of_lt_succ m.isLt
  have hne : m.val ≠ infiniteRank := fun he => h (Fin.ext he)
  omega

theorem log2_lt_of_lt {n : Nat} (h : n < runLength) : n.log2 < 52 := by
  by_cases hn : n = 0
  · subst hn
    decide
  · exact (Nat.log2_lt hn).2 h

/-- A finite magnitude is the nearest one to its own value. -/
theorem nearest_units {m : Magnitude} (h : m ≠ infinity) : nearest m.units unitsPerOne = m := by
  have hU := unitsPerOne_pos
  have hm := val_lt_of_ne h
  have hpos : 0 < runLength := by decide
  apply Fin.ext
  show nearestRank m.units unitsPerOne = m.val
  have hquot : m.units * unitsPerOne / unitsPerOne = m.units := Nat.mul_div_cancel _ hU
  -- below the first full run a magnitude counts units; in run `e` it counts steps of `2 ^ e` units
  by_cases hr : m.val < runLength
  · have hlog := log2_lt_of_lt hr
    have hshift : Nat.log2 (m.units * unitsPerOne / unitsPerOne) - 52 = 0 := by
      rw [hquot, units_of_lt hr]
      omega
    rw [nearestRank_of_shift hshift, Nat.pow_zero, Nat.mul_one, roundDiv_exact hU, units_of_lt hr]
    omega
  · have hr : runLength ≤ m.val := Nat.not_lt.1 hr
    have hmod : m.val % runLength < runLength := Nat.mod_lt _ hpos
    have hdiv : 1 ≤ m.val / runLength := (Nat.one_le_div_iff hpos).2 hr
    have hsplit := Nat.div_add_mod m.val runLength
    obtain ⟨e, he⟩ : ∃ e, m.val / runLength = e + 1 := ⟨m.val / runLength - 1, by omega⟩
    have hunits : m.units = (runLength + m.val % runLength) * 2 ^ e := by
      rw [units_of_le hr, he, Nat.add_sub_cancel]
    have hshift : Nat.log2 (m.units * unitsPerOne / unitsPerOne) - 52 = e := by
      rw [hquot, hunits, log2_mul_two_pow (by rw [← runLength_eq]; omega)
        (by rw [two_pow_53]; omega)]
      omega
    rw [nearestRank_of_shift hshift, hunits, Nat.mul_assoc, Nat.mul_comm (2 ^ e),
      roundDiv_exact (Nat.mul_pos hU (Nat.two_pow_pos e))]
    have hrank : e * runLength + (runLength + m.val % runLength) = m.val := by
      rw [he, Nat.mul_succ, Nat.mul_comm] at hsplit
      rw [← Nat.add_assoc]
      exact hsplit
    rw [hrank]
    exact Nat.min_eq_right hm.le

/-! ### Very small and very large quotients -/

theorem nearest_eq_zero {num den : Nat} (h : 2 * (num * unitsPerOne) < den) :
    nearest num den = zero := by
  apply Fin.ext
  show nearestRank num den = 0
  have hdiv : num * unitsPerOne / den = 0 := Nat.div_eq_of_lt (by omega)
  have hmod : num * unitsPerOne % den = num * unitsPerOne := Nat.mod_eq_of_lt (by omega)
  have hshift : Nat.log2 (num * unitsPerOne / den) - 52 = 0 := by
    rw [hdiv]
    decide
  rw [nearestRank_of_shift hshift, Nat.pow_zero, Nat.mul_one]
  simp [roundDiv, hdiv, hmod, h]

theorem nearest_eq_infinity {num k : Nat} (hk : 1025 ≤ k) (h : 2 ^ k ≤ num) :
    nearest num 1 = infinity := by
  apply Fin.ext
  have hle : 2 ^ (k + unitExponent) ≤ num * unitsPerOne := by
    rw [Nat.pow_add, unitsPerOne_eq]
    exact Nat.mul_le_mul_right _ h
  have hne : num * unitsPerOne ≠ 0 := by
    have := Nat.two_pow_pos (k + unitExponent)
    omega
  have hlog : k + unitExponent ≤ (num * unitsPerOne).log2 := (Nat.le_log2 hne).2 hle
  have hexp : unitExponent = 1074 := rfl
  show nearestRank num 1 = infiniteRank
  rw [nearestRank_of_shift rfl, Nat.div_one]
  apply Nat.min_eq_left
  have hshift : 2047 * runLength ≤ ((num * unitsPerOne).log2 - 52) * runLength :=
    Nat.mul_le_mul_right _ (by omega)
  exact Nat.le_add_right_of_le hshift

end Magnitude

/-! ### Decimals -/

namespace Decimal

/-- A decimal is the quotient of `num` and `den`. -/
def num (d : Decimal) : Nat := d.digits * 10 ^ d.exponent.toNat

def den (d : Decimal) : Nat := 10 ^ (-d.exponent).toNat

theorem den_pos (d : Decimal) : 0 < d.den := Nat.pow_pos (by decide)

theorem two_pow_le_ten_pow (n : Nat) : 2 ^ (3 * n) ≤ 10 ^ n := by
  rw [Nat.pow_mul]
  exact Nat.pow_le_pow_left (by decide) n

/-- The powers of two and ten that settle which powers of ten are beyond the finite magnitudes. -/
theorem two_pow_le_ten_pow_of_split (q m : Nat) : 2 ^ (205 * q + m) ≤ 10 ^ (62 * q + m) := by
  have hbase : 2 ^ 205 ≤ 10 ^ 62 := by norm_num
  rw [Nat.pow_add, Nat.pow_mul, Nat.pow_add, Nat.pow_mul]
  exact Nat.mul_le_mul (Nat.pow_le_pow_left hbase q) (Nat.pow_le_pow_left (by decide) m)

theorem two_pow_le_ten_pow_of_le {n : Nat} (h : 310 ≤ n) : ∃ k, 1025 ≤ k ∧ 2 ^ k ≤ 10 ^ n := by
  obtain ⟨m, rfl⟩ : ∃ m, n = 62 * 5 + m := ⟨n - 310, by omega⟩
  exact ⟨205 * 5 + m, by omega, two_pow_le_ten_pow_of_split 5 m⟩

theorem small_lt_ten_pow {digits k : Nat} (hd : digits ≠ 0) (h : digits.log2 + 400 < k) :
    2 * (digits * Magnitude.unitsPerOne) < 10 ^ k := by
  have hlt : digits < 2 ^ (digits.log2 + 1) := (Nat.log2_lt hd).1 (Nat.lt_succ_self _)
  have hexp : Magnitude.unitExponent = 1074 := rfl
  calc 2 * (digits * Magnitude.unitsPerOne)
      < 2 * (2 ^ (digits.log2 + 1) * Magnitude.unitsPerOne) :=
        Nat.mul_lt_mul_of_pos_left
          (Nat.mul_lt_mul_of_pos_right hlt Magnitude.unitsPerOne_pos) (by decide)
    _ = 2 ^ (1 + (digits.log2 + 1 + Magnitude.unitExponent)) := by
        rw [Magnitude.unitsPerOne_eq, Nat.pow_add 2 1, Nat.pow_add 2 (digits.log2 + 1), Nat.pow_one]
    _ ≤ 2 ^ (3 * k) := Nat.pow_le_pow_right (by decide) (by omega)
    _ ≤ 10 ^ k := two_pow_le_ten_pow k

/-- Reading a decimal is rounding its value. -/
theorem nearest_eq (d : Decimal) : d.nearest = Magnitude.nearest d.num d.den := by
  obtain ⟨digits, exponent⟩ := d
  simp only [nearest, num, den]
  split_ifs with hzero hsign hlarge hsmall
  · subst hzero
    rw [Nat.zero_mul, Magnitude.nearest_eq_zero]
    rw [Nat.zero_mul]
    exact Nat.pow_pos (by decide)
  · obtain ⟨k, hk, hpow⟩ := two_pow_le_ten_pow_of_le (n := exponent.toNat) (by omega)
    rw [show (-exponent).toNat = 0 by omega, Nat.pow_zero, Magnitude.nearest_eq_infinity hk]
    exact hpow.trans (Nat.le_mul_of_pos_left _ (Nat.pos_of_ne_zero hzero))
  · rw [show (-exponent).toNat = 0 by omega]
    rfl
  · rw [show exponent.toNat = 0 by omega, Nat.pow_zero, Nat.mul_one, Magnitude.nearest_eq_zero]
    exact small_lt_ten_pow hzero (by omega)
  · rw [show exponent.toNat = 0 by omega, Nat.pow_zero, Nat.mul_one]
    rfl

theorem nearest_congr {d e : Decimal} (h : d.num * e.den = e.num * d.den) :
    d.nearest = e.nearest := by
  rw [nearest_eq, nearest_eq]
  exact Magnitude.nearest_congr d.den_pos e.den_pos h

theorem num_exact (m : Magnitude) : (exact m).num = m.units * 5 ^ Magnitude.unitExponent := by
  have hexp : (exact m).exponent.toNat = 0 := rfl
  rw [num, hexp, Nat.pow_zero, Nat.mul_one]
  unfold exact Magnitude.unitExponent
  generalize 1074 = k
  rfl

theorem den_exact (m : Magnitude) : (exact m).den = 10 ^ Magnitude.unitExponent := by
  have hexp : (-(exact m).exponent).toNat = Magnitude.unitExponent := rfl
  rw [den, hexp]

theorem nearest_exact {m : Magnitude} (h : m ≠ Magnitude.infinity) : (exact m).nearest = m := by
  have hvalue : (exact m).num * Magnitude.unitsPerOne = m.units * (exact m).den := by
    rw [num_exact, den_exact, Magnitude.unitsPerOne_eq, Nat.mul_assoc, ← Nat.mul_pow]
  rw [nearest_eq, Magnitude.nearest_congr (exact m).den_pos Magnitude.unitsPerOne_pos hvalue]
  exact Magnitude.nearest_units h

theorem nearest_shortest (tie : Tie) {m : Magnitude} (h : m ≠ Magnitude.infinity) :
    (shortest tie m).nearest = m := by
  unfold shortest
  simp only
  cases hf : List.find? (fun d : Decimal => d.nearest = m) _ with
  | none => exact nearest_exact h
  | some d => simpa using List.find?_some hf

end Decimal

end Rulebook
