import Rulebook.Proofs.Number.Exact

/-!
# Finite magnitudes

Rounding leads to infinity only from quotients that are larger than every finite magnitude. Numbers of
64 bits are far from it, and dividing by one or more does not lead away from the finite magnitudes.
-/

namespace Rulebook.Magnitude

theorem units_infinity : infinity.units = 2 ^ 53 * 2 ^ greatestShift := by
  have hmod : infinity.val % runLength = 0 := by decide
  have hdiv : infinity.val / runLength - 1 = greatestShift + 1 := by decide
  rw [units_of_le (by decide), hmod, hdiv, Nat.add_zero, two_pow_53, Nat.pow_succ']
  ring

theorem unitsPerOne_lt_units_infinity : 2 ^ 64 * unitsPerOne < infinity.units := by
  rw [units_infinity, unitsPerOne_eq, ← Nat.pow_add, ← Nat.pow_add]
  exact Nat.pow_lt_pow_right (by decide) (by decide)

theorem ne_infinity_of_le {m n : Magnitude} (h : m ≤ n) (hn : n ≠ infinity) : m ≠ infinity := by
  rintro rfl
  exact hn (le_antisymm (Fin.le_last n) h)

theorem nearest_ne_infinity {n : Nat} (h : n ≤ 2 ^ 64) : nearest n 1 ≠ infinity := by
  have hexact : IsExact (1 * 2 ^ 64) := isExact_mul_two_pow (by decide) (by decide)
  refine ne_infinity_of_le (nearest_mono Nat.one_pos Nat.one_pos (Nat.mul_le_mul_right 1 h)) ?_
  intro hinfinity
  rw [IsExact, Nat.one_mul, hinfinity] at hexact
  exact unitsPerOne_lt_units_infinity.ne' hexact

/-- Whatever is not less than one counts at least as many units. -/
theorem unitsPerOne_le_units {m : Magnitude} (h : nearest 1 1 ≤ m) : unitsPerOne ≤ m.units := by
  by_cases hm : m = infinity
  · rw [hm]
    exact (Nat.le_mul_of_pos_left _ (by decide)).trans unitsPerOne_lt_units_infinity.le
  · by_contra hlt
    have hone : (nearest 1 1).units = 1 * unitsPerOne := isExact_of_lt (by decide)
    have hle : nearest m.units unitsPerOne ≤ nearest 1 1 := by
      apply nearest_mono unitsPerOne_pos Nat.one_pos
      omega
    rw [nearest_units hm] at hle
    rw [le_antisymm h hle] at hone
    omega

/-- A quotient by one or more is no greater than what is divided. -/
theorem dividedBy_ne_infinity {a b : Magnitude} (ha : a ≠ infinity) (hb : unitsPerOne ≤ b.units) :
    a.dividedBy b ≠ infinity := by
  have hpos := unitsPerOne_pos
  have hle : nearest a.units b.units ≤ nearest a.units unitsPerOne :=
    nearest_mono (hpos.trans_le hb) hpos (Nat.mul_le_mul_left _ hb)
  rw [nearest_units ha] at hle
  exact ne_infinity_of_le hle ha

end Rulebook.Magnitude
