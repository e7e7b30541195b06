import Rulebook.Proofs.Number.Order

/-!
# Exact products and quotients

A number of at most 53 binary digits times a power of two is a magnitude itself
(`Magnitude.units_nearest`). Products and quotients of such numbers are rounded only once, so they are
nearest to the exact result (`Magnitude.times_nearest`, `Magnitude.dividedBy_nearest`). All powers of ten
up to `10 ^ 22` are such numbers.
-/

namespace Rulebook.Magnitude

/-! ### Products of a power of two -/

/-- The greatest finite magnitudes are divided by two to the power of this. -/
def greatestShift : Nat := 2045

/-- The number of units of the magnitude that is `k` steps of `2 ^ s` units. -/
theorem units_eq_of_val {m : Magnitude} {s k : Nat} (hm : m.val = s * runLength + k)
    (hlt : k < 2 * runLength) (hk : s = 0 ∨ runLength ≤ k) : m.units = k * 2 ^ s := by
  rcases Nat.lt_or_ge k runLength with hsmall | hlarge
  · obtain rfl : s = 0 := by omega
    rw [Nat.zero_mul, Nat.zero_add] at hm
    rw [units_of_lt (by omega), hm, Nat.pow_zero, Nat.mul_one]
  · have hval : m.val = (k - runLength) + runLength * (s + 1) := by
      rw [hm, Nat.mul_succ, Nat.mul_comm]
      omega
    have hpos : 0 < runLength := by decide
    have hmod : m.val % runLength = k - runLength := by
      rw [hval, Nat.add_mul_mod_self_left, Nat.mod_eq_of_lt (by omega)]
    have hdiv : m.val / runLength = s + 1 := by
      rw [hval, Nat.add_mul_div_left _ _ hpos, Nat.div_eq_of_lt (by omega), Nat.zero_add]
    rw [units_of_le (by rw [hm]; omega), hmod, hdiv, Nat.add_sub_cancel' hlarge, Nat.add_sub_cancel]

/-- A multiple of the power of two by which it is brought to 53 binary digits is counted by a finite
magnitude, as long as it is less than infinity counts. -/
theorem exists_units_eq {n k : Nat} (hk : n = k * 2 ^ shift n) (hn : n < 2 ^ 53 * 2 ^ greatestShift) :
    ∃ m : Magnitude, m ≠ infinity ∧ m.units = n := by
  have hpow := Nat.two_pow_pos (shift n)
  have hklt : k < 2 * runLength := by
    rw [← two_pow_53]
    apply Nat.lt_of_mul_lt_mul_right (a := 2 ^ shift n)
    rw [← hk]
    exact lt_two_pow_shift n
  have hkge : 0 < shift n → runLength ≤ k := by
    intro hs
    rw [runLength_eq]
    apply Nat.le_of_mul_le_mul_right _ hpow
    rw [← hk]
    exact two_pow_shift_le hs
  have hshift : shift n ≤ greatestShift := by
    rcases Nat.eq_zero_or_pos (shift n) with hzero | hs
    · omega
    · exact le_of_two_pow_le (two_pow_shift_le hs) hn
  have hruns := Nat.mul_le_mul_right runLength hshift
  have hlt : shift n * runLength + k < infiniteRank := by
    unfold infiniteRank
    unfold greatestShift at hruns
    omega
  refine ⟨⟨shift n * runLength + k, hlt.trans (Nat.lt_succ_self _)⟩, ?_, ?_⟩
  · intro hm
    exact absurd (congrArg Fin.val hm) hlt.ne
  · rw [units_eq_of_val rfl hklt ((Nat.eq_zero_or_pos _).imp_right hkge), ← hk]

/-- A number of at most 53 binary digits times a power of two is nearest to itself. -/
theorem units_nearest {f e : Nat} (hf : f < 2 ^ 53) (hn : f * 2 ^ e < 2 ^ 53 * 2 ^ greatestShift) :
    (nearest (f * 2 ^ e) unitsPerOne).units = f * 2 ^ e := by
  obtain ⟨k, hk⟩ : ∃ k, f * 2 ^ e = k * 2 ^ shift (f * 2 ^ e) := by
    rcases Nat.eq_zero_or_pos (shift (f * 2 ^ e)) with hzero | hpos
    · exact ⟨f * 2 ^ e, by rw [hzero, Nat.pow_zero, Nat.mul_one]⟩
    · have hse : shift (f * 2 ^ e) ≤ e :=
        le_of_two_pow_le (two_pow_shift_le hpos)
          (Nat.mul_lt_mul_of_pos_right hf (Nat.two_pow_pos e))
      exact ⟨f * 2 ^ (e - shift (f * 2 ^ e)), by
        rw [Nat.mul_assoc, ← Nat.pow_add, Nat.sub_add_cancel hse]⟩
  obtain ⟨m, hm, hunits⟩ := exists_units_eq hk hn
  rw [← hunits, nearest_units hm]

/-! ### Whole numbers -/

/-- A whole number that is a magnitude itself. -/
def IsExact (n : Nat) : Prop := (nearest n 1).units = n * unitsPerOne

theorem isExact_mul_two_pow {f e : Nat} (hf : f < 2 ^ 53) (he : e ≤ 971) : IsExact (f * 2 ^ e) := by
  have hunits : f * 2 ^ e * unitsPerOne = f * 2 ^ (e + unitExponent) := by
    rw [unitsPerOne_eq, Nat.mul_assoc, ← Nat.pow_add]
  have hexp : e + unitExponent ≤ greatestShift := by
    unfold unitExponent greatestShift
    omega
  have hlt : f * 2 ^ (e + unitExponent) < 2 ^ 53 * 2 ^ greatestShift :=
    Nat.mul_lt_mul_of_lt_of_le hf (Nat.pow_le_pow_right (by decide) hexp) (Nat.two_pow_pos _)
  have hone : nearest (f * 2 ^ e) 1 = nearest (f * 2 ^ (e + unitExponent)) unitsPerOne :=
    nearest_congr Nat.one_pos unitsPerOne_pos (by rw [hunits, Nat.mul_one])
  rw [IsExact, hone, units_nearest hf hlt, hunits]

theorem isExact_of_lt {n : Nat} (h : n < 2 ^ 53) : IsExact n := by
  have hexact := isExact_mul_two_pow (e := 0) h (Nat.zero_le _)
  rwa [Nat.pow_zero, Nat.mul_one] at hexact

theorem isExact_ten_pow {k : Nat} (h : k ≤ 22) : IsExact (10 ^ k) := by
  have hfive : 5 ^ k < 2 ^ 53 := (Nat.pow_le_pow_right (by decide) h).trans_lt (by norm_num)
  rw [show 10 ^ k = 5 ^ k * 2 ^ k by rw [← Nat.mul_pow]]
  exact isExact_mul_two_pow hfive (by omega)

theorem times_nearest {a b : Nat} (ha : IsExact a) (hb : IsExact b) :
    (nearest a 1).times (nearest b 1) = nearest (a * b) 1 := by
  have hU := unitsPerOne_pos
  rw [times, ha, hb]
  apply nearest_congr (Nat.mul_pos hU hU) Nat.one_pos
  ring

theorem dividedBy_nearest {a b : Nat} (ha : IsExact a) (hb : IsExact b) (hpos : 0 < b) :
    (nearest a 1).dividedBy (nearest b 1) = nearest a b := by
  rw [dividedBy, ha, hb]
  apply nearest_congr (Nat.mul_pos hpos unitsPerOne_pos) hpos
  ring

end Rulebook.Magnitude
