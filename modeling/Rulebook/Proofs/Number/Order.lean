import Mathlib.Algebra.Order.Field.Basic
import Mathlib.Data.Rat.Cast.Order
import Mathlib.Tactic.FieldSimp
import Mathlib.Tactic.Positivity
import Rulebook.Proofs.Number.Rounding

/-!
# Rounding and the order of numbers

Rounding keeps the order: of two quotients the greater one has no smaller nearest magnitude
(`Magnitude.nearest_mono`). So whatever lies between two decimals that read as one magnitude reads as
that magnitude too (`Decimal.nearest_of_between`).
-/

namespace Rulebook

/-! ### Rounded quotients -/

theorem div_le_roundDiv (num den : Nat) : num / den ≤ roundDiv num den := by
  simp only [roundDiv]
  split_ifs <;> omega

theorem roundDiv_le_succ (num den : Nat) : roundDiv num den ≤ num / den + 1 := by
  simp only [roundDiv]
  split_ifs <;> omega

theorem roundDiv_mono {a b den : Nat} (h : a ≤ b) : roundDiv a den ≤ roundDiv b den := by
  rcases Nat.lt_or_ge (a / den) (b / den) with hlt | hge
  · exact (roundDiv_le_succ a den).trans (hlt.trans_le (div_le_roundDiv b den))
  · have hquot : a / den = b / den := Nat.le_antisymm (Nat.div_le_div_right h) hge
    have hrest : a % den ≤ b % den := by
      have ha := Nat.div_add_mod a den
      have hb := Nat.div_add_mod b den
      rw [hquot] at ha
      omega
    simp only [roundDiv, hquot]
    split_ifs <;> omega

theorem roundDiv_le {num den n : Nat} (hd : 0 < den) (h : num ≤ n * den) : roundDiv num den ≤ n :=
  (roundDiv_mono h).trans_eq (roundDiv_exact hd n)

theorem le_roundDiv {num den n : Nat} (hd : 0 < den) (h : n * den ≤ num) : n ≤ roundDiv num den :=
  (roundDiv_exact hd n).symm.trans_le (roundDiv_mono h)

namespace Magnitude

/-! ### Ranks of quotients -/

/-- The quotient is brought to 53 binary digits by dividing it by this power of two. -/
def shift (n : Nat) : Nat := n.log2 - 52

theorem nearestRank_eq (num den : Nat) :
    nearestRank num den = min infiniteRank (shift (num * unitsPerOne / den) * runLength +
      roundDiv (num * unitsPerOne) (den * 2 ^ shift (num * unitsPerOne / den))) := rfl

theorem lt_two_pow_shift (n : Nat) : n < 2 ^ 53 * 2 ^ shift n := by
  have hlog : n.log2 + 1 ≤ 53 + shift n := by
    unfold shift
    omega
  rw [← Nat.pow_add]
  exact Nat.lt_log2_self.trans_le (Nat.pow_le_pow_right (by decide) hlog)

theorem two_pow_shift_le {n : Nat} (h : 0 < shift n) : 2 ^ 52 * 2 ^ shift n ≤ n := by
  have hlog : 52 + shift n = n.log2 := by
    unfold shift at h ⊢
    omega
  have hne : n ≠ 0 := by
    rintro rfl
    exact absurd h (by decide)
  rw [← Nat.pow_add, hlog]
  exact Nat.log2_self_le hne

theorem le_of_two_pow_le {a b n : Nat} (hlow : 2 ^ 52 * 2 ^ a ≤ n) (hhigh : n < 2 ^ 53 * 2 ^ b) :
    a ≤ b := by
  by_contra hlt
  have hmono : 2 ^ 52 * 2 ^ (b + 1) ≤ 2 ^ 52 * 2 ^ a :=
    Nat.mul_le_mul_left _ (Nat.pow_le_pow_right (by decide) (Nat.not_le.1 hlt))
  rw [Nat.pow_succ] at hmono
  omega

theorem shift_mono {m n : Nat} (h : m ≤ n) : shift m ≤ shift n := by
  rcases Nat.eq_zero_or_pos (shift m) with hzero | hpos
  · omega
  · exact le_of_two_pow_le ((two_pow_shift_le hpos).trans h) (lt_two_pow_shift n)

theorem roundDiv_shift_le {num den : Nat} (hd : 0 < den) :
    roundDiv num (den * 2 ^ shift (num / den)) ≤ 2 * runLength := by
  have hquot := Nat.lt_mul_of_div_lt (lt_two_pow_shift (num / den)) hd
  apply roundDiv_le (Nat.mul_pos hd (Nat.two_pow_pos _))
  rw [← two_pow_53, Nat.mul_left_comm, Nat.mul_comm den]
  exact hquot.le

theorem le_roundDiv_shift {num den : Nat} (hd : 0 < den) (h : 0 < shift (num / den)) :
    runLength ≤ roundDiv num (den * 2 ^ shift (num / den)) := by
  apply le_roundDiv (Nat.mul_pos hd (Nat.two_pow_pos _))
  rw [runLength_eq, Nat.mul_left_comm, Nat.mul_comm]
  exact (Nat.mul_le_mul_right _ (two_pow_shift_le h)).trans (Nat.div_mul_le_self num den)

theorem nearestRank_mono {a b den : Nat} (hd : 0 < den) (h : a ≤ b) :
    nearestRank a den ≤ nearestRank b den := by
  have hnum : a * unitsPerOne ≤ b * unitsPerOne := Nat.mul_le_mul_right _ h
  have hshift := shift_mono (Nat.div_le_div_right (c := den) hnum)
  rw [nearestRank_eq, nearestRank_eq]
  apply min_le_min_left
  rcases hshift.eq_or_lt with heq | hlt
  · rw [heq]
    exact Nat.add_le_add_left (roundDiv_mono hnum) _
  · -- the run of the greater quotient starts where the run of the smaller one ends
    have ha : roundDiv (a * unitsPerOne) (den * 2 ^ shift (a * unitsPerOne / den)) ≤ 2 * runLength :=
      roundDiv_shift_le hd
    have hb := le_roundDiv_shift hd (Nat.lt_of_le_of_lt (Nat.zero_le _) hlt)
    have hruns := Nat.mul_le_mul_right runLength hlt
    rw [Nat.succ_mul] at hruns
    omega

/-- The nearest magnitude to a greater quotient is no smaller. -/
theorem nearest_mono {a b c d : Nat} (hb : 0 < b) (hd : 0 < d) (h : a * d ≤ c * b) :
    nearest a b ≤ nearest c d := by
  rw [nearest_congr hb (Nat.mul_pos hb hd) (show a * (b * d) = a * d * b by ring),
    nearest_congr hd (Nat.mul_pos hb hd) (show c * (b * d) = c * b * d by ring)]
  exact nearestRank_mono (Nat.mul_pos hb hd) h

end Magnitude

/-! ### The values of decimals -/

namespace Decimal

/-- The number that a decimal stands for. -/
def value (d : Decimal) : ℚ := d.digits * 10 ^ d.exponent

theorem value_eq (d : Decimal) : d.value = d.num / d.den := by
  have hten : (10 : ℚ) ^ d.exponent = 10 ^ d.exponent.toNat / 10 ^ (-d.exponent).toNat := by
    rw [eq_div_iff (by positivity), ← zpow_natCast, ← zpow_natCast, ← zpow_add₀ (by norm_num)]
    congr 1
    omega
  rw [value, hten, num, den]
  push_cast
  ring

theorem value_one (k : Int) : (⟨1, k⟩ : Decimal).value = 10 ^ k := by
  rw [value, Nat.cast_one, one_mul]

theorem value_of_nonneg {d : Decimal} (h : 0 ≤ d.exponent) :
    d.value = (d.digits * 10 ^ d.exponent.toNat : Nat) := by
  have hexp : d.exponent = (d.exponent.toNat : Nat) := by omega
  rw [value]
  push_cast
  rw [← zpow_natCast, ← hexp]

theorem nearest_mono {d e : Decimal} (h : d.value ≤ e.value) : d.nearest ≤ e.nearest := by
  have hd : (0 : ℚ) < d.den := Nat.cast_pos.2 d.den_pos
  have he : (0 : ℚ) < e.den := Nat.cast_pos.2 e.den_pos
  rw [value_eq, value_eq, div_le_div_iff₀ hd he] at h
  rw [nearest_eq, nearest_eq]
  exact Magnitude.nearest_mono d.den_pos e.den_pos (by exact_mod_cast h)

/-- What lies between two decimals that read as one magnitude reads as it too. -/
theorem nearest_of_between {m : Magnitude} {a b c : Decimal} (ha : a.nearest = m)
    (hc : c.nearest = m) (hab : a.value ≤ b.value) (hbc : b.value ≤ c.value) : b.nearest = m := by
  apply le_antisymm
  · rw [← hc]
    exact nearest_mono hbc
  · rw [← ha]
    exact nearest_mono hab

end Decimal

end Rulebook
