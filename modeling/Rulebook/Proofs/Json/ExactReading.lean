import Rulebook.Proofs.Json.Spelling
import Rulebook.Proofs.Number.Exact

/-!
# JSON numbers that are read exactly

The cheap reading of a JSON number rounds its significand, rounds the power of ten, and rounds their
product or quotient. As long as the first two are magnitudes themselves nothing is lost before the last
step, and the number that is read is the one nearest to what the text says
(`Json.Written.value?_of_isExact`).
-/

namespace Rulebook.Json
open Magnitude (IsExact)

namespace Written

/-! ### The significand -/

theorem le_ofDigitChars (s : Nat) (cs : List Char) : s ≤ Nat.ofDigitChars 10 cs s := by
  rw [Nat.ofDigitChars_eq_ofDigitChars_zero]
  exact Nat.le_add_right_of_le (Nat.le_mul_of_pos_left s (Nat.pow_pos (by decide)))

/-- No digit is left out if all together fit. -/
theorem absorb_eq {s : Nat} {cs : List Char} (h : Nat.ofDigitChars 10 cs s ≤ greatest) :
    absorb s cs = (Nat.ofDigitChars 10 cs s, cs.length) := by
  induction cs generalizing s with
  | nil => rfl
  | cons c cs ih =>
    rw [Nat.ofDigitChars_cons] at h ⊢
    have hfirst : 10 * s + Numeral.digitValue c ≤ greatest := (le_ofDigitChars _ cs).trans h
    rw [absorb]
    simp only [hfirst, if_true]
    rw [Numeral.digitValue, ih h]
    rfl

/-! ### The power of ten -/

theorem scale?_of_isExact {t : Nat} {power : Int} (ht : IsExact t) (hp : power.natAbs ≤ 22)
    (hfinite : Decimal.nearest ⟨t, power⟩ ≠ Magnitude.infinity) :
    scale? (Magnitude.nearest t 1) power 0 = some (Decimal.nearest ⟨t, power⟩) := by
  have hten := Magnitude.isExact_ten_pow hp
  rw [scale?, tenTo]
  split
  · next hneg =>
    have hquotient : Decimal.nearest ⟨t, power⟩ = Magnitude.nearest t (10 ^ power.natAbs) := by
      rw [Decimal.nearest_eq, Decimal.num, Decimal.den, show power.toNat = 0 by omega,
        show (-power).toNat = power.natAbs by omega, Nat.pow_zero, Nat.mul_one]
    rw [hquotient]
    exact congrArg some (Magnitude.dividedBy_nearest ht hten (Nat.pow_pos (by decide)))
  · next hneg =>
    have hproduct : (Magnitude.nearest t 1).times (Magnitude.nearest (Nat.pow 10 power.natAbs) 1) =
        Decimal.nearest ⟨t, power⟩ := by
      rw [Decimal.nearest_eq, Decimal.num, Decimal.den, show (-power).toNat = 0 by omega,
        show power.toNat = power.natAbs by omega, Nat.pow_zero]
      exact Magnitude.times_nearest ht hten
    simp only [hproduct, if_neg hfinite]

/-! ### Numbers -/

/-- A number with neither a fraction nor a power of ten reads as its significand. -/
theorem value?_of_integer {w : Written} (hfraction : w.fraction = []) (hpower : w.power = none)
    (hle : w.decimal.digits ≤ greatest) :
    ∃ n, w.value? = some n ∧ n.toBinary64 = .signed w.negative w.decimal.nearest := by
  have hdecimal : w.decimal = ⟨Numeral.natOfDigits w.whole, 0⟩ := by
    rw [decimal, hfraction, hpower]
    simp
  rw [hdecimal] at hle ⊢
  have hnearest : Decimal.nearest ⟨Numeral.natOfDigits w.whole, 0⟩ =
      Magnitude.nearest (Numeral.natOfDigits w.whole) 1 := by
    rw [Decimal.nearest_eq, Decimal.num, Decimal.den]
    simp
  have hwhole : absorb 0 w.whole = (Numeral.natOfDigits w.whole, w.whole.length) := absorb_eq hle
  rw [hnearest]
  unfold value?
  simp only [hwhole, hfraction, hpower, and_self, if_true]
  generalize Numeral.natOfDigits w.whole = s
  cases w.negative with
  | false => exact ⟨.integer s, rfl, rfl⟩
  | true =>
    by_cases hs : 0 < s ∧ s ≤ 0x8000000000000000
    · refine ⟨.integer (-(s : Int)), by simp [hs], ?_⟩
      rw [Number.toBinary64, Binary64.ofInt, Int.natAbs_neg, Int.natAbs_natCast,
        decide_eq_true (by omega)]
    · exact ⟨.float (.signed true (Magnitude.nearest s 1)), by simp [hs], rfl⟩

/-- A number whose significand is a magnitude itself and whose power of ten is small reads as the
nearest number. -/
theorem value?_of_isExact {w : Written} (hexact : IsExact w.decimal.digits)
    (hle : w.decimal.digits ≤ greatest) (hp : w.decimal.exponent.natAbs ≤ 22)
    (hfinite : w.decimal.nearest ≠ Magnitude.infinity) :
    ∃ n, w.value? = some n ∧ n.toBinary64 = .signed w.negative w.decimal.nearest := by
  by_cases hinteger : w.fraction = [] ∧ w.power = none
  · exact value?_of_integer hinteger.1 hinteger.2 hle
  have hdigits : w.decimal.digits = Nat.ofDigitChars 10 w.fraction (Numeral.natOfDigits w.whole) :=
    Nat.ofDigitChars_append 0
  rw [hdigits] at hle
  have hwhole : absorb 0 w.whole = (Numeral.natOfDigits w.whole, w.whole.length) :=
    absorb_eq ((le_ofDigitChars _ w.fraction).trans hle)
  have hpower : w.power.getD 0 + (w.whole.length - w.whole.length : Nat) - w.fraction.length =
      w.decimal.exponent := by
    rw [Nat.sub_self]
    simp [decimal]
  have hsteps : (w.decimal.exponent.natAbs - 1) / 308 = 0 := by omega
  unfold value?
  simp only [hwhole, absorb_eq hle, and_true, if_neg hinteger]
  rw [hpower, hsteps, ← hdigits, scale?_of_isExact hexact hp hfinite]
  exact ⟨_, rfl, rfl⟩

end Written

end Rulebook.Json
