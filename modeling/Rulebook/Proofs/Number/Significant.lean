import Mathlib.Data.List.Basic
import Mathlib.Data.List.TakeWhile
import Rulebook.Number.Layout
import Rulebook.Number.Numeral
import Rulebook.Proofs.Number.Rounding

/-!
# Significant digits

A layout sets out the digits of a decimal without the zeros at their end. Wherever it puts the point,
the digits and the point together spell a decimal of the same value, and so the same magnitude
(`Decimal.nearest_shift`).
-/

namespace Rulebook

/-! ### Digits of natural numbers -/

theorem Numeral.natOfDigits_eq (cs : List Char) : natOfDigits cs = Nat.ofDigitChars 10 cs 0 := rfl

theorem Numeral.natOfDigits_replicate_zero_append (n : Nat) (cs : List Char) :
    natOfDigits (List.replicate n '0' ++ cs) = natOfDigits cs := by
  rw [natOfDigits_eq, Nat.ofDigitChars_append, Nat.ofDigitChars_replicate_zero, Nat.mul_zero]
  rfl

theorem Numeral.natOfDigits_zero_cons (cs : List Char) :
    natOfDigits ('0' :: cs) = natOfDigits cs := natOfDigits_replicate_zero_append 1 cs

theorem Numeral.natOfDigits_append_replicate_zero (cs : List Char) (n : Nat) :
    natOfDigits (cs ++ List.replicate n '0') = natOfDigits cs * 10 ^ n := by
  rw [natOfDigits_eq, Nat.ofDigitChars_append, Nat.ofDigitChars_replicate_zero, Nat.mul_comm]
  rfl

theorem Numeral.digitValue_le {c : Char} (h : c.isDigit) : digitValue c ≤ 9 := by
  have hc := Char.isDigit_iff_toNat.1 h
  simp only [digitValue]
  have : '0'.toNat = 48 := rfl
  have : '9'.toNat = 57 := rfl
  omega

theorem Numeral.natOfDigits_cons (c : Char) (cs : List Char) :
    natOfDigits (c :: cs) = 10 ^ cs.length * digitValue c + natOfDigits cs := by
  rw [natOfDigits_eq, Nat.ofDigitChars_cons, Nat.ofDigitChars_eq_ofDigitChars_zero, Nat.mul_zero,
    Nat.zero_add]
  rfl

theorem Numeral.natOfDigits_lt {cs : List Char} (h : cs.all Char.isDigit) :
    natOfDigits cs < 10 ^ cs.length := by
  induction cs with
  | nil => decide
  | cons c cs ih =>
    rw [List.all_cons, Bool.and_eq_true] at h
    calc natOfDigits (c :: cs) = 10 ^ cs.length * digitValue c + natOfDigits cs := natOfDigits_cons c cs
      _ < 10 ^ cs.length * 9 + 10 ^ cs.length :=
        Nat.add_lt_add_of_le_of_lt (Nat.mul_le_mul_left _ (digitValue_le h.1)) (ih h.2)
      _ = 10 ^ (c :: cs).length := by rw [List.length_cons, Nat.pow_succ]; ring

theorem Numeral.natOfDigits_lt_of_length_le {cs : List Char} (h : cs.all Char.isDigit) {n : Nat}
    (hn : cs.length ≤ n) : natOfDigits cs < 10 ^ n :=
  (natOfDigits_lt h).trans_le (Nat.pow_le_pow_right (by decide) hn)

namespace Decimal

theorem natOfDigits_digitChars (n : Nat) : Numeral.natOfDigits (digitChars n) = n :=
  Nat.ofDigitChars_ten_toDigits

theorem all_isDigit_digitChars (n : Nat) : (digitChars n).all Char.isDigit := by
  rw [List.all_eq_true]
  intro c hc
  exact Nat.isDigit_of_mem_toDigits (by decide) (by decide) hc

theorem digitChars_ne_nil (n : Nat) : digitChars n ≠ [] := Nat.toDigits_ne_nil

theorem digitChar_ne_zero {n : Nat} (h : n ≠ 0) (hn : n < 10) : n.digitChar ≠ '0' := by
  have hall : ∀ m < 10, m ≠ 0 → m.digitChar ≠ '0' := by decide
  exact hall n hn h

theorem head?_digitChars_ne {n : Nat} (h : n ≠ 0) : (digitChars n).head? ≠ some '0' := by
  -- the last digit is split off, and the first one is that of what remains
  induction n using Nat.strongRecOn with
  | _ n ih =>
    by_cases hn : n < 10
    · rw [digitChars, Nat.toDigits_of_lt_base hn]
      simpa using digitChar_ne_zero h hn
    · have hlt : n / 10 < n := by omega
      have hne : n / 10 ≠ 0 := by omega
      have hhead := ih (n / 10) hlt hne
      rw [digitChars, Nat.toDigits_of_base_le (by decide) (by omega)]
      rw [digitChars] at hhead
      rwa [List.head?_append_of_ne_nil _ Nat.toDigits_ne_nil]

/-! ### The digits before the zeros at the end -/

/-- The digits of a decimal up to the last one that is not zero. -/
def significant (d : Decimal) : List Char :=
  ((digitChars d.digits).reverse.dropWhile (· = '0')).reverse

/-- The number of zeros at the end of the digits. -/
def endingZeros (d : Decimal) : Nat := ((digitChars d.digits).reverse.takeWhile (· = '0')).length

theorem significant_append (d : Decimal) :
    d.significant ++ List.replicate d.endingZeros '0' = digitChars d.digits := by
  have hzeros : (digitChars d.digits).reverse.takeWhile (· = '0') =
      List.replicate d.endingZeros '0' := by
    rw [List.eq_replicate_iff]
    refine ⟨rfl, fun c hc => ?_⟩
    simpa using List.mem_takeWhile_imp hc
  have hparts := congrArg List.reverse
    (List.takeWhile_append_dropWhile (p := (· = '0')) (l := (digitChars d.digits).reverse))
  rw [List.reverse_append, hzeros, List.reverse_replicate, List.reverse_reverse] at hparts
  exact hparts

theorem length_significant (d : Decimal) :
    d.significant.length + d.endingZeros = (digitChars d.digits).length := by
  rw [← significant_append, List.length_append, List.length_replicate]

theorem all_isDigit_significant (d : Decimal) : d.significant.all Char.isDigit := by
  have h := all_isDigit_digitChars d.digits
  rw [← significant_append, List.all_append, Bool.and_eq_true] at h
  exact h.1

theorem natOfDigits_significant (d : Decimal) :
    Numeral.natOfDigits d.significant * 10 ^ d.endingZeros = d.digits := by
  rw [← Numeral.natOfDigits_append_replicate_zero, significant_append, natOfDigits_digitChars]

theorem significant_ne_nil {d : Decimal} (h : d.digits ≠ 0) : d.significant ≠ [] := by
  intro hnil
  have hvalue := natOfDigits_significant d
  rw [hnil, show Numeral.natOfDigits [] = 0 from rfl, Nat.zero_mul] at hvalue
  exact h hvalue.symm

theorem head?_significant_ne {d : Decimal} (h : d.digits ≠ 0) : d.significant.head? ≠ some '0' := by
  have hhead := head?_digitChars_ne h
  rwa [← significant_append, List.head?_append_of_ne_nil _ (significant_ne_nil h)] at hhead

/-- The power of ten of the first digit. -/
def leading (d : Decimal) : Int := d.exponent + (digitChars d.digits).length - 1

/-! ### Moving the point -/

theorem nearest_shift (n z : Nat) (e : Int) :
    nearest ⟨n * 10 ^ z, e⟩ = nearest ⟨n, e + z⟩ := by
  apply nearest_congr
  show n * 10 ^ z * 10 ^ e.toNat * 10 ^ (-(e + z)).toNat =
    n * 10 ^ (e + z).toNat * 10 ^ (-e).toNat
  rw [Nat.mul_assoc, Nat.mul_assoc, Nat.mul_assoc, ← Nat.pow_add, ← Nat.pow_add, ← Nat.pow_add]
  congr 2
  omega

/-- The significant digits alone name the magnitude. -/
theorem nearest_significant (d : Decimal) :
    nearest ⟨Numeral.natOfDigits d.significant, d.leading + 1 - d.significant.length⟩ = d.nearest := by
  have hlen := length_significant d
  have hexp : d.leading + 1 - d.significant.length = d.exponent + d.endingZeros := by
    rw [leading]
    omega
  rw [hexp, ← nearest_shift, natOfDigits_significant]

/-- A decimal without the zeros at its end. -/
def trimmed (d : Decimal) : Decimal :=
  ⟨Numeral.natOfDigits d.significant, d.leading + 1 - d.significant.length⟩

theorem nearest_trimmed (d : Decimal) : d.trimmed.nearest = d.nearest := nearest_significant d

theorem digits_trimmed_le (d : Decimal) : d.trimmed.digits ≤ d.digits := by
  rw [← natOfDigits_significant d]
  exact Nat.le_mul_of_pos_right _ (Nat.pow_pos (by decide))

theorem exponent_le_trimmed (d : Decimal) : d.exponent ≤ d.trimmed.exponent := by
  have hlen := length_significant d
  simp only [trimmed, leading]
  omega

theorem digits_ne_zero {d : Decimal} (h : d.nearest ≠ Magnitude.zero) : d.digits ≠ 0 := by
  intro hzero
  exact h (by rw [nearest, if_pos hzero])

end Decimal

namespace Layout

theorem decimalText_eq (l : Layout) (d : Decimal) :
    l.decimalText d =
      if l.isPositional d.leading then l.positionalText d.significant d.leading
      else scientificText d.significant d.leading := rfl

end Layout

end Rulebook
