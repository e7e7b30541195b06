import Rulebook.Rule.Grammar

/-!
# Characters of rule text

The classes of characters that the grammar tells apart, by their code points. No two of the classes
share a character, and no character of them is blank.
-/

namespace Rulebook.Grammar

theorem isFieldChar_iff {c : Char} :
    isFieldChar c ↔ (65 ≤ c.toNat ∧ c.toNat ≤ 90) ∨ (97 ≤ c.toNat ∧ c.toNat ≤ 122) ∨ c = '_' := by
  change ((decide (c.val ≥ 65 ∧ c.val ≤ 90) || (decide (c.val ≥ 97) && decide (c.val ≤ 122))) ||
    decide (c = '_')) = true ↔ _
  simp only [Bool.or_eq_true, Bool.and_eq_true, decide_eq_true_eq, ge_iff_le,
    UInt32.le_iff_toNat_le, or_assoc]
  exact Iff.rfl

theorem isNumberChar_iff {c : Char} :
    isNumberChar c ↔ (48 ≤ c.toNat ∧ c.toNat ≤ 57) ∨ c = '.' := by
  change ((decide (c.val ≥ 48) && decide (c.val ≤ 57)) || decide (c = '.')) = true ↔ _
  simp only [Bool.or_eq_true, Bool.and_eq_true, decide_eq_true_eq, ge_iff_le,
    UInt32.le_iff_toNat_le]
  exact Iff.rfl

theorem isComparisonChar_iff {c : Char} : isComparisonChar c ↔ c = '>' ∨ c = '<' ∨ c = '=' := by
  simp only [isComparisonChar, Bool.or_eq_true, decide_eq_true_eq, or_assoc]

/-! ### The classes are apart -/

theorem not_isFieldChar_of_isComparisonChar {c : Char} (h : isComparisonChar c) :
    isFieldChar c = false := by
  rcases isComparisonChar_iff.1 h with rfl | rfl | rfl <;> decide

theorem not_isFieldChar_of_isNumberChar {c : Char} (h : isNumberChar c) :
    isFieldChar c = false := by
  rw [Bool.eq_false_iff]
  intro hf
  rcases isNumberChar_iff.1 h with hn | rfl
  · rcases isFieldChar_iff.1 hf with hf | hf | rfl
    · omega
    · omega
    · revert hn
      decide
  · revert hf
    decide

theorem not_isComparisonChar_of_isNumberChar {c : Char} (h : isNumberChar c) :
    isComparisonChar c = false := by
  rw [Bool.eq_false_iff]
  intro hc
  rcases isComparisonChar_iff.1 hc with rfl | rfl | rfl <;> exact absurd h (by decide)

/-! ### Blank characters and small letters -/

theorem not_isBlank_of_isFieldChar {c : Char} (h : isFieldChar c) : Text.isBlank c = false := by
  rw [Bool.eq_false_iff]
  intro hb
  simp only [Text.isBlank, Bool.or_eq_true, Bool.and_eq_true, decide_eq_true_eq] at hb
  rcases isFieldChar_iff.1 h with h | h | rfl
  · omega
  · omega
  · revert hb
    decide

theorem not_isBlank_of_isNumberChar {c : Char} (h : isNumberChar c) : Text.isBlank c = false := by
  rw [Bool.eq_false_iff]
  intro hb
  simp only [Text.isBlank, Bool.or_eq_true, Bool.and_eq_true, decide_eq_true_eq] at hb
  rcases isNumberChar_iff.1 h with h | rfl
  · omega
  · revert hb
    decide

theorem toLower_of_isNumberChar {c : Char} (h : isNumberChar c) : c.toLower = c := by
  have hsmall : ¬ (c.val ≥ 'A'.val ∧ c.val ≤ 'Z'.val) := by
    rintro ⟨hfirst, -⟩
    have hfirst : 65 ≤ c.toNat := hfirst
    rcases isNumberChar_iff.1 h with h | rfl
    · omega
    · revert hfirst
      decide
  exact dif_neg hsmall

end Rulebook.Grammar
