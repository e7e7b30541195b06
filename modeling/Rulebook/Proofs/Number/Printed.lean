import Rulebook.Proofs.Number.Digits
import Rulebook.Proofs.Number.Significant

/-!
# Numbers in rule text

Rule text has no sign and no name for a number. The numbers that can be read from it are the finite
ones with a positive sign, and each of these is read back from its own text (`Layout.read?_text`);
the text of any other number does not even start like a numeral (`Layout.text_of_not_isPrintable`).
-/

namespace Rulebook
open Grammar

/-- A number that rule text can spell: finite, with a positive sign. -/
def Binary64.IsPrintable (x : Binary64) : Prop :=
  ∃ m, x = .signed false m ∧ m ≠ Magnitude.infinity

namespace Layout

theorem all_isDigit_replicate_zero (n : Nat) : (List.replicate n '0').all Char.isDigit := by
  rw [List.all_replicate]
  split <;> rfl

/-- Digits set out around a point spell the decimal that the place of the first digit says. -/
theorem decimal?_positionalText {digits : List Char} (hne : digits ≠ [])
    (hd : digits.all Char.isDigit) (k : Int) :
    ∃ d, Numeral.decimal? (rule.positionalText digits k) = some d ∧
      d.nearest = Decimal.nearest ⟨Numeral.natOfDigits digits, k + 1 - digits.length⟩ := by
  have hlen : 0 < digits.length := List.length_pos_of_ne_nil hne
  unfold positionalText
  split_ifs with hk hlong
  · have hf : (List.replicate (-k - 1).toNat '0' ++ digits).all Char.isDigit := by
      rw [List.all_append, all_isDigit_replicate_zero, hd]
      rfl
    refine ⟨_, Numeral.decimal?_point (w := ['0']) (Or.inl (by decide)) (by decide) hf, ?_⟩
    rw [List.singleton_append, Numeral.natOfDigits_zero_cons,
      Numeral.natOfDigits_replicate_zero_append]
    congr 2
    simp only [List.length_append, List.length_replicate]
    omega
  · have hz := all_isDigit_replicate_zero (k.toNat + 1 - digits.length)
    have hw : (digits ++ List.replicate (k.toNat + 1 - digits.length) '0').all Char.isDigit := by
      rw [List.all_append, hd, hz]
      rfl
    have hw' : digits ++ List.replicate (k.toNat + 1 - digits.length) '0' ≠ [] := by
      simp [hne]
    have hread := Numeral.decimal?_digits hw' hw
    rw [show rule.wholeEnding = [] from rfl, List.append_nil]
    refine ⟨_, hread, ?_⟩
    rw [Numeral.natOfDigits_append_replicate_zero, Decimal.nearest_shift]
    congr 2
    omega
  · have hsplit := List.take_append_drop (k.toNat + 1) digits
    rw [← hsplit, List.all_append, Bool.and_eq_true] at hd
    have hw : digits.take (k.toNat + 1) ≠ [] := by
      rw [ne_eq, List.take_eq_nil_iff]
      simp [hne]
    refine ⟨_, Numeral.decimal?_point (Or.inl hw) hd.1 hd.2, ?_⟩
    rw [hsplit]
    congr 2
    rw [List.length_drop]
    omega

theorem all_isNumberChar_positionalText {digits : List Char} (hd : digits.all Char.isDigit)
    (k : Int) : (rule.positionalText digits k).all isNumberChar := by
  have hn := Numeral.all_isNumberChar hd
  have hz := fun n => Numeral.all_isNumberChar (all_isDigit_replicate_zero n)
  unfold positionalText
  split_ifs with hk hlong
  · rw [List.all_cons, List.all_cons, List.all_append, hz, hn]
    decide
  · show (_ ++ []).all isNumberChar
    rw [List.append_nil, List.all_append, hn, hz]
    rfl
  · rw [← List.take_append_drop (k.toNat + 1) digits, List.all_append, Bool.and_eq_true] at hn
    rw [List.all_append, List.all_cons, hn.1, hn.2]
    decide

theorem magnitudeText_of_ne_zero {l : Layout} {m : Magnitude} (h : m ≠ Magnitude.zero) :
    l.magnitudeText m = l.decimalText (Decimal.shortest l.tie m) := if_neg h

theorem decimalText_rule (d : Decimal) :
    rule.decimalText d = rule.positionalText d.significant d.leading := rfl

theorem all_isNumberChar_magnitudeText (m : Magnitude) :
    (rule.magnitudeText m).all isNumberChar := by
  by_cases hz : m = Magnitude.zero
  · rw [magnitudeText, if_pos hz]
    decide
  · rw [magnitudeText_of_ne_zero hz, decimalText_rule]
    exact all_isNumberChar_positionalText (Decimal.all_isDigit_significant _) _

theorem digits_shortest_ne_zero (tie : Tie) {m : Magnitude} (hz : m ≠ Magnitude.zero)
    (hi : m ≠ Magnitude.infinity) : (Decimal.shortest tie m).digits ≠ 0 := by
  apply Decimal.digits_ne_zero
  rw [Decimal.nearest_shortest tie hi]
  exact hz

theorem read?_magnitudeText {m : Magnitude} (h : m ≠ Magnitude.infinity) :
    Numeral.read? (rule.magnitudeText m) = some (.signed false m) := by
  rw [Numeral.read?_of_all (all_isNumberChar_magnitudeText m)]
  by_cases hz : m = Magnitude.zero
  · subst hz
    decide
  · have hne := Decimal.significant_ne_nil (digits_shortest_ne_zero rule.tie hz h)
    obtain ⟨d, hd, hnear⟩ := decimal?_positionalText hne (Decimal.all_isDigit_significant _)
      (Decimal.shortest rule.tie m).leading
    rw [magnitudeText_of_ne_zero hz, decimalText_rule, hd, Option.map_some, hnear,
      Decimal.nearest_significant, Decimal.nearest_shortest rule.tie h]

/-! ### Texts of numbers -/

theorem text_of_isPrintable {m : Magnitude} (h : m ≠ Magnitude.infinity) :
    rule.text (.signed false m) = rule.magnitudeText m := by
  simp only [text, h, if_false, Bool.false_eq_true]

theorem read?_text {x : Binary64} (h : x.IsPrintable) : Numeral.read? (rule.text x) = some x := by
  obtain ⟨m, rfl, hm⟩ := h
  rw [text_of_isPrintable hm]
  exact read?_magnitudeText hm

theorem all_isNumberChar_text {x : Binary64} (h : x.IsPrintable) :
    (rule.text x).all isNumberChar := by
  obtain ⟨m, rfl, hm⟩ := h
  rw [text_of_isPrintable hm]
  exact all_isNumberChar_magnitudeText m

theorem text_ne_nil {x : Binary64} (h : x.IsPrintable) : rule.text x ≠ [] := by
  intro hnil
  have hread := read?_text h
  rw [hnil, show Numeral.read? [] = none by decide] at hread
  cases hread

theorem text_of_not_isPrintable {x : Binary64} (h : ¬ x.IsPrintable) :
    ∃ c cs, rule.text x = c :: cs ∧ (c = '-' ∨ c = 'i' ∨ c = 'N') := by
  cases x with
  | nan => exact ⟨'N', ['a', 'N'], rfl, Or.inr (Or.inr rfl)⟩
  | signed negative m =>
    by_cases hm : m = Magnitude.infinity
    · rw [text, if_pos hm]
      cases negative with
      | true => exact ⟨'-', ['i', 'n', 'f'], rfl, Or.inl rfl⟩
      | false => exact ⟨'i', ['n', 'f'], rfl, Or.inr (Or.inl rfl)⟩
    · cases negative with
      | true =>
        refine ⟨'-', rule.magnitudeText m, ?_, Or.inl rfl⟩
        simp only [text, hm, if_false, if_true]
      | false => exact absurd ⟨m, rfl, hm⟩ h

end Layout

end Rulebook
