import Rulebook.Proofs.Json.ExactReading
import Rulebook.Proofs.Number.Digits
import Rulebook.Proofs.Number.Shortest
import Rulebook.Proofs.Rule.Encoded

/-!
# Short numerals

A number that rule text spells with at most fifteen digits reads back from its JSON text
(`Binary64.readsBack_of_isShort`): its shortest decimal has no more digits than the numeral, so the cheap
reading of JSON numbers loses nothing of it. With more digits a number may come back as its neighbour.
-/

namespace Rulebook
open Grammar

/-- A numeral of rule text with at most fifteen digits. -/
structure Numeral.IsShort (cs : List Char) : Prop where
  numberChars : cs.all isNumberChar
  digits_le : cs.countP Char.isDigit ≤ 15

/-- A number that a short numeral spells. -/
def Binary64.IsShort (x : Binary64) : Prop := ∃ cs, Numeral.IsShort cs ∧ Numeral.read? cs = some x

/-- A decimal of at most fifteen digits, all of which may stand after the point. -/
structure Decimal.IsShort (z : Decimal) : Prop where
  digits_lt : z.digits < 10 ^ 15
  le_exponent : -15 ≤ z.exponent
  exponent_le : z.exponent ≤ 0

/-- A value whose number, if it is one, is spelled by a short numeral. -/
def Value.IsShort : Value → Prop
  | number x => x.IsShort
  | text _ => True

/-! ### What short numerals say -/

theorem Binary64.IsShort.exists_decimal {x : Binary64} (h : x.IsShort) :
    ∃ z : Decimal, x = .signed false z.nearest ∧ z.IsShort := by
  obtain ⟨cs, ⟨hchars, hcount⟩, hread⟩ := h
  rw [Numeral.read?_of_all hchars, Option.map_eq_some_iff] at hread
  obtain ⟨z, hz, rfl⟩ := hread
  refine ⟨z, rfl, ?_⟩
  have hlength : ∀ ds : List Char, ds.all Char.isDigit → ds.countP Char.isDigit = ds.length := by
    intro ds hds
    exact List.countP_eq_length.2 (List.all_eq_true.1 hds)
  rcases Numeral.points_cases hchars with hw | ⟨w, f, rfl, hw, hf⟩ | ⟨w, f, rest, rfl, hw, hf⟩
  · by_cases hne : cs = []
    · rw [hne, show Numeral.decimal? [] = none by decide] at hz
      cases hz
    · rw [Numeral.decimal?_digits hne hw] at hz
      cases hz
      rw [hlength cs hw] at hcount
      exact ⟨Numeral.natOfDigits_lt_of_length_le hw hcount, by simp, by simp⟩
  · by_cases hne : w ≠ [] ∨ f ≠ []
    · rw [Numeral.decimal?_point hne hw hf] at hz
      cases hz
      rw [List.countP_append, List.countP_cons_of_neg (by decide), hlength w hw, hlength f hf] at hcount
      have hwf : (w ++ f).all Char.isDigit := by rw [List.all_append, hw, hf]; rfl
      have hlen : (w ++ f).length ≤ 15 := by rwa [List.length_append]
      refine ⟨Numeral.natOfDigits_lt_of_length_le hwf hlen, ?_, ?_⟩
      · simp only
        omega
      · simp only
        omega
    · simp only [ne_eq, not_or, not_not] at hne
      obtain ⟨rfl, rfl⟩ := hne
      rw [show Numeral.decimal? ([] ++ '.' :: []) = none by decide] at hz
      cases hz
  · rw [Numeral.decimal?_two_points w f rest hw hf] at hz
    cases hz

/-! ### Reading back -/

namespace Decimal

/-- A decimal that the cheap reading of JSON numbers does not change. -/
structure IsSafe (d : Decimal) : Prop where
  digits_le : d.digits ≤ 10 ^ 15
  le_exponent : -22 ≤ d.exponent
  exponent_le : d.exponent ≤ 22
  whole_lt : 0 ≤ d.exponent → d.digits * 10 ^ d.exponent.toNat < 18 * 10 ^ 14

/-- What a safe decimal is written as is read exactly. -/
theorem IsSafe.isExact_of_says {d : Decimal} (h : d.IsSafe) {w : Json.Written} (hw : w.Says d) :
    Magnitude.IsExact w.decimal.digits ∧ w.decimal.digits ≤ Json.Written.greatest ∧
      w.decimal.exponent.natAbs ≤ 22 ∧ w.decimal.nearest = d.nearest := by
  have hgreatest : Json.Written.greatest = 18446744073709551615 := rfl
  have hdigits := h.digits_le
  have hlow := h.le_exponent
  have hhigh := h.exponent_le
  rcases hw with hw | ⟨hpos, hw⟩
  · rw [hw]
    exact ⟨Magnitude.isExact_of_lt (by omega), by omega, by omega, rfl⟩
  · have hlt := h.whole_lt hpos
    have hten : d.digits * 10 ^ (d.exponent.toNat + 1) = d.digits * 10 ^ d.exponent.toNat * 10 := by
      rw [Nat.pow_succ, Nat.mul_assoc]
    have htwo : d.digits * 10 ^ (d.exponent.toNat + 1) =
        d.digits * 10 ^ d.exponent.toNat * 5 * 2 ^ 1 := by
      rw [hten]
      ring
    rw [hw]
    refine ⟨?_, ?_, by simp, ?_⟩
    · simp only [htwo]
      exact Magnitude.isExact_mul_two_pow (by omega) (by decide)
    · simp only [hten]
      omega
    · rw [nearest_shift, show (-1 + ((d.exponent.toNat + 1 : Nat) : Int)) = d.exponent by omega]

end Decimal

theorem Json.nearest_decimalOf {m : Magnitude} (h : m ≠ Magnitude.infinity) :
    (decimalOf m).nearest = m := by
  unfold decimalOf
  split_ifs with hz
  · exact hz.symm
  · exact (Decimal.nearest_trimmed _).trans (Decimal.nearest_shortest _ h)

theorem Binary64.readsBack_of_isSafe {negative : Bool} {m : Magnitude} (hm : m ≠ Magnitude.infinity)
    (h : (Json.decimalOf m).IsSafe) : (signed negative m).ReadsBack := by
  obtain ⟨s, hs, htext, rfl, hsays⟩ : ∃ s : Json.Spelling, s.IsValid ∧
      Layout.json.text (signed negative m) = s.chars ∧ s.negative = negative ∧
      s.written.Says (Json.decimalOf m) := Json.exists_spelling_signed hm
  obtain ⟨hexact, hle, hp, hnearest⟩ := h.isExact_of_says hsays
  rw [Json.nearest_decimalOf hm] at hnearest
  obtain ⟨n, hn, hvalue⟩ := Json.Written.value?_of_isExact hexact hle hp (hnearest ▸ hm)
  have hreread := Json.Number.reread_of_spelling (n := .float (.signed s.negative m)) hs htext
  refine readsBack_iff.2 ⟨n, by rw [hreread, hn], ?_⟩
  rw [hvalue, hnearest]
  exact same_self Binary64.noConfusion

/-! ### Short numerals read back -/

namespace Decimal

variable {z : Decimal}

theorem IsShort.nearest_le (h : z.IsShort) : z.nearest ≤ nearest ⟨1, 15⟩ := by
  apply nearest_mono
  have hten : (10 : ℚ) ^ z.exponent ≤ 1 := zpow_le_one_of_nonpos₀ (by norm_num) h.exponent_le
  have hdigits : (z.digits : ℚ) ≤ 10 ^ 15 := by exact_mod_cast h.digits_lt.le
  rw [value_one]
  calc z.digits * (10 : ℚ) ^ z.exponent ≤ 10 ^ 15 * 1 :=
        mul_le_mul hdigits hten (zpow_nonneg (by norm_num) _) (by norm_num)
    _ = 10 ^ (15 : Int) := by norm_num

theorem IsShort.le_nearest (h : z.IsShort) (hne : z.digits ≠ 0) : nearest ⟨1, -15⟩ ≤ z.nearest := by
  apply nearest_mono
  rw [value_one]
  calc (10 : ℚ) ^ (-15 : Int) ≤ 10 ^ z.exponent := zpow_le_zpow_right₀ (by norm_num) h.le_exponent
    _ ≤ z.digits * 10 ^ z.exponent := by
        apply le_mul_of_one_le_left (zpow_nonneg (by norm_num) _)
        exact_mod_cast Nat.pos_of_ne_zero hne

theorem IsShort.nearest_ne_infinity (h : z.IsShort) : z.nearest ≠ Magnitude.infinity := by
  intro hinf
  have hmax := h.nearest_le
  rw [hinf] at hmax
  exact absurd hmax (by decide +kernel)

theorem IsShort.le_firstExponent (h : z.IsShort) (hz : z.nearest ≠ Magnitude.zero) :
    -16 ≤ firstExponent z.nearest := by
  have hm := h.nearest_ne_infinity
  by_contra hlt
  have hbelow : (exact z.nearest).value ≤ (⟨1, -16⟩ : Decimal).value := by
    rw [value_one]
    exact (value_exact_bounds hz hm).2.le.trans (zpow_le_zpow_right₀ (by norm_num) (by omega))
  have hle := nearest_mono hbelow
  rw [nearest_exact hm] at hle
  have hge := h.le_nearest (digits_ne_zero hz)
  exact absurd (hge.trans hle) (by decide +kernel)

/-- A whole number that reads as no more than `10 ^ 15` is not much greater. -/
theorem whole_lt_of_nearest_le {d : Decimal} (hmax : d.nearest ≤ nearest ⟨1, 15⟩)
    (hpos : 0 ≤ d.exponent) : d.digits * 10 ^ d.exponent.toNat < 18 * 10 ^ 14 := by
  by_contra hge
  have hle : (⟨18, 14⟩ : Decimal).value ≤ d.value := by
    rw [value_of_nonneg hpos, value_of_nonneg (by decide)]
    exact_mod_cast Nat.not_lt.1 hge
  exact absurd ((nearest_mono hle).trans hmax) (by decide +kernel)

theorem exponent_le_of_nearest_le {d : Decimal} (hmax : d.nearest ≤ nearest ⟨1, 15⟩)
    (hne : d.digits ≠ 0) : d.exponent ≤ 22 := by
  by_contra hlt
  have hwhole := whole_lt_of_nearest_le hmax (by omega)
  have hten : 10 ^ d.exponent.toNat ≤ d.digits * 10 ^ d.exponent.toNat :=
    Nat.le_mul_of_pos_left _ (Nat.pos_of_ne_zero hne)
  have hpow : 10 ^ 22 ≤ 10 ^ d.exponent.toNat := Nat.pow_le_pow_right (by decide) (by omega)
  omega

theorem IsShort.isSafe (h : z.IsShort) : (Json.decimalOf z.nearest).IsSafe := by
  have hm := h.nearest_ne_infinity
  have hread := Json.nearest_decimalOf hm
  by_cases hz : z.nearest = Magnitude.zero
  · rw [hz, Json.decimalOf, if_pos rfl]
    exact ⟨by decide, by decide, by decide, fun _ => by decide⟩
  · obtain ⟨hdigits, hexp⟩ := shortest_le Layout.json.tie (by decide) h.digits_lt rfl hz hm
    have hlow := h.le_exponent
    have hfirst := h.le_firstExponent hz
    have htrimmed := exponent_le_trimmed (shortest Layout.json.tie z.nearest)
    have hne : (Json.decimalOf z.nearest).digits ≠ 0 := digits_ne_zero (hread.symm ▸ hz)
    have hmax := hread.le.trans h.nearest_le
    have hhigh := exponent_le_of_nearest_le hmax hne
    have hwhole := whole_lt_of_nearest_le hmax
    rw [Json.decimalOf, if_neg hz] at hhigh hwhole ⊢
    exact ⟨(digits_trimmed_le _).trans hdigits, by omega, hhigh, hwhole⟩

end Decimal

/-- A number that is spelled with at most fifteen digits reads back from its JSON text. -/
theorem Binary64.readsBack_of_isShort {x : Binary64} (h : x.IsShort) : x.ReadsBack := by
  obtain ⟨z, rfl, hz⟩ := h.exists_decimal
  exact readsBack_of_isSafe hz.nearest_ne_infinity hz.isSafe

theorem Value.readsBack_of_isShort {v : Value} (h : v.IsShort) : v.ReadsBack := by
  cases v with
  | number x => exact Binary64.readsBack_of_isShort h
  | text s => exact trivial

end Rulebook
