import Mathlib.Data.List.Basic
import Rulebook.Json.Token
import Rulebook.Proofs.Number.Printed

/-!
# The spelling of JSON numbers

A JSON number is spelled by its sign, the digits before and after the point, and a power of ten.
Scanning takes a spelling apart again, whatever follows that could not belong to the number
(`Spelling.scan?_chars`). The JSON layout spells every finite number, and every integer is spelled by
its digits.
-/

namespace Rulebook.Json

/-- What a written number says without its sign. -/
def Written.decimal (w : Written) : Decimal :=
  ⟨Numeral.natOfDigits (w.whole ++ w.fraction), w.power.getD 0 - w.fraction.length⟩

/-- A written number says a decimal, a whole number perhaps with a zero after the point. -/
def Written.Says (w : Written) (d : Decimal) : Prop :=
  w.decimal = d ∨ 0 ≤ d.exponent ∧ w.decimal = ⟨d.digits * 10 ^ (d.exponent.toNat + 1), -1⟩

theorem Written.says_of_eq {w : Written} {d : Decimal}
    (hd : Numeral.natOfDigits (w.whole ++ w.fraction) = d.digits)
    (he : w.power.getD 0 - w.fraction.length = d.exponent) : w.Says d := by
  left
  rw [decimal, hd, he]

theorem Written.says_of_zero {w : Written} {d : Decimal} (hpos : 0 ≤ d.exponent)
    (hd : Numeral.natOfDigits (w.whole ++ w.fraction) = d.digits * 10 ^ (d.exponent.toNat + 1))
    (he : w.power.getD 0 - w.fraction.length = -1) : w.Says d := by
  right
  rw [decimal, hd, he]
  exact ⟨hpos, rfl⟩

/-- The parts of the text of a JSON number. There is a point if there are digits after it. -/
structure Spelling where
  negative : Bool := false
  whole : List Char
  fraction : List Char := []
  power : Option (Bool × List Char) := none

namespace Spelling

/-- The sign of a number or of a power. -/
def signChars (negative : Bool) : List Char := if negative then ['-'] else []

def fractionChars (fraction : List Char) : List Char :=
  if fraction = [] then [] else '.' :: fraction

def powerChars : Option (Bool × List Char) → List Char
  | none => []
  | some (negative, digits) => 'e' :: (if negative then '-' else '+') :: digits

/-- The text that a spelling stands for. -/
def chars (s : Spelling) : List Char :=
  signChars s.negative ++ s.whole ++ fractionChars s.fraction ++ powerChars s.power

/-- The parts as a scan finds them. -/
def written (s : Spelling) : Written where
  negative := s.negative
  whole := s.whole
  fraction := s.fraction
  power := s.power.map fun (negative, digits) =>
    if negative then -(Numeral.natOfDigits digits : Int) else Numeral.natOfDigits digits

/-- Digits stand where they should, and there is no zero in front of other digits. -/
structure IsValid (s : Spelling) : Prop where
  whole_ne : s.whole ≠ []
  whole_digits : s.whole.all Char.isDigit
  no_zero : s.whole.head? = some '0' → s.whole.length = 1
  fraction_digits : s.fraction.all Char.isDigit
  power_digits : ∀ p ∈ s.power, p.2 ≠ [] ∧ p.2.all Char.isDigit

end Spelling

/-- Can a character stand inside a number, after its first digit? -/
def continuesNumber (c : Char) : Bool := c.isDigit || c = '.' || c = 'e' || c = 'E'

/-- What may follow a number. -/
def Ends (rest : List Char) : Prop := rest.head?.any continuesNumber = false

theorem Ends.not_digit {rest : List Char} (h : Ends rest) : rest.head?.any Char.isDigit = false := by
  cases rest with
  | nil => rfl
  | cons c cs =>
    have hc : continuesNumber c = false := by simpa [Ends] using h
    simp only [continuesNumber, Bool.or_eq_false_iff] at hc
    simpa using hc.1.1.1

namespace Written

theorem scanMinus_append {negative : Bool} {cs : List Char} (h : cs.head? ≠ some '-') :
    scanMinus (Spelling.signChars negative ++ cs) = (negative, cs) := by
  cases negative with
  | true => rfl
  | false =>
    rw [Spelling.signChars, if_neg (by simp), List.nil_append]
    unfold scanMinus
    split
    · exact absurd rfl h
    · rfl

theorem scanFraction?_append {fraction rest : List Char} (hf : fraction.all Char.isDigit)
    (hpoint : rest.head? ≠ some '.') (hrest : rest.head?.any Char.isDigit = false) :
    scanFraction? (Spelling.fractionChars fraction ++ rest) = some (fraction, rest) := by
  by_cases hne : fraction = []
  · subst hne
    rw [Spelling.fractionChars, if_pos rfl, List.nil_append]
    unfold scanFraction?
    split
    · exact absurd rfl hpoint
    · rfl
  · rw [Spelling.fractionChars, if_neg hne, List.cons_append]
    simp only [scanFraction?, Text.takeWhile_append_stop hf hrest,
      Text.dropWhile_append_stop hf hrest, if_neg hne]

theorem scanPower?_append {power : Option (Bool × List Char)} {rest : List Char}
    (hp : ∀ p ∈ power, p.2 ≠ [] ∧ p.2.all Char.isDigit) (hrest : Ends rest) :
    scanPower? (Spelling.powerChars power ++ rest) =
      some (power.map fun (negative, digits) =>
        if negative then -(Numeral.natOfDigits digits : Int) else Numeral.natOfDigits digits,
        rest) := by
  cases power with
  | none =>
    rw [Spelling.powerChars, List.nil_append]
    cases rest with
    | nil => rfl
    | cons c cs =>
      have hc : continuesNumber c = false := by simpa [Ends] using hrest
      simp only [continuesNumber, Bool.or_eq_false_iff, decide_eq_false_iff_not] at hc
      rw [scanPower?, if_neg (by simp [hc.1.2, hc.2])]
      rfl
  | some p =>
    obtain ⟨negative, digits⟩ := p
    obtain ⟨hne, hd⟩ := hp _ rfl
    have htake := Text.takeWhile_append_stop hd hrest.not_digit
    have hdrop := Text.dropWhile_append_stop hd hrest.not_digit
    have hne' : digits ≠ [] := hne
    cases negative <;>
      simp [Spelling.powerChars, scanPower?, Numeral.splitSign, htake, hdrop, hne']

end Written

namespace Spelling

theorem head?_whole_ne_minus {s : Spelling} (h : s.IsValid) (cs : List Char) :
    (s.whole ++ cs).head? ≠ some '-' := by
  obtain ⟨c, ds, hw⟩ := List.exists_cons_of_ne_nil h.whole_ne
  have hd := h.whole_digits
  rw [hw, List.all_cons, Bool.and_eq_true] at hd
  rw [hw]
  intro hc
  cases hc
  exact absurd hd.1 (by decide)

theorem not_digit_after_whole (s : Spelling) {rest : List Char} (hr : Ends rest) :
    (fractionChars s.fraction ++ (powerChars s.power ++ rest)).head?.any Char.isDigit = false := by
  unfold fractionChars
  split
  · cases hp : s.power with
    | none => simpa [powerChars] using hr.not_digit
    | some p => rfl
  · rfl

theorem not_digit_after_fraction (s : Spelling) {rest : List Char} (hr : Ends rest) :
    (powerChars s.power ++ rest).head?.any Char.isDigit = false ∧
      (powerChars s.power ++ rest).head? ≠ some '.' := by
  cases hp : s.power with
  | none =>
    refine ⟨hr.not_digit, ?_⟩
    intro hpoint
    unfold Ends at hr
    rw [powerChars, List.nil_append] at hpoint
    rw [hpoint] at hr
    exact absurd hr (by decide)
  | some p => exact ⟨rfl, by simp [powerChars]⟩

theorem scan?_chars {s : Spelling} (h : s.IsValid) {rest : List Char} (hr : Ends rest) :
    Written.scan? (s.chars ++ rest) = some (s.written, rest) := by
  have hchars : s.chars ++ rest = signChars s.negative ++
      (s.whole ++ (fractionChars s.fraction ++ (powerChars s.power ++ rest))) := by
    simp [chars]
  have hnd := not_digit_after_whole s hr
  obtain ⟨hnd', hpoint⟩ := not_digit_after_fraction s hr
  have hzero : ¬ (s.whole = [] ∨ (s.whole.head? = some '0' ∧ s.whole.length ≠ 1)) := by
    rintro (he | ⟨hz, hl⟩)
    · exact h.whole_ne he
    · exact hl (h.no_zero hz)
  rw [hchars, Written.scan?, Written.scanMinus_append (head?_whole_ne_minus h _)]
  simp only [Text.takeWhile_append_stop h.whole_digits hnd,
    Text.dropWhile_append_stop h.whole_digits hnd, if_neg hzero,
    Written.scanFraction?_append h.fraction_digits hpoint hnd', Option.bind_eq_bind,
    Option.bind_some, Written.scanPower?_append h.power_digits hr]
  rfl

/-- The characters of a spelling. -/
def isSpellingChar (c : Char) : Bool := c.isDigit || c = '.' || c = 'e' || c = '+' || c = '-'

theorem all_isSpellingChar {s : Spelling} (h : s.IsValid) : s.chars.all isSpellingChar := by
  have hdigits : ∀ ds : List Char, ds.all Char.isDigit → ds.all isSpellingChar := by
    intro ds hds
    rw [List.all_eq_true] at hds ⊢
    intro c hc
    simp [isSpellingChar, hds c hc]
  have hsign : (signChars s.negative).all isSpellingChar := by
    cases s.negative <;> decide
  have hfraction : (fractionChars s.fraction).all isSpellingChar := by
    unfold fractionChars
    split
    · rfl
    · rw [List.all_cons, hdigits _ h.fraction_digits]
      decide
  have hpower : (powerChars s.power).all isSpellingChar := by
    cases hp : s.power with
    | none => rfl
    | some p =>
      obtain ⟨negative, digits⟩ := p
      have hd := hdigits _ (h.power_digits _ hp).2
      cases negative <;>
        · rw [powerChars, List.all_cons, List.all_cons, hd]
          decide
  rw [chars, List.all_append, List.all_append, List.all_append, hsign, hdigits _ h.whole_digits,
    hfraction, hpower]
  rfl

theorem chars_ne_nil {s : Spelling} (h : s.IsValid) : s.chars ≠ [] := by
  simp [chars, h.whole_ne]

end Spelling

/-! ### Numbers and their spellings -/

/-- The whole digits with zeros behind them keep their first digit. -/
theorem no_zero_append {digits : List Char} (hz : digits.head? ≠ some '0') (hne : digits ≠ [])
    (zeros : List Char) :
    (digits ++ zeros).head? = some '0' → (digits ++ zeros).length = 1 := by
  intro h
  rw [List.head?_append_of_ne_nil _ hne] at h
  exact absurd h hz

theorem exists_spelling_positional {digits : List Char} (hne : digits ≠ [])
    (hd : digits.all Char.isDigit) (hz : digits.head? ≠ some '0') (k : Int) :
    ∃ s : Spelling, s.IsValid ∧ s.negative = false ∧ Layout.json.positionalText digits k = s.chars ∧
      s.written.Says ⟨Numeral.natOfDigits digits, k + 1 - digits.length⟩ := by
  have hzeros := Layout.all_isDigit_replicate_zero
  unfold Layout.positionalText
  split_ifs with hk hlong
  · refine ⟨{ whole := ['0'], fraction := List.replicate (-k - 1).toNat '0' ++ digits }, ?_, rfl, ?_, ?_⟩
    · refine ⟨by simp, rfl, fun _ => rfl, ?_, fun p hp => by cases hp⟩
      rw [List.all_append, hzeros, hd]
      rfl
    · simp [Spelling.chars, Spelling.signChars, Spelling.fractionChars, Spelling.powerChars, hne]
    · apply Written.says_of_eq
      · show Numeral.natOfDigits ('0' :: (_ ++ digits)) = _
        rw [Numeral.natOfDigits_zero_cons, Numeral.natOfDigits_replicate_zero_append]
      · simp [Spelling.written]
        omega
  · refine ⟨{ whole := digits ++ List.replicate (k.toNat + 1 - digits.length) '0',
              fraction := ['0'] }, ?_, rfl, ?_, ?_⟩
    · refine ⟨by simp [hne], ?_, no_zero_append hz hne _, rfl, fun p hp => by cases hp⟩
      rw [List.all_append, hd, hzeros]
      rfl
    · simp [Spelling.chars, Spelling.signChars, Spelling.fractionChars, Spelling.powerChars,
        Layout.json]
    · apply Written.says_of_zero (by simp only; omega) _ (by simp [Spelling.written])
      show Numeral.natOfDigits (digits ++ List.replicate _ '0' ++ List.replicate 1 '0') = _
      rw [List.append_assoc, List.replicate_append_replicate, Numeral.natOfDigits_append_replicate_zero]
      congr 2
      simp only
      omega
  · have hsplit := List.take_append_drop (k.toNat + 1) digits
    have hw : digits.take (k.toNat + 1) ≠ [] := by simp [hne]
    have hf : digits.drop (k.toNat + 1) ≠ [] := by
      rw [ne_eq, List.drop_eq_nil_iff]
      omega
    refine ⟨{ whole := digits.take (k.toNat + 1), fraction := digits.drop (k.toNat + 1) }, ?_, rfl, ?_,
      Written.says_of_eq (by simp only [Spelling.written, hsplit]) ?_⟩
    · rw [← hsplit, List.all_append, Bool.and_eq_true] at hd
      refine ⟨hw, hd.1, fun h => ?_, hd.2, fun p hp => by cases hp⟩
      rw [← List.head?_append_of_ne_nil _ hw, hsplit] at h
      exact absurd h hz
    · simp [Spelling.chars, Spelling.signChars, Spelling.fractionChars, Spelling.powerChars]
      omega
    · simp [Spelling.written]
      omega

theorem exists_spelling_scientific {digits : List Char} (hne : digits ≠ [])
    (hd : digits.all Char.isDigit) (k : Int) :
    ∃ s : Spelling, s.IsValid ∧ s.negative = false ∧ Layout.scientificText digits k = s.chars ∧
      s.written.Says ⟨Numeral.natOfDigits digits, k + 1 - digits.length⟩ := by
  obtain ⟨first, more, rfl⟩ := List.exists_cons_of_ne_nil hne
  have hpower := Decimal.all_isDigit_digitChars k.natAbs
  have hpne := Decimal.digitChars_ne_nil k.natAbs
  rw [List.all_cons, Bool.and_eq_true] at hd
  refine ⟨{ whole := [first], fraction := more,
            power := some (decide (k < 0), Decimal.digitChars k.natAbs) }, ?_, rfl, ?_,
    Written.says_of_eq rfl ?_⟩
  · refine ⟨by simp, by simpa using hd.1, fun _ => rfl, hd.2, fun p hp => ?_⟩
    cases hp
    exact ⟨hpne, hpower⟩
  · cases more with
    | nil => simp [Layout.scientificText, Spelling.chars, Spelling.signChars, Spelling.fractionChars,
        Spelling.powerChars]
    | cons second more => simp [Layout.scientificText, Spelling.chars, Spelling.signChars,
        Spelling.fractionChars, Spelling.powerChars]
  · show (if decide (k < 0) then -(Numeral.natOfDigits (Decimal.digitChars k.natAbs) : Int)
      else Numeral.natOfDigits (Decimal.digitChars k.natAbs)) - more.length =
      k + 1 - (first :: more).length
    rw [Decimal.natOfDigits_digitChars, List.length_cons]
    simp only [decide_eq_true_eq]
    split <;> omega

/-- The decimal that the JSON layout writes for a finite magnitude. -/
def decimalOf (m : Magnitude) : Decimal :=
  if m = Magnitude.zero then ⟨0, 0⟩ else (Decimal.shortest Layout.json.tie m).trimmed

theorem exists_spelling_magnitude {m : Magnitude} (h : m ≠ Magnitude.infinity) :
    ∃ s : Spelling, s.IsValid ∧ s.negative = false ∧ Layout.json.magnitudeText m = s.chars ∧
      s.written.Says (decimalOf m) := by
  by_cases hz : m = Magnitude.zero
  · subst hz
    refine ⟨{ whole := ['0'], fraction := ['0'] }, ?_, rfl, rfl, Written.says_of_zero ?_ rfl rfl⟩
    · exact ⟨by simp, by decide, fun _ => rfl, by decide, fun p hp => by cases hp⟩
    · exact Int.le_refl 0
  · have hdigits := Layout.digits_shortest_ne_zero Layout.json.tie hz h
    have hne := Decimal.significant_ne_nil hdigits
    have hd := Decimal.all_isDigit_significant (Decimal.shortest Layout.json.tie m)
    rw [Layout.magnitudeText_of_ne_zero hz, Layout.decimalText_eq, decimalOf, if_neg hz]
    split
    · exact exists_spelling_positional hne hd (Decimal.head?_significant_ne hdigits) _
    · exact exists_spelling_scientific hne hd _

theorem Spelling.exists_negate {s : Spelling} (h : s.IsValid) (hn : s.negative = false) :
    ∃ s' : Spelling, s'.IsValid ∧ '-' :: s.chars = s'.chars ∧ s'.negative = true ∧
      s'.written.decimal = s.written.decimal := by
  refine ⟨{ s with negative := true }, ⟨h.1, h.2, h.3, h.4, h.5⟩, ?_, rfl, rfl⟩
  simp [chars, signChars, hn]

theorem exists_spelling_signed {negative : Bool} {m : Magnitude} (hm : m ≠ Magnitude.infinity) :
    ∃ s : Spelling, s.IsValid ∧ Layout.json.text (.signed negative m) = s.chars ∧
      s.negative = negative ∧ s.written.Says (decimalOf m) := by
  obtain ⟨s, hs, hneg, htext, hsays⟩ := exists_spelling_magnitude hm
  rw [Layout.text, if_neg hm, htext]
  cases negative with
  | true =>
    obtain ⟨s', hs', htext', hneg', hdecimal⟩ := Spelling.exists_negate hs hneg
    refine ⟨s', hs', htext', hneg', ?_⟩
    rwa [Written.Says, hdecimal]
  | false => exact ⟨s, hs, rfl, hneg, hsays⟩

theorem exists_spelling_float {x : Binary64} (h : x.isFinite) :
    ∃ s : Spelling, s.IsValid ∧ Layout.json.text x = s.chars := by
  cases x with
  | nan => cases h
  | signed negative m =>
    obtain ⟨s, hs, htext, -⟩ := exists_spelling_signed (of_decide_eq_true h)
    exact ⟨s, hs, htext⟩

theorem exists_spelling_digits (n : Nat) :
    ∃ s : Spelling, s.IsValid ∧ s.negative = false ∧ Decimal.digitChars n = s.chars := by
  refine ⟨{ whole := Decimal.digitChars n }, ?_, rfl, ?_⟩
  · refine ⟨Decimal.digitChars_ne_nil n, Decimal.all_isDigit_digitChars n, ?_, rfl,
      fun p hp => by cases hp⟩
    intro hz
    by_cases hn : n = 0
    · subst hn
      rfl
    · exact absurd hz (Decimal.head?_digitChars_ne hn)
  · simp [Spelling.chars, Spelling.signChars, Spelling.fractionChars, Spelling.powerChars]

theorem exists_spelling_integer (i : Int) :
    ∃ s : Spelling, s.IsValid ∧ (Number.integer i).text = s.chars := by
  obtain ⟨s, hs, hneg, htext⟩ := exists_spelling_digits i.natAbs
  rw [Number.text, htext]
  split
  · obtain ⟨s', hs', htext', -⟩ := Spelling.exists_negate hs hneg
    exact ⟨s', hs', htext'⟩
  · exact ⟨s, hs, rfl⟩

end Rulebook.Json
