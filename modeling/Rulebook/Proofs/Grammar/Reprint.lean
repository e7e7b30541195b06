import Rulebook.Proofs.Grammar.RoundTrip

/-!
# Printing what was read

A rule that was read fits the limits under which it was read (`Rule.fits_of_parse`): its fields and
texts are spellable, no number in it has a minus sign, it has no more comparisons than the limits
allow, and its own text opens no more parentheses than the text it was read from. So its text is read
as the same rule under the same limits exactly if its numbers are finite (`parse_text_of_parse`): a
numeral that is too large reads as infinity, for which rule text has no spelling.
-/

namespace Rulebook
open Grammar

/-! ### Numbers of rule text -/

/-- A value whose number, if it is one, has no minus sign. -/
def Value.IsUnsigned : Value → Prop
  | number x => ∃ m, x = .signed false m
  | text _ => True

/-- A value whose number, if it is one, is finite. -/
def Value.IsFinite : Value → Prop
  | number x => x.isFinite
  | text _ => True

theorem Value.isSpellable_iff {v : Value} (hq : v.IsQuotable) (hu : v.IsUnsigned) :
    v.IsSpellable ↔ v.IsFinite := by
  cases v with
  | text s => exact ⟨fun _ => trivial, fun _ => hq⟩
  | number x =>
    obtain ⟨m, rfl⟩ := hu
    constructor
    · rintro ⟨n, hn, hfinite⟩
      cases hn
      exact decide_eq_true hfinite
    · intro hfinite
      exact ⟨m, rfl, of_decide_eq_true hfinite⟩

theorem Value.isUnsigned_of_value {p q : Place} {v : Value} (h : Grammar.value p = .ok (v, q)) :
    v.IsUnsigned := by
  cases v with
  | text s => exact trivial
  | number x =>
    obtain ⟨digits, hnext, hread⟩ := value_eq_ok_number.1 h
    rw [Numeral.read?_of_all (Place.all_of_next?_numeral hnext), Option.map_eq_some_iff] at hread
    obtain ⟨d, -, rfl⟩ := hread
    exact ⟨d.nearest, rfl⟩

namespace Rule

/-- Every number in a rule is finite. -/
def IsFinite (r : Rule) : Prop := r.ForAll fun _ _ value => value.IsFinite

/-- A rule that rule text can spell, were it not for infinite numbers. -/
structure IsReadable (r : Rule) : Prop where
  isQuotable : r.IsQuotable
  isUnsigned : r.ForAll fun _ _ value => value.IsUnsigned

theorem IsReadable.isSpellable_iff {r : Rule} (h : r.IsReadable) : r.IsSpellable ↔ r.IsFinite := by
  obtain ⟨hq, hu⟩ := h
  induction r with
  | comparison c f v =>
    have hvalue := Value.isSpellable_iff hq.2 hu
    exact ⟨fun hs => hvalue.1 hs.2, fun hfinite => ⟨hq.1, hvalue.2 hfinite⟩⟩
  | join c a b iha ihb => exact and_congr (iha hq.1 hu.1) (ihb hq.2 hu.2)

end Rule

/-! ### What a run finds -/

section

variable {limits : Limits} {part : Part} {room : Nat} {p q : Place} {r : Rule}

theorem Grammar.Run.isUnsigned (h : Run limits part room p r q) :
    r.ForAll fun _ _ value => value.IsUnsigned := by
  induction h with
  | comparison _ _ _ hv => exact Value.isUnsigned_of_value hv
  | group _ _ _ _ ih => exact ih
  | single _ ih => exact ih
  | join _ _ _ ih₁ ih₂ => exact ⟨ih₁, ih₂⟩

theorem Grammar.Run.terms_eq (h : Run limits part room p r q) : q.terms = p.terms + r.count := by
  induction h with
  | comparison _ hf hc hv =>
    show _ + 1 = _ + 1
    rw [terms_of_value hv, Place.next?_terms hc, Place.next?_terms hf]
  | group ho _ _ hclose ih => rw [closing_terms hclose, ih, Place.next?_terms ho]
  | single _ ih => exact ih
  | join _ hc _ ih₁ ih₂ =>
    rw [ih₂, Place.next?_terms (connective?_eq_some.1 hc), ih₁, Nat.add_assoc]
    rfl

theorem Rule.textNesting_le_rightNesting (r : Rule) : r.textNesting ≤ r.rightNesting := by
  cases r with
  | comparison => rw [textNesting, rightNesting]
  | join => exact Nat.le_succ _

/-- A term may stand on the right of a connective as it is, so there its text needs no more
parentheses than the reader has opened for it. -/
theorem Grammar.Run.nesting_le (h : Run limits part room p r q) :
    match part with
    | .term => r.rightNesting ≤ room
    | .chain => r.textNesting ≤ room := by
  induction h with
  | comparison => exact Nat.zero_le _
  | @group room p p₁ p₂ q r _ _ _ _ ih =>
    cases r with
    | comparison => exact Nat.zero_le _
    | join => exact Nat.succ_le_succ ih
  | single _ ih => exact (Rule.textNesting_le_rightNesting _).trans ih
  | join _ _ _ ih₁ ih₂ =>
    show Rule.textNesting _ ≤ _
    rw [Rule.textNesting_join]
    exact Nat.max_le.2 ⟨ih₁, ih₂⟩

end

/-! ### Rules within limits -/

namespace Rule

variable {limits : Limits} {r : Rule}

/-- A rule that can be read under some limits, were it not for infinite numbers. -/
structure Fits (limits : Limits) (r : Rule) : Prop where
  isReadable : r.IsReadable
  count_le : r.count ≤ limits.terms
  nesting_le : r.textNesting ≤ limits.depth

theorem fits_of_parse {text : String} (h : parse limits text = .ok r) : r.Fits limits := by
  rw [parse, Outcome.mapError_eq_ok, read_eq_ok] at h
  obtain ⟨q, hrun, -⟩ := h
  have hterms := hrun.terms_le
  rw [hrun.terms_eq, Nat.zero_add] at hterms
  exact ⟨⟨hrun.isQuotable (Text.isSpaced_squeeze _), hrun.isUnsigned⟩, hterms, hrun.nesting_le⟩

/-- The text of a rule is read as the same rule. -/
def Reparses (limits : Limits) (r : Rule) : Prop :=
  ∃ m, parse limits r.text = .ok m ∧ m.same r

theorem same_self_of_isSpellable (h : r.IsSpellable) : r.same r :=
  same_self (h.mono fun _ _ _ hv => Value.same_of_isSpellable hv.2)

theorem Fits.parse_text (h : r.Fits limits) (hfinite : r.IsFinite) :
    parse limits r.text = .ok r := by
  have hs := h.isReadable.isSpellable_iff.2 hfinite
  have hp := trimSpaces_chars_nil hs.isQuotable
  have hterms : 0 + r.count ≤ limits.terms := by
    rw [Nat.zero_add]
    exact h.count_le
  obtain ⟨q, hrun, hrest, -⟩ :=
    exists_run (p := { rest := r.chars }) hs h.nesting_le hterms stops_nil hp
  rw [parse, Outcome.mapError_eq_ok, read_eq_ok, squeeze_text hs.isQuotable]
  refine ⟨q, hrun, Place.next?_eq_none.2 ?_⟩
  rw [hrest]
  rfl

theorem IsReadable.reparses_iff (h : r.IsReadable) :
    r.Reparses limits ↔ r.IsFinite ∧ r.count ≤ limits.terms ∧ r.textNesting ≤ limits.depth := by
  constructor
  · rintro ⟨m, hm, hsame⟩
    rw [parse, Outcome.mapError_eq_ok, read_eq_ok, squeeze_text h.isQuotable] at hm
    obtain ⟨q, hrun, -⟩ := hm
    have hs := hrun.spelled hsame h.isQuotable stops_nil (trimSpaces_chars_nil h.isQuotable)
    have hterms := hrun.terms_le
    rw [hs.terms_eq, Nat.zero_add] at hterms
    exact ⟨h.isSpellable_iff.1 hs.isSpellable, hterms, hs.nesting_le⟩
  · rintro ⟨hfinite, hcount, hnesting⟩
    exact ⟨r, Fits.parse_text ⟨h, hcount, hnesting⟩ hfinite,
      same_self_of_isSpellable (h.isSpellable_iff.2 hfinite)⟩

theorem Fits.reparses_iff (h : r.Fits limits) : r.Reparses limits ↔ r.IsFinite := by
  rw [h.isReadable.reparses_iff]
  exact ⟨fun hr => hr.1, fun hfinite => ⟨hfinite, h.count_le, h.nesting_le⟩⟩

end Rule

/-- Whatever text a rule was read from, its own text is read as the same rule under the same limits
exactly if its numbers are finite, and then as this very rule. -/
theorem parse_text_of_parse {limits : Limits} {text : String} {r : Rule}
    (h : Rule.parse limits text = .ok r) :
    (r.Reparses limits ↔ r.IsFinite) ∧ (r.IsFinite → Rule.parse limits r.text = .ok r) := by
  have hfits := Rule.fits_of_parse h
  exact ⟨hfits.reparses_iff, hfits.parse_text⟩

theorem parse_text_of_parse_lenient :
    let limits : Limits := { depth := 1, terms := 2, lenient := true }
    let r : Rule := .join .or (.comparison .equal "AND" (.number (.signed false (Magnitude.nearest 5 2))))
      (.comparison .atLeast "b" (.text "x y"))
    Rule.parse limits "AND=2.5 OR(b >= 'x   y'" = .ok r ∧ r.Reparses limits := by
  intro limits r
  have hread : Rule.read limits "AND=2.5 OR(b >= 'x   y'" = .ok r := by decide +kernel
  have hparse : Rule.parse limits "AND=2.5 OR(b >= 'x   y'" = .ok r := Outcome.mapError_eq_ok.2 hread
  have hnumber : (Binary64.signed false (Magnitude.nearest 5 2)).isFinite := by decide +kernel
  exact ⟨hparse, (parse_text_of_parse hparse).1.2 ⟨hnumber, trivial⟩⟩

/-- A numeral of 310 digits is read as infinity. -/
theorem parse_overflow :
    Rule.parse {} (String.ofList ("a = 1".toList ++ List.replicate 309 '0')) =
      .ok (.comparison .equal "a" (.number (.signed false Magnitude.infinity))) := by
  apply Outcome.mapError_eq_ok.2
  rw [Rule.read, String.toList_ofList]
  decide +kernel

/-- The text of infinity is no numeral. -/
theorem not_reparses_of_overflow :
    ∃ r, Rule.parse {} (String.ofList ("a = 1".toList ++ List.replicate 309 '0')) = .ok r ∧
      r.text = "a = inf" ∧ Rule.read {} r.text = .error ⟨4, .noValue (some 'i')⟩ ∧
      ¬ r.Reparses {} := by
  refine ⟨_, parse_overflow, ?_⟩
  generalize hr : Rule.comparison .equal "a" (.number (.signed false Magnitude.infinity)) = r
  have htext : r.text = "a = inf" := by
    rw [← hr, Rule.text, Rule.chars]
    decide +kernel
  have hagain : Rule.read {} r.text = .error ⟨4, .noValue (some 'i')⟩ := by
    rw [htext]
    decide +kernel
  refine ⟨htext, hagain, ?_⟩
  rintro ⟨m, hm, -⟩
  rw [Rule.parse, Outcome.mapError_eq_ok, hagain] at hm
  cases hm

end Rulebook
