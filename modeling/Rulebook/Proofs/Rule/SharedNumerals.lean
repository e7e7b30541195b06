import Rulebook.Proofs.Grammar.RoundTrip
import Rulebook.Proofs.Json.Containers
import Rulebook.Proofs.Json.ExactReading
import Rulebook.Proofs.Rule.Ordering
import Rulebook.Proofs.Rule.Readings

/-!
# Numerals that rules and facts share

A rule text and a JSON text may hold the same numeral. The rule takes it for the nearest number, and
the facts take it as the cheap reading of JSON numbers does. So a rule which says that a field equals
the numeral holds by facts which say the same exactly if both readings meet
(`judgeTexts_sharedNumeral`). They meet for whole numbers of 64 bits, and for all numerals whose digits
make a magnitude, at most 22 of them after the point. For longer numerals they may not.
-/

namespace Rulebook
open Grammar

/-- A numeral of rule text that is also a JSON number, with the parts that JSON finds in it. -/
structure Numeral.IsShared (cs : List Char) (w : Json.Written) : Prop where
  plain : Numeral.IsPlain cs
  scans : Json.Written.scan? cs = some (w, [])

theorem Binary64.same_signed_false {m n : Magnitude} :
    (signed false m).same (signed false n) ↔ signed false m = signed false n := by
  rw [same_iff, order, Option.some.injEq, Int.compare_eq_eq, signed.injEq, Fin.ext_iff]
  simp [place]

/-! ### The parts of a shared numeral -/

namespace Json.Written

theorem scanMinus_of_all {cs : List Char} (h : cs.all isNumberChar) : scanMinus cs = (false, cs) := by
  unfold scanMinus
  split
  · exact absurd (Numeral.isNumberChar_of_mem h List.mem_cons_self) (by decide)
  · rfl

theorem scanPower?_of_all {cs : List Char} {power : Option Int} (h : cs.all isNumberChar)
    (hscan : scanPower? cs = some (power, [])) : cs = [] ∧ power = none := by
  cases cs with
  | nil =>
    cases hscan
    exact ⟨rfl, rfl⟩
  | cons c cs =>
    have hc : ¬ (c = 'e' ∨ c = 'E') := by
      have hnumber := Numeral.isNumberChar_of_mem h List.mem_cons_self
      intro hletter
      obtain rfl | rfl := hletter <;> exact absurd hnumber (by decide)
    rw [scanPower?, if_neg hc] at hscan
    cases hscan

theorem eq_of_scanFraction? {cs fraction rest : List Char}
    (h : scanFraction? cs = some (fraction, rest)) :
    cs = Spelling.fractionChars fraction ++ rest ∧ fraction.all Char.isDigit := by
  unfold scanFraction? at h
  split at h
  · next ds =>
    simp only at h
    split_ifs at h with hne
    obtain ⟨rfl, rfl⟩ := Prod.mk.inj (Option.some.inj h)
    rw [Spelling.fractionChars, if_neg hne, List.cons_append, List.takeWhile_append_dropWhile]
    exact ⟨rfl, List.all_takeWhile⟩
  · cases h
    exact ⟨rfl, rfl⟩

/-- A JSON number of digits and points is digits, perhaps with a point and digits after it. -/
theorem parts_of_all {cs : List Char} {w : Written} (h : cs.all isNumberChar)
    (hscan : scan? cs = some (w, [])) :
    ∃ whole fraction, w = ⟨false, whole, fraction, none⟩ ∧
      cs = whole ++ Spelling.fractionChars fraction ∧ whole ≠ [] ∧ whole.all Char.isDigit ∧
      fraction.all Char.isDigit := by
  rw [scan?, scanMinus_of_all h] at hscan
  simp only at hscan
  split_ifs at hscan with hwhole
  simp only [Option.bind_eq_bind, Option.bind_eq_some_iff, Prod.exists] at hscan
  obtain ⟨fraction, after, hfraction, power, rest, hpower, hsame⟩ := hscan
  cases hsame
  obtain ⟨hdrop, hdigits⟩ := eq_of_scanFraction? hfraction
  have hparts := List.takeWhile_append_dropWhile (p := Char.isDigit) (l := cs)
  have hafter : after.all isNumberChar := by
    rw [← hparts, hdrop, List.all_append, List.all_append, Bool.and_eq_true, Bool.and_eq_true] at h
    exact h.2.2
  obtain ⟨rfl, rfl⟩ := scanPower?_of_all hafter hpower
  rw [List.append_nil] at hdrop
  exact ⟨_, fraction, rfl, by rw [← hdrop, hparts], fun hnil => hwhole (Or.inl hnil),
    List.all_takeWhile, hdigits⟩

/-- A number without a minus sign has a value without one. -/
theorem toBinary64_of_value? {w : Written} {n : Number} (hw : w.negative = false)
    (h : w.value? = some n) : ∃ m, n.toBinary64 = .signed false m := by
  unfold value? at h
  simp only [hw, Bool.false_eq_true, if_false] at h
  split_ifs at h
  · cases h
    exact ⟨_, rfl⟩
  · rw [Option.map_eq_some_iff] at h
    obtain ⟨m, -, rfl⟩ := h
    exact ⟨m, rfl⟩

end Json.Written

namespace Numeral.IsShared

variable {cs : List Char} {w : Json.Written}

theorem ne_nil (h : IsShared cs w) : cs ≠ [] := by
  intro hnil
  have hdigit := h.plain.hasDigit
  rw [hnil] at hdigit
  cases hdigit

theorem isTight (h : IsShared cs w) : Text.IsTight cs :=
  Text.isTight_of_all h.ne_nil fun _ hc =>
    not_isBlank_of_isNumberChar (isNumberChar_of_mem h.plain.numberChars hc)

theorem negative_eq (h : IsShared cs w) : w.negative = false := by
  obtain ⟨whole, fraction, rfl, -⟩ := Json.Written.parts_of_all h.plain.numberChars h.scans
  rfl

theorem power_eq (h : IsShared cs w) : w.power = none := by
  obtain ⟨whole, fraction, rfl, -⟩ := Json.Written.parts_of_all h.plain.numberChars h.scans
  rfl

theorem exponent_eq (h : IsShared cs w) : w.decimal.exponent = -(w.fraction.length : Int) := by
  rw [Json.Written.decimal, h.power_eq, Option.getD_none, Int.zero_sub]

/-- Rule text takes a shared numeral for the nearest number. -/
theorem read?_eq (h : IsShared cs w) : read? cs = some (.signed false w.decimal.nearest) := by
  obtain ⟨whole, fraction, rfl, rfl, hne, hwhole, hfraction⟩ :=
    Json.Written.parts_of_all h.plain.numberChars h.scans
  have hdecimal : decimal? (whole ++ Json.Spelling.fractionChars fraction) =
      some (Json.Written.decimal ⟨false, whole, fraction, none⟩) := by
    unfold Json.Spelling.fractionChars Json.Written.decimal
    split_ifs with hnil
    · rw [hnil, List.append_nil, decimal?_digits hne hwhole]
      rfl
    · rw [decimal?_point (Or.inl hne) hwhole hfraction, Option.getD_none, Int.zero_sub]
  rw [read?_of_all h.plain.numberChars, hdecimal, Option.map_some]

/-- JSON text takes a shared numeral for its value, if it has one. -/
theorem lex_eq (h : IsShared cs w) : Json.lex cs = [.number w.value?] := by
  obtain ⟨whole, fraction, -, rfl, hne, hwhole, -⟩ :=
    Json.Written.parts_of_all h.plain.numberChars h.scans
  obtain ⟨c, ds, rfl⟩ := List.exists_cons_of_ne_nil hne
  rw [List.all_cons, Bool.and_eq_true] at hwhole
  have hdigit : c.isDigit ∨ c = '-' := Or.inl hwhole.1
  obtain ⟨hmark, hspace⟩ := Json.punctuation?_eq_none (Or.inl hwhole.1)
  have hword := h.scans
  rw [List.cons_append] at hword ⊢
  rw [Json.lex_word hspace hmark (by rw [Json.scanWord?_of_spellingChar hdigit, hword]; rfl)]
  rfl

end Numeral.IsShared

/-! ### A rule and facts that hold one numeral -/

/-- The text of the rule that a field equals what a numeral says. -/
def equationText (x d : String) : String := x ++ " = " ++ d

/-- The JSON text of the facts that a field is what a numeral says. -/
def factText (x d : String) : String := "\x7b\"" ++ x ++ "\": " ++ d ++ "\x7d"

/-- Judges the rule that one text spells by the facts that another one states. -/
def Rule.judgeTexts (limits : Limits) (ruleText factsText : String) : Except Fault Bool := do
  let r ← Rule.parse limits ruleText
  let facts ← Facts.parse factsText
  r.judge facts

section

variable {limits : Limits} {x d : String} {w : Json.Written}

theorem value_of_isShared {cs : List Char} (h : Numeral.IsShared cs w) {p : Place}
    (hp : p.rest = ' ' :: cs) :
    ∃ q, Grammar.value p = .ok (.number (.signed false w.decimal.nearest), q) ∧ q.rest = [] := by
  have htrim : Lexeme.trimSpaces p.rest = cs ++ [] := by
    rw [hp, Lexeme.trimSpaces_space, ← Lexeme.trimSpaces_append h.isTight [], List.append_nil]
  obtain ⟨q, hq, hrest⟩ := Place.next?_of_front? (l := .numeral cs) htrim
    (Lexeme.front?_numeral h.ne_nil h.plain.numberChars rfl)
  exact ⟨q, value_eq_ok_number.2 ⟨cs, hq, h.read?_eq⟩, hrest⟩

theorem parse_equationText (hlimits : 0 < limits.terms) (hx : IsFieldName x)
    (h : Numeral.IsShared d.toList w) :
    Rule.parse limits (equationText x d) =
      .ok (.comparison .equal x (.number (.signed false w.decimal.nearest))) := by
  have htext : (equationText x d).toList =
      x.toList ++ ' ' :: (Comparison.equal.symbol.toList ++ ' ' :: d.toList) := by
    simp [equationText, Comparison.symbol]
  have htight : Text.IsTight (equationText x d).toList := by
    rw [htext]
    exact hx.isTight.space_append (Comparison.equal.isTight_symbol.space_append h.isTight)
  have hstart : Lexeme.trimSpaces (equationText x d).toList =
      x.toList ++ ' ' :: (Comparison.equal.symbol.toList ++ ' ' :: d.toList) := by
    rw [htext, Lexeme.trimSpaces_append hx.isTight]
  rw [Rule.parse, Outcome.mapError_eq_ok, Rule.read_eq_ok, Text.squeeze_of_isTight htight]
  obtain ⟨q, hrun, hrest, -⟩ := exists_run_comparison_of_value
    (p := { rest := (equationText x d).toList }) limits.depth hx hlimits
    (fun _ => value_of_isShared h) hstart
  exact ⟨q, .single hrun, Place.next?_eq_none.2 (by rw [hrest]; rfl)⟩

theorem escapeChar_of_isFieldChar {c : Char} (h : isFieldChar c) : Json.escapeChar c = [c] := by
  have hlarge : ¬ c.toNat < 0x20 := by
    obtain hc | hc | rfl := isFieldChar_iff.1 h
    · omega
    · omega
    · decide
  unfold Json.escapeChar
  split <;> first | exact absurd h (by decide) | exact if_neg hlarge

theorem quote_of_isFieldName (hx : IsFieldName x) : Json.quote x.toList = '"' :: (x.toList ++ ['"']) := by
  have hescape : x.toList.flatMap Json.escapeChar = x.toList := by
    have hsingle : ∀ c ∈ x.toList, Json.escapeChar c = [c] := fun c hc =>
      escapeChar_of_isFieldChar (List.all_eq_true.1 hx.fieldChars c hc)
    rw [List.flatMap_congr hsingle, List.flatMap_singleton']
  rw [Json.quote, hescape]

theorem lex_factText (hx : IsFieldName x) (h : Numeral.IsShared d.toList w) :
    Json.lex (factText x d).toList =
      [.openBrace, .string (some x), .colon, .number w.value?, .closeBrace] := by
  have hmember := Json.memberText_quote x (' ' :: d.toList)
  have hvalue : Json.lex (' ' :: d.toList) = [.number w.value?] := by
    rw [Json.lex_space rfl, h.lex_eq]
  have htext : (factText x d).toList = Json.objectText [Json.quote x.toList ++ ':' :: ' ' :: d.toList] := by
    rw [quote_of_isFieldName hx, Json.objectText, List.intercalate_singleton]
    simp [factText]
  have hlex := hmember.lex_eq
  rw [hvalue] at hlex
  rw [htext, Json.lex_objectText (by simp [hlex]), List.map_singleton, List.intercalate_singleton, hlex]
  rfl

/-- The facts hold what the cheap reading makes of the numeral, and cannot be read if it makes nothing
of it. -/
theorem parse_factText (hx : IsFieldName x) (h : Numeral.IsShared d.toList w) :
    Facts.parse (factText x d) = match w.value? with
      | some n => .ok (Facts.ofMembers [(x, .number n)])
      | none => .error .notJson := by
  have hlex := lex_factText hx h
  cases hvalue : w.value? with
  | some n =>
    rw [hvalue] at hlex
    have hread : Json.ofText (factText x d) = .ok (.object [(x, .number n)]) :=
      Json.ofText_eq_ok.2 ⟨hlex, by simp [Json.depth, Json.depthOfMembers, Json.usualRoom]⟩
    rw [Facts.parse, Json.parse, hread]
    rfl
  | none =>
    rw [Facts.parse, Json.parse]
    cases hread : Json.ofText (factText x d) with
    | error e => rfl
    | ok j =>
      rw [Json.ofText_eq_ok, hlex, hvalue] at hread
      have hmem : Json.Token.number none ∈ j.tokens := by
        rw [← hread.1]
        simp
      cases Json.denotes_of_mem_tokens hmem

theorem judgeTexts_eq (hlimits : 0 < limits.terms) (hx : IsFieldName x)
    (h : Numeral.IsShared d.toList w) :
    Rule.judgeTexts limits (equationText x d) (factText x d) = match w.value? with
      | some n => .ok (n.toBinary64.same (.signed false w.decimal.nearest))
      | none => .error .notJson := by
  rw [Rule.judgeTexts, parse_equationText hlimits hx h, parse_factText hx h]
  cases w.value? with
  | none => rfl
  | some n =>
    have hfind : (Facts.ofMembers [(x, .number n)]).find? x = some (.number n.toBinary64) :=
      (Table.find?_insert Table.empty x x _).trans (if_pos rfl)
    show Rule.judge (Facts.ofMembers [(x, .number n)]) _ = _
    rw [Rule.judge, hfind]
    exact congrArg Except.ok (Comparison.holds_equal_number _ _)

/-- A rule which says that a field equals a numeral holds by facts which say the same exactly if JSON
text and rule text read the numeral as one number, and it is judged unless JSON text has no number for
the numeral. So it holds for whole numbers of 64 bits, and if the digits of the numeral make a magnitude
and at most 22 of them stand after the point. -/
theorem judgeTexts_sharedNumeral (hlimits : 0 < limits.terms) (hx : IsFieldName x)
    (h : Numeral.IsShared d.toList w) (hfinite : w.decimal.nearest ≠ Magnitude.infinity) :
    (Rule.judgeTexts limits (equationText x d) (factText x d) = .ok true ↔
      w.value?.map Json.Number.toBinary64 = Numeral.read? d.toList) ∧
    (Rule.judgeTexts limits (equationText x d) (factText x d) = .error .notJson ↔
      w.value? = none) ∧
    (w.fraction = [] ∧ w.decimal.digits ≤ Json.Written.greatest ∨
        Magnitude.IsExact w.decimal.digits ∧ w.decimal.digits ≤ Json.Written.greatest ∧
          w.fraction.length ≤ 22 →
      Rule.judgeTexts limits (equationText x d) (factText x d) = .ok true) := by
  have hjudged := judgeTexts_eq hlimits hx h
  have hholds : Rule.judgeTexts limits (equationText x d) (factText x d) = .ok true ↔
      w.value?.map Json.Number.toBinary64 = Numeral.read? d.toList := by
    rw [hjudged, h.read?_eq]
    cases hvalue : w.value? with
    | none => simp
    | some n =>
      obtain ⟨m, hm⟩ := Json.Written.toBinary64_of_value? h.negative_eq hvalue
      show Except.ok (n.toBinary64.same _) = Except.ok true ↔ _
      rw [Except.ok.injEq, hm, Binary64.same_signed_false, Option.map_some, Option.some.injEq, hm]
  refine ⟨hholds, ?_, fun hclass => hholds.2 ?_⟩
  · rw [hjudged]
    cases w.value? <;> simp
  · obtain ⟨n, hn, hvalue⟩ : ∃ n, w.value? = some n ∧
        n.toBinary64 = .signed w.negative w.decimal.nearest := by
      obtain ⟨hfraction, hle⟩ | ⟨hexact, hle, hlength⟩ := hclass
      · exact Json.Written.value?_of_integer hfraction h.power_eq hle
      · exact Json.Written.value?_of_isExact hexact hle (by rw [h.exponent_eq]; omega) hfinite
    rw [hn, h.read?_eq, Option.map_some, hvalue, h.negative_eq]

theorem judgeTexts_sharedNumeral_fifteen :
    ∃ w, Numeral.IsShared "1234567890.12345".toList w ∧
      Rule.judgeTexts {} (equationText "a" "1234567890.12345") (factText "a" "1234567890.12345") =
        .ok true := by
  have h : Numeral.IsShared "1234567890.12345".toList
      ⟨false, "1234567890".toList, "12345".toList, none⟩ :=
    ⟨⟨by decide, by decide, by decide⟩, by decide +kernel⟩
  obtain ⟨-, -, hclass⟩ := @judgeTexts_sharedNumeral {} "a" _ _ (by decide)
    ⟨by decide, by decide⟩ h (by decide +kernel)
  exact ⟨_, h, hclass (Or.inr ⟨Magnitude.isExact_of_lt (by decide +kernel), by decide +kernel,
    by decide⟩)⟩

/-- Facts hold a neighbour of the number in the rule for a numeral of seventeen digits, and for one of
nine digits with zeros at its end. For a numeral near the greatest number they cannot be read. -/
theorem judgeTexts_long_numerals :
    (∀ d ∈ ["1.7976931348623157", "9243657.330000000000"],
      ∃ w, Numeral.IsShared d.toList w ∧ w.decimal.nearest ≠ Magnitude.infinity ∧
        Rule.judgeTexts {} (equationText "a" d) (factText "a" d) = .ok false) ∧
    ∃ d w, d = String.ofList ("17976931348623157".toList ++ List.replicate 292 '0') ∧
      Numeral.IsShared d.toList w ∧ w.decimal.nearest ≠ Magnitude.infinity ∧
      Rule.judgeTexts {} (equationText "a" d) (factText "a" d) = .error .notJson := by
  have hx : IsFieldName "a" := ⟨by decide, by decide⟩
  constructor
  · intro d hd
    obtain rfl | rfl : d = "1.7976931348623157" ∨ d = "9243657.330000000000" := by simpa using hd
    · have h : Numeral.IsShared "1.7976931348623157".toList
          ⟨false, "1".toList, "7976931348623157".toList, none⟩ :=
        ⟨⟨by decide, by decide, by decide⟩, by decide +kernel⟩
      refine ⟨_, h, by decide +kernel, ?_⟩
      rw [judgeTexts_eq (by decide) hx h]
      exact Rule.toOption_eq_some.1 (by decide +kernel)
    · have h : Numeral.IsShared "9243657.330000000000".toList
          ⟨false, "9243657".toList, "330000000000".toList, none⟩ :=
        ⟨⟨by decide, by decide, by decide⟩, by decide +kernel⟩
      refine ⟨_, h, by decide +kernel, ?_⟩
      rw [judgeTexts_eq (by decide) hx h]
      exact Rule.toOption_eq_some.1 (by decide +kernel)
  · let cs := "17976931348623157".toList ++ List.replicate 292 '0'
    have h : Numeral.IsShared (String.ofList cs).toList ⟨false, cs, [], none⟩ := by
      rw [String.toList_ofList]
      exact ⟨⟨by decide +kernel, by decide +kernel, by decide +kernel⟩, by decide +kernel⟩
    have hvalue : Json.Written.value? ⟨false, cs, [], none⟩ = none := by decide +kernel
    refine ⟨_, _, rfl, h, by decide +kernel, ?_⟩
    rw [judgeTexts_eq (by decide) hx h, hvalue]

end

end Rulebook
