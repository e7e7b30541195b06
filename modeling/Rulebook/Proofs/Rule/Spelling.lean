import Rulebook.Proofs.Number.Printed
import Rulebook.Proofs.Rule.Comparisons
import Rulebook.Proofs.Text.Spacing
import Rulebook.Rule.Text

/-!
# What rule text can spell

Not every rule can be read back from its text: rule text has no escapes, squeezes blanks, and knows
no sign. `Rule.IsSpellable` says of which rules the text says all. The text of a rule whose fields and
texts are spellable is tight, whatever its numbers are (`Rule.isTight_chars`), so squeezing it changes
nothing.
-/

namespace Rulebook
open Grammar

/-- A field that rule text can name: field characters, at least one. -/
structure IsFieldName (s : String) : Prop where
  ne_nil : s.toList ≠ []
  fieldChars : s.toList.all isFieldChar

/-- A text that rule text can hold between apostrophes. -/
structure IsQuotable (s : String) : Prop where
  noQuote : '\'' ∉ s.toList
  spaced : Text.IsSpaced s.toList

/-- A value that rule text can spell. -/
def Value.IsSpellable : Value → Prop
  | number x => x.IsPrintable
  | text s => IsQuotable s

/-- A value that rule text can spell unless it is a number. -/
def Value.IsQuotable : Value → Prop
  | number _ => True
  | text s => Rulebook.IsQuotable s

theorem Value.IsSpellable.isQuotable {v : Value} (h : v.IsSpellable) : v.IsQuotable := by
  cases v with
  | number x => exact trivial
  | text s => exact h

namespace Rule

/-- A rule that rule text can spell. -/
def IsSpellable (r : Rule) : Prop := r.ForAll fun _ field value => IsFieldName field ∧ value.IsSpellable

/-- A rule that rule text can spell as far as it has no numbers. -/
def IsQuotable (r : Rule) : Prop := r.ForAll fun _ field value => IsFieldName field ∧ value.IsQuotable

/-- The number of parentheses that are open at once in the text of a rule: none for a comparison, and
one more on the right of a connective, if a joined rule stands there. -/
def textNesting : Rule → Nat
  | comparison .. => 0
  | join _ left right@(join ..) => max left.textNesting (right.textNesting + 1)
  | join _ left (comparison ..) => left.textNesting

/-- The number of parentheses that are open at once where a rule stands on the right of a connective.
-/
def rightNesting : Rule → Nat
  | comparison .. => 0
  | join c left right => (join c left right).textNesting + 1

theorem textNesting_join (c : Connective) (left right : Rule) :
    (join c left right).textNesting = max left.textNesting right.rightNesting := by
  cases right with
  | comparison => rw [textNesting, rightNesting, Nat.max_zero]
  | join => rw [textNesting, rightNesting]

theorem IsSpellable.isQuotable {r : Rule} (h : r.IsSpellable) : r.IsQuotable := by
  apply h.mono
  rintro c f v ⟨hf, hv⟩
  exact ⟨hf, hv.isQuotable⟩

end Rule

/-! ### Tight texts -/

theorem IsFieldName.isTight {s : String} (h : IsFieldName s) : Text.IsTight s.toList :=
  Text.isTight_of_all h.ne_nil fun c hc =>
    not_isBlank_of_isFieldChar (List.all_eq_true.1 h.fieldChars c hc)

theorem Comparison.isTight_symbol (c : Comparison) : Text.IsTight c.symbol.toList := by
  apply Text.isTight_of_any <;> cases c <;> decide

theorem Connective.isTight_symbol (c : Connective) : Text.IsTight c.symbol.toList := by
  apply Text.isTight_of_any <;> cases c <;> decide

theorem Layout.isTight_magnitudeText {m : Magnitude} (h : m ≠ Magnitude.infinity) :
    Text.IsTight (rule.magnitudeText m) := by
  have hn := all_isNumberChar_magnitudeText m
  have hne : rule.magnitudeText m ≠ [] := by
    rw [← text_of_isPrintable h]
    exact text_ne_nil ⟨m, rfl, h⟩
  exact Text.isTight_of_all hne fun c hc =>
    not_isBlank_of_isNumberChar (List.all_eq_true.1 hn c hc)

theorem Layout.isTight_text (x : Binary64) : Text.IsTight (rule.text x) := by
  cases x with
  | nan => exact Text.isTight_of_any (by decide) (by decide)
  | signed negative m =>
    rw [text]
    split_ifs with hi hneg
    · cases negative <;> exact Text.isTight_of_any (by decide) (by decide)
    · have hsign : Text.IsTight ['-'] := Text.isTight_of_any (by decide) (by decide)
      exact hsign.append (isTight_magnitudeText hi)
    · exact isTight_magnitudeText hi

theorem Value.isTight_chars {v : Value} (h : v.IsQuotable) : Text.IsTight v.chars := by
  cases v with
  | number x => exact Layout.isTight_text x
  | text s => exact h.spaced.enclose (by decide) (by decide)

namespace Rule

/-- The text of the rule on the right of a connective. -/
def rightChars : Rule → List Char
  | r@(join ..) => '(' :: (r.chars ++ [')'])
  | r => r.chars

theorem chars_join (c : Connective) (l r : Rule) :
    (join c l r).chars = l.chars ++ ' ' :: (c.symbol.toList ++ ' ' :: r.rightChars) := by
  cases r <;> simp only [chars, rightChars]

theorem isTight_chars {r : Rule} (h : r.IsQuotable) : Text.IsTight r.chars := by
  induction r with
  | comparison c f v =>
    have hv := Value.isTight_chars h.2
    rw [chars]
    exact h.1.isTight.space_append (c.isTight_symbol.space_append hv)
  | join c l r ihl ihr =>
    have hright : Text.IsTight r.rightChars := by
      have hr := ihr h.2
      cases r with
      | comparison d f v => exact hr
      | join d a b => exact hr.spaced.enclose (by decide) (by decide)
    rw [chars_join]
    exact (ihl h.1).space_append (c.isTight_symbol.space_append hright)

/-- Squeezing the text of a rule with spellable fields and texts changes nothing. -/
theorem squeeze_text {r : Rule} (h : r.IsQuotable) : Text.squeeze r.text.toList = r.chars := by
  rw [text, String.toList_ofList]
  exact Text.squeeze_of_isTight (isTight_chars h)

end Rule

end Rulebook
