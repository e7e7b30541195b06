import Rulebook.Catalog
import Rulebook.Memo
import Rulebook.Proofs.Grammar.Leniency
import Rulebook.Proofs.Grammar.Visits
import Rulebook.Proofs.Rule.Readings
import Rulebook.Proofs.Text.Words

/-!
# The wording of a rule text

A rule text is read by its words: texts with the same words are read alike, and so is the text that the
words make with single spaces between them. A memo, a catalog and the reader look each for itself whether
a text is blank. They agree about it, so a memo and a catalog ask the reader only about texts with words,
and neither ever answers that there is no rule (`parse_words`).
-/

namespace Rulebook

variable {limits : Limits} {text : String} {f : Fault}

theorem Rule.parse_congr {other : String}
    (h : Text.squeeze other.toList = Text.squeeze text.toList) :
    Rule.parse limits other = Rule.parse limits text := by
  rw [parse, parse, read, read, h]

/-! ### Texts without a rule -/

/-- A syntax error by which there is no rule in a text. -/
def Fault.SaysNoRule (f : Fault) : Prop := ∃ o, f = .grammar o ∧ o.snag.message = "Empty rule"

/-- No other snag has the words of a missing rule. -/
theorem Snag.message_eq_noRule_iff {snag : Snag} : snag.message = "Empty rule" ↔ snag = .noRule := by
  constructor
  · intro h
    have hopening := Snag.opening_prefix h
    cases snag with
    | noRule => rfl
    | _ => exact absurd hopening (by simp only [opening]; decide)
  · rintro rfl
    rfl

theorem Fault.SaysNoRule.kind_eq (h : f.SaysNoRule) : f.kind = .grammar := by
  obtain ⟨o, rfl, -⟩ := h
  rfl

/-- The reader finds no rule in a text exactly if nothing is left of the text when it is squeezed. -/
theorem Rule.exists_saysNoRule_iff :
    (∃ f, Rule.parse limits text = .error f ∧ f.SaysNoRule) ↔ Text.squeeze text.toList = [] := by
  constructor
  · rintro ⟨f, hparse, o, rfl, hmessage⟩
    obtain ⟨hempty, -⟩ | ⟨v, -, hmeets⟩ := Rule.visit_of_read (Rule.parse_eq_grammar.1 hparse)
    · exact hempty
    · exact absurd (Snag.message_eq_noRule_iff.1 hmessage) hmeets.snag_ne
  · intro hempty
    refine ⟨.grammar ⟨0, .noRule⟩, Rule.parse_eq_grammar.2 ?_, _, rfl, rfl⟩
    rw [Rule.read, hempty]
    rfl

theorem Text.isAllBlank_iff {s : String} : isAllBlank s ↔ trim s.toList = [] := List.isEmpty_iff

theorem Rule.not_saysNoRule (hblank : ¬ Text.isAllBlank text)
    (h : Rule.parse limits text = .error f) : ¬ f.SaysNoRule := by
  intro hsays
  have hempty := Rule.exists_saysNoRule_iff.1 ⟨f, h, hsays⟩
  exact hblank (Text.isAllBlank_iff.2 (Text.squeeze_eq_nil_iff.1 hempty))

/-- Judging the rule of a text adds no fault of that kind. -/
theorem Rule.not_saysNoRule_of_judge {x : Except Fault Rule} {facts : Facts}
    (hx : ∀ f, x = .error f → ¬ f.SaysNoRule) (h : x.bind (Rule.judge facts) = .error f) :
    ¬ f.SaysNoRule := by
  cases x with
  | error g =>
    cases h
    exact hx f rfl
  | ok r =>
    intro hsays
    cases hsays.kind_eq.symm.trans (Rule.faultsInJudgement_judge facts r f h)

/-! ### Memos and catalogs -/

theorem Memo.parse_eq_error {m : Memo} (h : (m.parse text).1 = .error f) :
    Rule.parse {} text = .error f := by
  unfold Memo.parse at h
  cases hfind : m.rules.find? text with
  | some rule =>
    rw [hfind] at h
    cases h
  | none =>
    rw [hfind] at h
    cases hparse : Rule.parse {} text with
    | ok rule =>
      rw [hparse] at h
      cases h
    | error g =>
      rw [hparse] at h
      exact h

theorem Memo.check_not_saysNoRule {m : Memo} {facts : Facts}
    (h : (m.check text facts).1 = .error f) : ¬ f.SaysNoRule := by
  unfold Memo.check at h
  split_ifs at h with hblank
  exact Rule.not_saysNoRule_of_judge
    (fun g hg => Rule.not_saysNoRule hblank (Memo.parse_eq_error hg)) h

theorem Memo.checkWith_not_saysNoRule {m : Memo} {settings : Settings} {facts : Facts}
    (h : (m.checkWith settings text facts).1 = .error f) : ¬ f.SaysNoRule := by
  unfold Memo.checkWith at h
  split_ifs at h with hserves hblank
  · exact Memo.check_not_saysNoRule h
  · exact Rule.not_saysNoRule_of_judge (fun g hg => Rule.not_saysNoRule hblank hg) h

theorem Catalog.newEntry_not_saysNoRule {c : Catalog} {fresh : Identifier} {now : Instant}
    {name : String} {description : Option String}
    (h : c.newEntry fresh now name description text = .error f) : ¬ f.SaysNoRule := by
  unfold Catalog.newEntry at h
  by_cases hmissing : missingParts name text = []
  · have hblank : ¬ Text.isAllBlank text := by
      intro hblank
      simp [missingParts, hblank] at hmissing
    simp only [hmissing, List.isEmpty_nil, if_true, Outcome.bind_eq_error] at h
    obtain hparse | ⟨r, -, hr⟩ := h
    · exact Rule.not_saysNoRule hblank hparse
    · cases hr
  · simp only [List.isEmpty_iff, hmissing, if_false] at h
    cases h
    exact fun hsays => by cases hsays.kind_eq

/-- A rule text is read by its words, which are its maximal runs of characters that are not blank: the
squeezed text consists of them with single spaces between them, and every text with the same words is
read as the text is. Nothing is left of a text when it is trimmed exactly if nothing is left when it is
squeezed, and exactly then the reader finds no rule in it; a memo and a catalog never answer so. -/
theorem parse_words (text : String) :
    let squeezed := Text.squeeze text.toList
    let words := Text.words text.toList
    (∀ runs, Text.Runs text.toList runs ↔ runs = words) ∧
    squeezed = [' '].intercalate words ∧
    Text.squeeze squeezed = squeezed ∧
    (∀ limits, Rule.parse limits (String.ofList squeezed) = Rule.parse limits text) ∧
    (∀ limits other, Text.words other.toList = words →
      Rule.parse limits other = Rule.parse limits text) ∧
    (Text.trim text.toList = [] ↔ squeezed = []) ∧
    (∀ limits, (∃ f, Rule.parse limits text = .error f ∧ f.SaysNoRule) ↔ squeezed = []) ∧
    (∀ (m : Memo) facts f, (m.check text facts).1 = .error f → ¬ f.SaysNoRule) ∧
    (∀ (m : Memo) settings facts f, (m.checkWith settings text facts).1 = .error f →
      ¬ f.SaysNoRule) ∧
    ∀ (c : Catalog) fresh now name description f,
      (c.answer fresh now (.create name description text)).1 = .fault f → ¬ f.SaysNoRule := by
  intro squeezed words
  refine ⟨fun runs => Text.runs_iff, Text.squeeze_eq _, Text.squeeze_squeeze _, fun limits => ?_,
    fun limits other hwords => ?_, Text.squeeze_eq_nil_iff.symm,
    fun limits => Rule.exists_saysNoRule_iff, fun m facts f => Memo.check_not_saysNoRule,
    fun m settings facts f => Memo.checkWith_not_saysNoRule, ?_⟩
  · apply Rule.parse_congr
    rw [String.toList_ofList, Text.squeeze_squeeze]
  · apply Rule.parse_congr
    rw [Text.squeeze_eq, Text.squeeze_eq, hwords]
  · intro c fresh now name description f h
    simp only [Catalog.answer, Catalog.reply] at h
    split at h
    · cases h
    · next g hentry =>
      cases h
      exact Catalog.newEntry_not_saysNoRule hentry

end Rulebook
