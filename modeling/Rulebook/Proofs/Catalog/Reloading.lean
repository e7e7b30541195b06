import Rulebook.Proofs.Catalog.Decodability
import Rulebook.Proofs.Rule.ShortNumerals

/-!
# Reading kept rules back from their JSON text

Under valid settings a rule has no more comparisons than JSON text may be nested, whether it was read or
joined, and its fields have names. So only its numbers decide whether it reads back from its JSON text
(`Rule.IsKeepable.reloads_iff`). A number that is spelled with at most fifteen digits does, one that is
too large does not, and of the others some come back as their neighbours.
-/

namespace Rulebook

namespace Rule

/-- The JSON text of a rule is loaded as the same rule. -/
def Reloads (r : Rule) : Prop := ∃ m, load r.encode = .ok m ∧ m.same r

/-- Every number in a rule reads back from its own JSON text. -/
def NumbersReadBack (r : Rule) : Prop := r.ForAll fun _ _ value => value.ReadsBack

/-- Every number in a rule is spelled by a numeral of at most fifteen digits. -/
def NumbersAreShort (r : Rule) : Prop := r.ForAll fun _ _ value => value.IsShort

theorem NumbersReadBack.isFinite {r : Rule} (h : r.NumbersReadBack) : r.IsFinite := by
  apply h.mono
  intro c f v hv
  cases v with
  | number x => exact Binary64.isFinite_of_readsBack hv
  | text s => exact trivial

theorem NumbersAreShort.readsBack {r : Rule} (h : r.NumbersAreShort) : r.NumbersReadBack :=
  h.mono fun _ _ _ => Value.readsBack_of_isShort

theorem IsReadable.isEncodable_iff {r : Rule} (h : r.IsReadable) :
    r.IsEncodable ↔ r.NumbersReadBack := by
  have hq := h.isQuotable
  clear h
  induction r with
  | comparison c f v =>
    have hname : f ≠ "" := by
      rintro rfl
      exact hq.1.ne_nil rfl
    exact and_iff_right hname
  | join c a b iha ihb => exact and_congr (iha hq.1) (ihb hq.2)

theorem IsKeepable.reloads_iff {limits : Limits} {r : Rule} (h : r.IsKeepable limits)
    (hl : Settings.IsValid limits) : r.Reloads ↔ r.NumbersReadBack := by
  rw [Reloads, load_encode_same, h.isReadable.isEncodable_iff]
  exact and_iff_left (h.isBounded hl).depth_le

end Rule

namespace Entry

/-- The JSON text of an entry is loaded as the same entry. -/
def Reloads (e : Entry) : Prop := ∃ e', load e.encode = .ok e' ∧ e'.same e

theorem reloads_iff {limits : Limits} {e : Entry} (h : e.rule.IsKeepable limits)
    (hl : Settings.IsValid limits) (hc : e.createdAt.ReadsBack) (hu : e.updatedAt.ReadsBack) :
    e.Reloads ↔ e.rule.NumbersReadBack := by
  rw [Reloads, load_encode_same hc hu, h.isReadable.isEncodable_iff]
  exact and_iff_left (h.isBounded hl).depth_le

end Entry

/-- The instants of an entry come from the call that made it. -/
theorem Catalog.instants_run {limits : Limits} {calls : List Catalog.Call}
    (hnow : ∀ call ∈ calls, call.now.ReadsBack) :
    ∀ e, (Catalog.run { limits } calls).1.Has e → e.createdAt.ReadsBack ∧ e.updatedAt.ReadsBack := by
  apply Catalog.run_all (P := fun e => e.createdAt.ReadsBack ∧ e.updatedAt.ReadsBack)
  · intro call hcall _ _ _ _ _
    exact ⟨hnow call hcall, hnow call hcall⟩
  · intro call hcall _ _ _ _ _ _
    exact ⟨hnow call hcall, hnow call hcall⟩

/-- Under settings that were read, a rule that was read and the rule of any entry, and the entry with
it, are loaded from their JSON texts exactly if the numbers in the rule read back. No infinite number
does, and every number does that is spelled with at most fifteen digits. -/
theorem reloads_iff_numbersReadBack {text : String} {s : Settings} (hs : Settings.parse text = .ok s) :
    (∀ t r, Rule.parse s.limits t = .ok r → (r.Reloads ↔ r.NumbersReadBack)) ∧
      (∀ calls : List Catalog.Call, (∀ call ∈ calls, call.now.ReadsBack) →
        ∀ e, (Catalog.run { limits := s.limits } calls).1.Has e →
          (e.rule.Reloads ↔ e.rule.NumbersReadBack) ∧ (e.Reloads ↔ e.rule.NumbersReadBack)) ∧
      ∀ r : Rule, (r.NumbersReadBack → r.IsFinite) ∧ (r.NumbersAreShort → r.NumbersReadBack) := by
  have hl := Settings.isValid_of_parse hs
  refine ⟨?_, ?_, fun r => ⟨Rule.NumbersReadBack.isFinite, Rule.NumbersAreShort.readsBack⟩⟩
  · intro t r hr
    exact (Rule.isKeepable_of_parse hr).reloads_iff hl
  · intro calls hnow e he
    have hrule := Catalog.isKeepable_run e he
    obtain ⟨hc, hu⟩ := Catalog.instants_run hnow e he
    exact ⟨hrule.reloads_iff hl, Entry.reloads_iff hrule hl hc hu⟩

theorem reloads_iff_numbersReadBack_two :
    ∃ (s : Settings) (calls : List Catalog.Call) (e : Entry),
      Settings.parse "[[64, 2]]" = .ok s ∧
      (∀ call ∈ calls, call.now.ReadsBack) ∧
      (Catalog.run { limits := s.limits } calls).1.Has e ∧ e.rule.Reloads ∧ e.Reloads := by
  let s : Settings := { limits := { terms := 2 } }
  let now : Instant := ⟨⟨2024, 1, 1⟩, 45296, 500000000⟩
  let calls : List Catalog.Call := [
    ⟨⟨1⟩, now, .create "a" none "a >= 0.1"⟩,
    ⟨⟨2⟩, now, .combine [Identifier.text ⟨1⟩, Identifier.text ⟨1⟩]⟩]
  let x : Binary64 := .signed false (Decimal.nearest ⟨1, -1⟩)
  let r : Rule := .comparison .atLeast "a" (.number x)
  let a : Entry := ⟨⟨1⟩, "a", none, r, now, now⟩
  let e : Entry := ⟨⟨2⟩, Catalog.combinedName [a, a], some (Catalog.combinedDescription [⟨1⟩, ⟨1⟩]),
    .join .and r r, now, now⟩
  have hs : Settings.parse "[[64, 2]]" = .ok s :=
    Rule.toOption_eq_some.1 (by decide +kernel)
  have hnow : now.ReadsBack := by
    unfold Instant.ReadsBack
    decide +kernel
  have hcalls : ∀ call ∈ calls, call.now.ReadsBack := by simp [calls, hnow]
  have hfind : (Catalog.run { limits := s.limits } calls).1.entries.find? ⟨2⟩ = some e := by
    decide +kernel
  have hx : x.IsShort := ⟨"0.1".toList, ⟨by decide, by decide⟩, by decide +kernel⟩
  obtain ⟨-, hrun, hnumbers⟩ := reloads_iff_numbersReadBack hs
  have hback : e.rule.NumbersReadBack := (hnumbers e.rule).2 ⟨hx, hx⟩
  obtain ⟨hrule, hentry⟩ := hrun calls hcalls e ⟨⟨2⟩, hfind⟩
  exact ⟨s, calls, e, hs, hcalls, ⟨⟨2⟩, hfind⟩, hrule.2 hback, hentry.2 hback⟩

/-- A numeral of seventeen digits reads back as a neighbour. -/
theorem not_readsBack_of_long_numeral :
    ¬ (Binary64.signed false ⟨0x3FFCC359E067A348, by decide⟩).ReadsBack := by
  have hreread : (Json.Number.float (.signed false ⟨0x3FFCC359E067A348, by decide⟩)).reread =
      .number (some (.float (.signed false ⟨0x3FFCC359E067A347, by decide⟩))) := by decide +kernel
  intro h
  obtain ⟨n, hn, hsame⟩ := Binary64.readsBack_iff.1 h
  rw [hreread] at hn
  cases hn
  exact absurd hsame (by decide)

/-- Two rules that do not read back: the number of one comes back as its neighbour, and that of the
other is infinite. -/
theorem not_reloads_of_long_numerals :
    (∃ (s : Settings) (calls : List Catalog.Call) (e : Entry), Settings.parse "[]" = .ok s ∧
      (∀ call ∈ calls, call.now.ReadsBack) ∧ (Catalog.run { limits := s.limits } calls).1.Has e ∧
      e.rule.text = "a = 1.7976931348623157" ∧ ¬ e.rule.Reloads ∧ ¬ e.Reloads) ∧
    ∃ r, Rule.parse {} (String.ofList ("a = 1".toList ++ List.replicate 309 '0')) = .ok r ∧
      ¬ r.Reloads := by
  let now : Instant := ⟨⟨2024, 1, 1⟩, 45296, 500000000⟩
  let calls : List Catalog.Call := [⟨⟨1⟩, now, .create "r" none "a = 1.7976931348623157"⟩]
  let e : Entry := ⟨⟨1⟩, "r", none, .comparison .equal "a"
    (.number (.signed false ⟨0x3FFCC359E067A348, by decide⟩)), now, now⟩
  have hs : Settings.parse "[]" = .ok {} := Rule.toOption_eq_some.1 (by decide +kernel)
  have hl := Settings.isValid_of_parse hs
  have hnow : now.ReadsBack := by
    unfold Instant.ReadsBack
    decide +kernel
  have hfind : (Catalog.run {} calls).1.entries.find? ⟨1⟩ = some e := by decide +kernel
  have hrule := Catalog.isKeepable_run e ⟨⟨1⟩, hfind⟩
  have htext : e.rule.text = "a = 1.7976931348623157" := by
    rw [Rule.text, Rule.chars]
    decide +kernel
  constructor
  · refine ⟨{}, calls, e, hs, by simp [calls, hnow], ⟨⟨1⟩, hfind⟩, htext, ?_, ?_⟩
    · rw [hrule.reloads_iff hl]
      exact not_readsBack_of_long_numeral
    · rw [Entry.reloads_iff hrule hl hnow hnow]
      exact not_readsBack_of_long_numeral
  · refine ⟨_, parse_overflow, ?_⟩
    rw [(Rule.isKeepable_of_parse parse_overflow).reloads_iff hl]
    intro hback
    exact absurd hback.isFinite
      (by simp [Rule.IsFinite, Rule.ForAll, Value.IsFinite, Binary64.isFinite])

end Rulebook
