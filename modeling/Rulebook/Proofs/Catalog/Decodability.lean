import Rulebook.Proofs.Catalog.Reprinting
import Rulebook.Proofs.Entry.Encoded
import Rulebook.Proofs.Settings.Validation

/-!
# Kept rules are not too deep to decode

A rule has no more levels than comparisons, a catalog keeps no rule with more comparisons than its
limits allow, and settings allow no more of them than JSON text may be nested. The JSON text of a rule
is nested as deeply as the rule has levels, so no entry of a catalog is ever refused for its nesting
when it is decoded (`Catalog.isBounded_run`).
-/

namespace Rulebook

/-- A text that is not nested too deeply is not refused for its nesting, whatever else is wrong with
it. -/
theorem decodeNested_ne_tooDeep {α : Type} {limit : Nat} {text : String}
    (h : Json.nesting text.toList ≤ limit) (read : Json.Reader α) (depth greatest : Nat) :
    (decodeNested limit read text).mapError Fault.undecodable ≠
      .error (.undecodable (.tooDeep depth greatest)) := by
  have hread : decodeNested limit read text = (Json.whole read text).mapError .complaint :=
    if_neg (Nat.not_lt.2 h)
  rw [hread]
  intro he
  cases hw : Json.whole read text <;> rw [hw] at he <;> cases he

namespace Rule

/-- A rule whose text is within limits under which it can be decoded from its JSON text. -/
structure IsBounded (limits : Limits) (r : Rule) : Prop where
  depth_le_count : r.depth ≤ r.count
  count_le : r.count ≤ limits.terms
  terms_le : limits.terms ≤ greatestDepth
  isQuotable : r.IsQuotable

theorem IsKeepable.isBounded {limits : Limits} {r : Rule} (h : r.IsKeepable limits)
    (hl : Settings.IsValid limits) : r.IsBounded limits :=
  ⟨r.depth_le_count, h.count_le, hl.terms_le, h.isReadable.isQuotable⟩

theorem IsBounded.depth_le {limits : Limits} {r : Rule} (h : r.IsBounded limits) :
    r.depth ≤ greatestDepth :=
  calc r.depth ≤ r.count := h.depth_le_count
    _ ≤ limits.terms := h.count_le
    _ ≤ greatestDepth := h.terms_le

theorem nesting_encode (r : Rule) : Json.nesting r.encode.toList = r.depth := by
  rw [encode, Json.compact, String.toList_ofList, Json.nesting_text, depth_toJson]

end Rule

namespace Entry

/-- The rule of an entry stands one level below it. -/
theorem nesting_encode (e : Entry) : Json.nesting e.encode.toList = e.rule.depth + 1 := by
  rw [encode, Json.compact, String.toList_ofList, Json.nesting_text, depth_toJson]

end Entry

namespace Catalog

/-- Under settings that were read, the rule of every entry after any calls is bounded by the limits, and
neither its JSON text nor that of the entry is nested too deeply to be decoded. -/
theorem isBounded_run {text : String} {s : Settings} (hs : Settings.parse text = .ok s)
    {calls : List Call} {e : Entry} (he : (run { limits := s.limits } calls).1.Has e) :
    e.rule.IsBounded s.limits ∧
      Json.nesting e.rule.encode.toList ≤ greatestDepth ∧
      Json.nesting e.encode.toList ≤ greatestDepth + 1 ∧
      (∀ depth limit, Rule.load e.rule.encode ≠ .error (.undecodable (.tooDeep depth limit))) ∧
      ∀ depth limit, Entry.load e.encode ≠ .error (.undecodable (.tooDeep depth limit)) := by
  have hbounded := (isKeepable_run e he).isBounded (Settings.isValid_of_parse hs)
  have hrule : Json.nesting e.rule.encode.toList ≤ greatestDepth := by
    rw [Rule.nesting_encode]
    exact hbounded.depth_le
  have hentry : Json.nesting e.encode.toList ≤ greatestDepth + 1 := by
    rw [Entry.nesting_encode]
    exact Nat.succ_le_succ hbounded.depth_le
  exact ⟨hbounded, hrule, hentry, decodeNested_ne_tooDeep hrule Rule.take,
    decodeNested_ne_tooDeep hentry Entry.take⟩

/-- The limit on comparisons is reached by joining a rule with itself, whose text has no closing
parenthesis and which is removed afterwards. -/
theorem isBounded_run_three :
    ∃ (s : Settings) (calls : List Call) (e : Entry), Settings.parse "[[1, 3, true]]" = .ok s ∧
      (run { limits := s.limits } calls).1.Has e ∧ e.rule.depth = 3 ∧ s.limits.terms = 3 ∧
      e.rule.IsBounded s.limits ∧ Json.nesting e.encode.toList ≤ greatestDepth + 1 := by
  let s : Settings := { limits := { depth := 1, terms := 3, lenient := true } }
  let now : Instant := ⟨⟨2024, 1, 1⟩, 0, 0⟩
  let id : String := Identifier.text ⟨1⟩
  let calls : List Call := [
    ⟨⟨1⟩, now, .create "a" none "(a = 'x   y'"⟩,
    ⟨⟨2⟩, now, .combine [id, id, id]⟩,
    ⟨⟨3⟩, now, .delete id⟩]
  let r : Rule := .comparison .equal "a" (.text "x y")
  let a : Entry := ⟨⟨1⟩, "a", none, r, now, now⟩
  let e : Entry := ⟨⟨2⟩, combinedName [a, a, a], some (combinedDescription [⟨1⟩, ⟨1⟩, ⟨1⟩]),
    .join .and (.join .and r r) r, now, now⟩
  have hs : Settings.parse "[[1, 3, true]]" = .ok s := Rule.toOption_eq_some.1 (by decide +kernel)
  have hfind : (run { limits := s.limits } calls).1.entries.find? ⟨2⟩ = some e := by decide +kernel
  obtain ⟨hbounded, -, hnesting, -⟩ := isBounded_run hs ⟨⟨2⟩, hfind⟩
  exact ⟨s, calls, e, hs, ⟨⟨2⟩, hfind⟩, rfl, rfl, hbounded, hnesting⟩

end Catalog

end Rulebook
