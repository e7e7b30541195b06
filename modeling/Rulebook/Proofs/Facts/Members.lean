import Rulebook.Facts
import Rulebook.Proofs.Json.Canonical
import Rulebook.Proofs.Json.Values
import Rulebook.Proofs.Outcome
import Rulebook.Proofs.Table

/-!
# Facts from the members of an object

Of the members that have one name the last one counts, and it counts whatever it holds: a string or a
number states what the field holds, and anything else hides what earlier members of the name state
(`Facts.stated?`). Facts read from a text are what the members of its object state, and texts of other
values or of none are refused as such (`Facts.parse_stated`).
-/

namespace Rulebook.Facts

open Json (lastValue?)

/-- What members state about a field: its last value, if that is a string or a number. -/
def stated? (members : List (String × Json)) (field : String) : Option Value :=
  match lastValue? members field with
  | some (.string s) => some (.text s)
  | some (.number n) => some (.number n.toBinary64)
  | _ => none

variable {members : List (String × Json)} {field : String} {value : Value}

theorem stated?_eq_bind : stated? members field = (lastValue? members field).bind Value.ofJson? := by
  unfold stated?
  cases lastValue? members field with
  | none => rfl
  | some j => cases j <;> rfl

theorem ofJson?_canonical (j : Json) : Value.ofJson? j.canonical = Value.ofJson? j := by
  cases j <;> rfl

theorem names_filterMap_sublist (members : List (String × Json)) :
    ((members.filterMap fun (name, j) => (Value.ofJson? j).map (name, ·)).map Prod.fst).Sublist
      (members.map Prod.fst) := by
  induction members with
  | nil => exact List.Sublist.refl _
  | cons m members ih =>
    obtain ⟨name, j⟩ := m
    simp only [List.filterMap_cons]
    cases h : Value.ofJson? j with
    | none =>
      simp only [Option.map_none]
      exact ih.cons name
    | some value =>
      simp only [Option.map_some, List.map_cons]
      exact ih.cons_cons name

/-- Facts that are made from members with distinct names say what these hold. -/
theorem find?_ofMembers (h : (members.map Prod.fst).Nodup) :
    (ofMembers members).find? field = some value ↔
      ∃ j, (field, j) ∈ members ∧ Value.ofJson? j = some value := by
  rw [ofMembers, Table.find?_ofPairs_eq_some (h.sublist (names_filterMap_sublist members)),
    List.mem_filterMap]
  constructor
  · rintro ⟨⟨name, j⟩, hmem, hvalue⟩
    obtain ⟨v, hv, heq⟩ := Option.map_eq_some_iff.1 hvalue
    cases heq
    exact ⟨j, hmem, hv⟩
  · rintro ⟨j, hmem, hv⟩
    exact ⟨(field, j), hmem, Option.map_eq_some_iff.2 ⟨value, hv, rfl⟩⟩

/-- The canonical members of an object state what its members state. -/
theorem find?_ofMembers_canonical (members : List (String × Json)) (field : String) :
    (ofMembers (Json.canonicalMembers members)).find? field = stated? members field := by
  ext value
  rw [find?_ofMembers (Json.nodup_canonicalMembers members), stated?_eq_bind,
    Option.bind_eq_some_iff]
  simp only [Json.mem_canonicalMembers]
  constructor
  · rintro ⟨_, ⟨j, hj, rfl⟩, hvalue⟩
    exact ⟨j, hj, (ofJson?_canonical j) ▸ hvalue⟩
  · rintro ⟨j, hj, hvalue⟩
    exact ⟨_, ⟨j, hj, rfl⟩, (ofJson?_canonical j).trans hvalue⟩

/-- Facts are as many as the distinct names about which members state something. -/
theorem size_ofMembers_canonical (members : List (String × Json)) :
    (ofMembers (Json.canonicalMembers members)).size =
      ((members.map Prod.fst).toFinset.filter fun field => (stated? members field).isSome).card := by
  rw [← Table.card_keySet]
  congr 1
  ext field
  rw [Table.mem_keySet_iff, find?_ofMembers_canonical, Finset.mem_filter, List.mem_toFinset,
    ← Json.lastValue?_isSome_iff]
  refine (and_iff_right_of_imp fun h => ?_).symm
  rw [stated?_eq_bind] at h
  obtain ⟨value, hvalue⟩ := Option.isSome_iff_exists.1 h
  obtain ⟨j, hj, -⟩ := Option.bind_eq_some_iff.1 hvalue
  exact Option.isSome_iff_exists.2 ⟨j, hj⟩

/-! ### Texts -/

variable {text : String}

theorem ofJson_object (members : List (String × Json)) :
    ofJson (.object members) = .ok (ofMembers (Json.canonicalMembers members)) := rfl

theorem ofJson_of_ne_object {j : Json} (h : ∀ members, j ≠ .object members) :
    ofJson j = .error (.notAnObject j) := by
  cases j with
  | object members => exact absurd rfl (h members)
  | _ => rfl

theorem parse_of_ofText {j : Json} (h : Json.ofText text = .ok j) : parse text = ofJson j := by
  rw [parse, Json.parse, h]
  rfl

theorem parse_of_forall_ne (h : ∀ j, Json.ofText text ≠ .ok j) : parse text = .error .notJson := by
  rw [parse, Json.parse]
  cases hread : Json.ofText text with
  | error c => rfl
  | ok j => exact absurd hread (h j)

/-- A text that reads as an object gives the facts that its members state, and as many as there are
names about which they state something. A text of another value is refused as no object, and any other
text as no JSON. The texts that read as a value are those that spell it, nested less than 128 deep. -/
theorem parse_stated (text : String) :
    (∀ members, Json.ofText text = .ok (.object members) → ∃ facts, parse text = .ok facts ∧
      (∀ field, facts.find? field = stated? members field) ∧
      facts.size =
        ((members.map Prod.fst).toFinset.filter fun field => (stated? members field).isSome).card) ∧
    (∀ j, Json.ofText text = .ok j → (∀ members, j ≠ .object members) →
      parse text = .error (.notAnObject j) ∧ (Fault.notAnObject j).kind = .facts) ∧
    ((∀ j, Json.ofText text ≠ .ok j) → parse text = .error .notJson ∧ Fault.notJson.kind = .json) ∧
    ∀ j, Json.ofText text = .ok j ↔ Json.lex text.toList = j.tokens ∧ j.depth < 128 := by
  refine ⟨fun members h => ?_, fun j h hj => ?_, fun h => ?_, fun j => ?_⟩
  · refine ⟨_, (parse_of_ofText h).trans (ofJson_object members), ?_, ?_⟩
    · exact find?_ofMembers_canonical members
    · exact size_ofMembers_canonical members
  · exact ⟨(parse_of_ofText h).trans (ofJson_of_ne_object hj), rfl⟩
  · exact ⟨parse_of_forall_ne h, rfl⟩
  · rw [Json.ofText_eq_ok, Nat.lt_succ_iff]
    rfl

/-- The later value of a field hides the number before it, though it states nothing itself. -/
theorem parse_stated_hidden :
    (∃ facts, parse "\x7b\"a\":1,\"b\":\"x\",\"a\":null\x7d" = .ok facts ∧
      facts.find? "a" = none ∧ facts.find? "b" = some (.text "x") ∧ facts.size = 1) ∧
    parse "[]" = .error (.notAnObject (.array [])) ∧ parse "" = .error .notJson := by
  let members : List (String × Json) := [("a", .number (.integer 1)), ("b", .string "x"), ("a", .null)]
  have hobject : Json.ofText "\x7b\"a\":1,\"b\":\"x\",\"a\":null\x7d" = .ok (.object members) :=
    Json.ofText_eq_ok.2 ⟨by decide +kernel, by decide⟩
  have harray : Json.ofText "[]" = .ok (.array []) :=
    Json.ofText_eq_ok.2 ⟨by decide +kernel, by decide⟩
  have hnothing : ∀ j, Json.ofText "" ≠ .ok j := fun j h => by cases h
  obtain ⟨facts, hfacts, hfind, hsize⟩ := (parse_stated _).1 members hobject
  refine ⟨⟨facts, hfacts, (hfind "a").trans ?_, (hfind "b").trans ?_, hsize.trans ?_⟩, ?_, ?_⟩
  · decide +kernel
  · decide +kernel
  · decide +kernel
  · exact ((parse_stated _).2.1 _ harray nofun).1
  · exact ((parse_stated _).2.2.1 hnothing).1

end Rulebook.Facts
