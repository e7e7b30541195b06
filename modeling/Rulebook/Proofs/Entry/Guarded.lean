import Rulebook.Proofs.Entry.Encoded
import Rulebook.Proofs.Rule.Guarded

/-!
# Reading texts with a guard

No reader of rules, entries or values opens more containers at once than the nesting of its text. So a
guard that refuses to open one more than that never has anything to say, and the nesting of a text that
is one value is the depth of the value (`reading_within_nesting`).
-/

namespace Rulebook

open Json (Complaint Reader Token guarded guardedValue peak nesting)

namespace Entry

variable {refusal : Complaint} {opened room limit : Nat} {parts : Parts} {tokens : List Token}

/-- Reads one part of an entry with a guard. -/
def Parts.guardedTake (refusal : Complaint) (room : Nat) (parts : Parts) (field : Field) :
    Reader Parts :=
  match field with
  | .rule => fun tokens => do
    let (r, tokens) ← Rule.guardedTake refusal room tokens
    return ({ parts with rule := some r }, tokens)
  | field => guarded refusal room (parts.take field)

/-- Reads one more member of an encoded entry with a guard. -/
def guardedMember (refusal : Complaint) (room : Nat) (parts : Parts) (key : String) :
    Reader Parts := fun tokens => do
  match Field.all.find? fun field => field.key = key with
  | some field =>
    if parts.has field then .error (.repeatedField key)
    else parts.guardedTake refusal room field (← Json.afterColon tokens)
  | none =>
    let (_, tokens) ← guardedValue Json.Grade.loose refusal room (← Json.afterColon tokens)
    return (parts, tokens)

/-- Reads one more element of an encoded entry with a guard. -/
def guardedItem (refusal : Complaint) (room : Nat) (state : Parts × List Field) :
    Reader (Parts × List Field) := fun tokens => do
  match state with
  | (_, []) => .error .malformed
  | (parts, field :: fields) =>
    let (parts, tokens) ← parts.guardedTake refusal room field tokens
    return ((parts, fields), tokens)

/-- An entry, read with a guard. -/
def guardedTake (refusal : Complaint) : (room : Nat) → Reader Entry
  | room + 1, .openBrace :: tokens => do
    let (parts, tokens) ← Json.members Json.Grade.strict (guardedMember refusal room) {} tokens
    return (← parts.finish fun field => .missingField field.key, tokens)
  | room + 1, .openBracket :: tokens => do
    let ((parts, _), tokens) ← Json.elements (guardedItem refusal room) ({}, Field.all) tokens
    return (← parts.finish fun field => .wrongLength (Field.all.idxOf field) .entry, tokens)
  | room, tokens => guarded refusal room take tokens

/-! ### Tokens within a limit -/

theorem keptWithin_takeMember :
    Json.KeptByMembers (fun _ tokens => peak opened tokens ≤ limit) takeMember where
  name hP := (Nat.le_max_right _ _).trans hP
  member hP hread := by
    obtain ⟨taken, j, rfl, hshows⟩ := value_of_takeMember hread
    have hrest : peak opened (taken ++ _) ≤ limit := (Nat.le_max_right _ _).trans hP
    rw [Json.peak_shows hshows] at hrest
    exact (Nat.le_max_right _ _).trans hrest
  comma hP := (Nat.le_max_right _ _).trans hP

theorem keptWithin_takeItem :
    Json.KeptByElements (fun _ tokens => peak opened tokens ≤ limit) takeItem where
  element {state} _ _ _ hP hread := by
    obtain ⟨parts, _ | ⟨field, fields⟩⟩ := state
    · cases hread
    · obtain ⟨⟨parts', rest'⟩, hpart, h⟩ := Outcome.bind_eq_ok.1 hread
      cases h
      obtain ⟨taken, j, rfl, hshows⟩ := takesValue_take parts field _ _ _ hpart
      rw [Json.peak_shows hshows] at hP
      exact (Nat.le_max_right _ _).trans hP
  comma hP := (Nat.le_max_right _ _).trans hP

/-! ### What a guard changes -/

theorem Parts.guardedTake_eq {field : Field} (h : peak opened tokens ≤ opened + room) :
    parts.guardedTake refusal room field tokens = parts.take field tokens := by
  cases field with
  | rule => simp only [guardedTake, Parts.take, Rule.guardedTake_eq h]
  | _ => exact Json.guarded_eq _ h

theorem skip_eq_guardedValue (h : peak opened tokens ≤ opened + room) :
    Json.skip tokens =
      (guardedValue Json.Grade.loose refusal room tokens >>= fun p => .ok ((), p.2)) := by
  rw [Json.guardedValue_eq h (Json.peak_le_add_length _ _)]
  rfl

theorem takeMember_eq_guardedMember {key : String} (h : peak opened tokens ≤ opened + room) :
    takeMember parts key tokens = guardedMember refusal room parts key tokens := by
  have hcolon : ∀ tokens', Json.afterColon tokens = .ok tokens' →
      peak opened tokens' ≤ opened + room := by
    intro tokens' hcolon
    obtain rfl := Json.afterColon_eq_ok.1 hcolon
    exact (Nat.le_max_right _ _).trans h
  unfold takeMember guardedMember
  cases Field.all.find? fun field => field.key = key with
  | some field =>
    by_cases hseen : parts.has field
    · simp only [hseen, if_true]
    · simp only [hseen, Bool.false_eq_true, if_false]
      refine Outcome.bind_congr fun tokens' htokens => ?_
      rw [Parts.guardedTake_eq (hcolon tokens' htokens)]
  | none =>
    refine Outcome.bind_congr fun tokens' htokens => ?_
    rw [skip_eq_guardedValue (hcolon tokens' htokens)]
    cases guardedValue Json.Grade.loose refusal room tokens' <;> rfl

theorem takeItem_eq_guardedItem {state : Parts × List Field}
    (h : peak opened tokens ≤ opened + room) :
    takeItem state tokens = guardedItem refusal room state tokens := by
  obtain ⟨parts, _ | ⟨field, fields⟩⟩ := state
  · rfl
  · rw [takeItem, guardedItem, Parts.guardedTake_eq h]

theorem guardedTake_of_ne_open
    (h : ∀ t, tokens.head? = some t → t ≠ .openBrace ∧ t ≠ .openBracket) :
    guardedTake refusal room tokens = guarded refusal room take tokens := by
  cases room with
  | zero => simp only [guardedTake]
  | succ room =>
    cases tokens with
    | nil => rfl
    | cons t tokens =>
      have hne := h t rfl
      cases t <;> first | rfl | exact absurd rfl hne.1 | exact absurd rfl hne.2

/-- A guard changes nothing where there is room. -/
theorem guardedTake_eq (h : peak opened tokens ≤ opened + room) :
    guardedTake refusal room tokens = take tokens := by
  by_cases hopen : ∃ t ts, tokens = t :: ts ∧ t.opens
  · obtain ⟨t, ts, rfl, hopens⟩ := hopen
    have hle := Json.le_peak (opened + 1) ts
    rw [Json.peak_cons, Json.Token.openAfter_of_opens hopens] at h
    obtain ⟨room, rfl⟩ : ∃ n, room = n + 1 := ⟨room - 1, by omega⟩
    have hinside : peak (opened + 1) ts ≤ opened + 1 + room := by omega
    cases t with
    | openBrace =>
      have hloop : Json.members Json.Grade.strict takeMember {} ts =
          Json.members Json.Grade.strict (guardedMember refusal room) {} ts :=
        keptWithin_takeMember.members_eq takeMember_eq_guardedMember hinside
      rw [take_openBrace, hloop]
      rfl
    | openBracket =>
      have hloop : Json.elements takeItem ({}, Field.all) ts =
          Json.elements (guardedItem refusal room) ({}, Field.all) ts :=
        keptWithin_takeItem.elements_eq takeItem_eq_guardedItem hinside
      rw [take_openBracket, hloop]
      rfl
    | _ => cases hopens
  · rw [guardedTake_of_ne_open (Json.ne_open_of_not_opens hopen), Json.guarded_eq _ h]

end Entry

/-! ### Texts -/

namespace Json

/-- Reads a whole value, however deeply it is nested. -/
def wholeValue (grade : Grade) (text : String) : Except Complaint Json :=
  whole (fun tokens => value grade tokens.length tokens) text

theorem whole_congr {α : Type} {read read' : Reader α} {text : String}
    (h : read (lex text.toList) = read' (lex text.toList)) : whole read text = whole read' text := by
  rw [whole, whole, h]

end Json

/-- Readers of rules, of entries and of values agree with readers that refuse to open one more container
than the text is nested, whatever these would say. And the nesting of a text that is one value is the
depth of the value. -/
theorem reading_within_nesting {text : String} {limit : Nat} (h : nesting text.toList ≤ limit)
    (refusal : Complaint) :
    (Json.whole (Rule.guardedTake refusal limit) text = Json.whole Rule.take text ∧
      Json.whole (Entry.guardedTake refusal limit) text = Json.whole Entry.take text ∧
      ∀ grade, Json.whole (guardedValue grade refusal limit) text = Json.wholeValue grade text) ∧
    ∀ grade j, Json.wholeValue grade text = .ok j → nesting text.toList = j.depth := by
  have hpeak : peak 0 (Json.lex text.toList) ≤ 0 + limit := by
    have hle := Json.peak_lex_le_nesting text.toList
    omega
  refine ⟨⟨?_, ?_, fun grade => ?_⟩, fun grade j hwhole => ?_⟩
  · exact Json.whole_congr (Rule.guardedTake_eq hpeak)
  · exact Json.whole_congr (Entry.guardedTake_eq hpeak)
  · exact Json.whole_congr (Json.guardedValue_eq hpeak (Json.peak_le_add_length _ _))
  · obtain ⟨taken, htokens, hshows, -⟩ := Json.value_eq_ok.1 (Json.whole_eq_ok.1 hwhole)
    rw [List.append_nil] at htokens
    exact Json.nesting_of_shows (htokens ▸ hshows)

/-- The reader of entries goes into five containers, one in another, before a bracket ends that does not
match. With room for four the guard refuses the fifth. -/
theorem reading_within_nesting_unbalanced :
    let text := "\x7b\"note\":[\x7b\"[\\\"]é\":[null,[\x7d]]"
    nesting text.toList = 5 ∧
      Json.whole (Entry.guardedTake .noOperand 5) text = Json.whole Entry.take text ∧
      Json.whole Entry.take text = .error .malformed ∧
      Json.whole (Entry.guardedTake .noOperand 4) text = .error .noOperand := by
  intro text
  have h : nesting text.toList = 5 := by decide
  exact ⟨h, (reading_within_nesting (Nat.le_of_eq h) .noOperand).1.2.1, by decide +kernel, by decide +kernel⟩

end Rulebook
