import Rulebook.Proofs.Json.Guarded
import Rulebook.Proofs.Rule.Taking

/-!
# Taking a rule with a guard

The reader of rules with a guard on every value it reads, the type and the parts included. The guard
changes nothing where the tokens open no more containers than there is room for (`guardedTake_eq`).
-/

namespace Rulebook.Rule

open Json (Complaint Reader Token guarded guardedValue peak)

/-- Reads one more member of an encoded rule, with readers for its type and for its parts. -/
def takeMemberBy (type : Reader Tag) (part : Reader Json) (seen : Option Tag × List (String × Json))
    (name : String) : Reader (Option Tag × List (String × Json)) := fun tokens => do
  if name = "type" then
    if seen.1.isSome then .error (.repeatedField name)
    else
      let (tag, tokens) ← type (← Json.afterColon tokens)
      return ((some tag, seen.2), tokens)
  else
    let (j, tokens) ← part (← Json.afterColon tokens)
    return ((seen.1, (name, j) :: seen.2), tokens)

/-- Reads one more element of an encoded rule, with readers for its type and for its parts. -/
def takeItemBy (type : Reader Tag) (part : Reader Json) (seen : Option Tag × List Json) :
    Reader (Option Tag × List Json) := fun tokens => do
  if seen.1.isNone then
    let (tag, tokens) ← type tokens
    return ((some tag, seen.2), tokens)
  else
    let (j, tokens) ← part tokens
    return ((seen.1, j :: seen.2), tokens)

/-- The type of an encoded rule, read with a guard. -/
def guardedTag (refusal : Complaint) (room : Nat) : Reader Tag := guarded refusal room takeTag

/-- A part of an encoded rule, read with a guard. -/
def guardedPart (refusal : Complaint) (room : Nat) : Reader Json :=
  guardedValue Json.Grade.strict refusal room

/-- A rule, read with a guard. -/
def guardedTake (refusal : Complaint) : (room : Nat) → Reader Rule
  | room + 1, .openBrace :: tokens => do
    let ((tag, members), tokens) ← Json.members Json.Grade.strict
      (takeMemberBy (guardedTag refusal room) (guardedPart refusal room)) (none, []) tokens
    match ← required "type" tag with
    | .comparison => return (← comparisonOfMembers {} members.reverse, tokens)
    | .join => return (← joinOfMembers {} members.reverse, tokens)
  | room + 1, .openBracket :: tokens => do
    let ((tag, items), tokens) ← Json.elements
      (takeItemBy (guardedTag refusal room) (guardedPart refusal room)) (none, []) tokens
    match ← required "type" tag with
    | .comparison => return (← comparisonOfItems items.reverse, tokens)
    | .join => return (← joinOfItems items.reverse, tokens)
  | room, tokens => guarded refusal room take tokens

variable {refusal : Complaint} {opened room : Nat} {tokens : List Token}

theorem guardedPart_eq (h : peak opened tokens ≤ opened + room) :
    guardedPart refusal room tokens = Json.anyValue tokens :=
  Json.guardedValue_eq h (Json.peak_le_add_length _ _)

theorem takeMember_eq_takeMemberBy {seen : Option Tag × List (String × Json)} {name : String}
    (h : peak opened tokens ≤ opened + room) :
    takeMember seen name tokens =
      takeMemberBy (guardedTag refusal room) (guardedPart refusal room) seen name tokens := by
  have hcolon : ∀ tokens', Json.afterColon tokens = .ok tokens' →
      peak opened tokens' ≤ opened + room := by
    intro tokens' hcolon
    obtain rfl := Json.afterColon_eq_ok.1 hcolon
    exact (Nat.le_max_right _ _).trans h
  unfold takeMember takeMemberBy
  split
  · split
    · rfl
    · refine Outcome.bind_congr fun tokens' htokens => ?_
      rw [guardedTag, Json.guarded_eq _ (hcolon tokens' htokens)]
  · refine Outcome.bind_congr fun tokens' htokens => ?_
    rw [guardedPart_eq (hcolon tokens' htokens)]

theorem takeItem_eq_takeItemBy {seen : Option Tag × List Json}
    (h : peak opened tokens ≤ opened + room) :
    takeItem seen tokens =
      takeItemBy (guardedTag refusal room) (guardedPart refusal room) seen tokens := by
  rw [takeItem, takeItemBy, guardedTag, Json.guarded_eq _ h, guardedPart_eq h]

theorem guardedTake_of_ne_open
    (h : ∀ t, tokens.head? = some t → t ≠ .openBrace ∧ t ≠ .openBracket) :
    guardedTake refusal room tokens = guarded refusal room take tokens := by
  cases room with
  | zero => simp only [guardedTake]
  | succ room =>
    cases tokens with
    | nil => rfl
    | cons t tokens =>
      have hne := h t rfl
      cases t <;> first | rfl | exact absurd rfl hne.1 | exact absurd rfl hne.2

/-- A guard changes nothing where there is room. -/
theorem guardedTake_eq (h : peak opened tokens ≤ opened + room) :
    guardedTake refusal room tokens = take tokens := by
  by_cases hopen : ∃ t ts, tokens = t :: ts ∧ t.opens
  · obtain ⟨t, ts, rfl, hopens⟩ := hopen
    have hle := Json.le_peak (opened + 1) ts
    rw [Json.peak_cons, Json.Token.openAfter_of_opens hopens] at h
    obtain ⟨room, rfl⟩ : ∃ n, room = n + 1 := ⟨room - 1, by omega⟩
    have hinside : peak (opened + 1) ts ≤ opened + 1 + room := by omega
    cases t with
    | openBrace =>
      have hloop : Json.members Json.Grade.strict takeMember (none, []) ts =
          Json.members Json.Grade.strict
            (takeMemberBy (guardedTag refusal room) (guardedPart refusal room)) (none, []) ts :=
        takes_members.keptWithin.members_eq takeMember_eq_takeMemberBy hinside
      rw [take_openBrace, hloop]
      rfl
    | openBracket =>
      have hloop : Json.elements takeItem (none, []) ts =
          Json.elements (takeItemBy (guardedTag refusal room) (guardedPart refusal room))
            (none, []) ts :=
        takes_items.keptWithin.elements_eq takeItem_eq_takeItemBy hinside
      rw [take_openBracket, hloop]
      rfl
    | _ => cases hopens
  · rw [guardedTake_of_ne_open (Json.ne_open_of_not_opens hopen), Json.guarded_eq _ h]

end Rulebook.Rule
