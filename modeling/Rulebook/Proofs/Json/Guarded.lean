import Rulebook.Proofs.Json.Peak

/-!
# Readers with a guard

A guarded reader refuses to open a container when there is no room for one more, in words of its own.
Where the tokens open no more containers than there is room for, it never comes to that: the guard
changes nothing (`guarded_eq`, `guardedValue_eq`).
-/

namespace Rulebook.Json

variable {α σ : Type} {grade : Grade} {refusal : Complaint} {opened room limit : Nat}
  {tokens : List Token}

/-- Does a container start here? -/
def Token.opens : Token → Bool
  | openBrace | openBracket => true
  | _ => false

/-- A reader that refuses to open a container when there is no room. -/
def guarded (refusal : Complaint) (room : Nat) (read : Reader α) : Reader α := fun tokens =>
  if room = 0 ∧ tokens.head?.any Token.opens then .error refusal else read tokens

/-- Reads one more member of an object. -/
def takeMemberBy (read : Reader Json) (members : List (String × Json)) (name : String) :
    Reader (List (String × Json)) := fun tokens => do
  let (j, tokens) ← read (← afterColon tokens)
  return ((name, j) :: members, tokens)

/-- Reads one more element of an array. -/
def takeItemBy (read : Reader Json) (items : List Json) : Reader (List Json) := fun tokens => do
  let (j, tokens) ← read tokens
  return (j :: items, tokens)

/-- A value, read with a guard. -/
def guardedValue (grade : Grade) (refusal : Complaint) : (room : Nat) → Reader Json
  | room + 1, .openBracket :: tokens => do
    let (items, tokens) ← elements (takeItemBy (guardedValue grade refusal room)) [] tokens
    return (.array items.reverse, tokens)
  | room + 1, .openBrace :: tokens => do
    let (ms, tokens) ← members grade (takeMemberBy (guardedValue grade refusal room)) [] tokens
    return (.object ms.reverse, tokens)
  | room, tokens => guarded refusal room (scalar grade) tokens

/-! ### Tokens within a limit -/

theorem Token.openAfter_of_opens {t : Token} (h : t.opens) (opened : Nat) :
    t.openAfter opened = opened + 1 := by
  cases t <;> first | rfl | cases h

/-- What every turn of a loop leaves still opens no more containers than the limit. -/
theorem TakesMember.keptWithin {member : σ → String → Reader σ} {step : σ → String → Json → Option σ}
    (h : TakesMember grade member step) :
    KeptByMembers (fun _ tokens => peak opened tokens ≤ limit) member where
  name hP := (Nat.le_max_right _ _).trans hP
  member hP hread := by
    obtain ⟨taken, j, rfl, hshows, -⟩ := (h _ _ _ _ _).1 hread
    have hrest : peak opened (taken ++ _) ≤ limit := (Nat.le_max_right _ _).trans hP
    rw [peak_shows hshows] at hrest
    exact (Nat.le_max_right _ _).trans hrest
  comma hP := (Nat.le_max_right _ _).trans hP

theorem TakesItem.keptWithin {element : σ → Reader σ} {step : σ → Json → Option σ}
    (h : TakesItem grade element step) :
    KeptByElements (fun _ tokens => peak opened tokens ≤ limit) element where
  element hP hread := by
    obtain ⟨taken, j, rfl, hshows, -⟩ := (h _ _ _ _).1 hread
    rw [peak_shows hshows] at hP
    exact (Nat.le_max_right _ _).trans hP
  comma hP := (Nat.le_max_right _ _).trans hP

theorem ne_open_of_not_opens (h : ¬ ∃ t ts, tokens = t :: ts ∧ t.opens) (t : Token)
    (ht : tokens.head? = some t) : t ≠ .openBrace ∧ t ≠ .openBracket := by
  obtain ⟨ts, rfl⟩ := List.head?_eq_some_iff.1 ht
  constructor <;> rintro rfl <;> exact h ⟨_, ts, rfl, rfl⟩

/-! ### What a guard changes -/

theorem guarded_eq (read : Reader α) (h : peak opened tokens ≤ opened + room) :
    guarded refusal room read tokens = read tokens := by
  refine if_neg ?_
  rintro ⟨rfl, hopens⟩
  cases tokens with
  | nil => cases hopens
  | cons t ts =>
    have hpeak := le_peak (t.openAfter opened) ts
    rw [Token.openAfter_of_opens hopens] at hpeak
    rw [peak_cons, Token.openAfter_of_opens hopens] at h
    omega

theorem takeMemberBy_eq {read read' : Reader Json} {members : List (String × Json)} {name : String}
    (hsame : ∀ tokens, peak opened tokens ≤ limit → read tokens = read' tokens)
    (h : peak opened tokens ≤ limit) :
    takeMemberBy read members name tokens = takeMemberBy read' members name tokens := by
  unfold takeMemberBy
  refine Outcome.bind_congr fun tokens' hcolon => ?_
  obtain rfl := afterColon_eq_ok.1 hcolon
  rw [hsame tokens' ((Nat.le_max_right _ _).trans h)]

theorem takeItemBy_eq {read read' : Reader Json} {items : List Json}
    (hsame : read tokens = read' tokens) : takeItemBy read items tokens = takeItemBy read' items tokens := by
  rw [takeItemBy, takeItemBy, hsame]

theorem guardedValue_of_ne_open
    (h : ∀ t, tokens.head? = some t → t ≠ .openBrace ∧ t ≠ .openBracket) :
    guardedValue grade refusal room tokens = guarded refusal room (scalar grade) tokens := by
  cases room with
  | zero => simp only [guardedValue]
  | succ room =>
    cases tokens with
    | nil => rfl
    | cons t tokens =>
      have hne := h t rfl
      cases t <;> first | rfl | exact absurd rfl hne.1 | exact absurd rfl hne.2

section

variable {read : Reader Json} {more : Nat}
  (hsame : ∀ tokens, peak (opened + 1) tokens ≤ limit → value grade more tokens = read tokens)
  (hinside : peak (opened + 1) tokens ≤ limit)

include hsame hinside

theorem value_openBrace_eq : value grade (more + 1) (.openBrace :: tokens) = (do
    let (ms, tokens) ← members grade (takeMemberBy read) [] tokens
    return (.object ms.reverse, tokens)) := by
  have hloop : members grade (takeMember grade more) [] tokens =
      members grade (takeMemberBy read) [] tokens :=
    (takes grade more).takesMember.keptWithin.members_eq
      (fun h => takeMemberBy_eq hsame h) hinside
  rw [value_openBrace, hloop]

theorem value_openBracket_eq : value grade (more + 1) (.openBracket :: tokens) = (do
    let (items, tokens) ← elements (takeItemBy read) [] tokens
    return (.array items.reverse, tokens)) := by
  have hloop : elements (takeItem grade more) [] tokens = elements (takeItemBy read) [] tokens :=
    (takes grade more).takesItem.keptWithin.elements_eq
      (fun h => takeItemBy_eq (hsame _ h)) hinside
  rw [value_openBracket, hloop]

end

/-- A guard changes nothing where there is room, whatever room the reader without it has beyond that. -/
theorem guardedValue_eq {more : Nat} (hroom : peak opened tokens ≤ opened + room)
    (hmore : peak opened tokens ≤ opened + more) :
    guardedValue grade refusal room tokens = value grade more tokens := by
  induction room generalizing opened more tokens with
  | zero =>
    have hne : ∀ t, tokens.head? = some t → t ≠ .openBrace ∧ t ≠ .openBracket := by
      intro t ht
      obtain ⟨ts, rfl⟩ := List.head?_eq_some_iff.1 ht
      have hle := le_peak (opened + 1) ts
      rw [peak_cons] at hroom
      constructor <;> rintro rfl <;> simp only [Token.openAfter] at hroom <;> omega
    rw [guardedValue_of_ne_open hne, guarded_eq _ hroom, value_of_ne_open hne]
  | succ room ih =>
    by_cases hopen : ∃ t ts, tokens = t :: ts ∧ t.opens
    · -- the container in front takes room from both readers, and what is left covers its contents
      obtain ⟨t, ts, rfl, hopens⟩ := hopen
      have hle := le_peak (opened + 1) ts
      rw [peak_cons, Token.openAfter_of_opens hopens] at hroom hmore
      obtain ⟨more, rfl⟩ : ∃ n, more = n + 1 := ⟨more - 1, by omega⟩
      have hinside : peak (opened + 1) ts ≤ opened + 1 + min room more := by omega
      have hsame : ∀ tokens, peak (opened + 1) tokens ≤ opened + 1 + min room more →
          value grade more tokens = guardedValue grade refusal room tokens :=
        fun tokens h => (ih (h.trans (by omega)) (h.trans (by omega))).symm
      cases t with
      | openBrace => exact (value_openBrace_eq hsame hinside).symm
      | openBracket => exact (value_openBracket_eq hsame hinside).symm
      | _ => cases hopens
    · have hne := ne_open_of_not_opens hopen
      rw [guardedValue_of_ne_open hne, guarded_eq _ hroom, value_of_ne_open hne]

end Rulebook.Json
