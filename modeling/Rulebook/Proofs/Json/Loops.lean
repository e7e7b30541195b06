import Rulebook.Json.Reader
import Rulebook.Proofs.Outcome

/-!
# The loops over arrays and objects

The loops of the reader carry a bound on their turns. A loop over a reader that gives back no more
tokens than it got never meets the bound, so it succeeds exactly along a run over elements or
members.
-/

namespace Rulebook.Json

variable {σ : Type} {grade : Grade}

/-! ### Runs over members -/

/-- The members of an object that has one, read one after another. -/
inductive MembersRun (grade : Grade) (member : σ → String → Reader σ) :
    σ → List Token → σ → List Token → Prop
  | last {state state' : σ} {s : Option String} {name : String} {tokens rest : List Token} :
    grade.string s = some name → member state name tokens = .ok (state', .closeBrace :: rest) →
    MembersRun grade member state (.string s :: tokens) state' rest
  | more {state state' state'' : σ} {s : Option String} {name : String}
    {tokens tokens' rest : List Token} :
    grade.string s = some name → member state name tokens = .ok (state', .comma :: tokens') →
    MembersRun grade member state' tokens' state'' rest →
    MembersRun grade member state (.string s :: tokens) state'' rest

/-- A reader of members that gives back no more tokens than it got. -/
def Shrinks (member : σ → String → Reader σ) : Prop :=
  ∀ state name tokens state' rest, member state name tokens = .ok (state', rest) →
    rest.length ≤ tokens.length

variable {member : σ → String → Reader σ}

theorem membersUpTo_run (hm : Shrinks member) {fuel : Nat} {state state' : σ}
    {tokens rest : List Token} (hf : tokens.length ≤ fuel) :
    membersUpTo grade member fuel state tokens = .ok (state', rest) ↔
      MembersRun grade member state tokens state' rest := by
  -- every member takes its name off the tokens, so their number bounds the loop
  induction fuel generalizing state tokens with
  | zero =>
    have hnil : tokens = [] := List.length_eq_zero_iff.1 (Nat.le_zero.1 hf)
    subst hnil
    constructor <;> intro h <;> cases h
  | succ fuel ih =>
    constructor
    · intro h
      cases tokens with
      | nil => cases h
      | cons t tokens =>
        cases t with
        | string s =>
          simp only [membersUpTo] at h
          cases hs : grade.string s with
          | none =>
            rw [hs] at h
            cases h
          | some name =>
            rw [hs] at h
            obtain ⟨⟨state₁, tokens₁⟩, hread, hnext⟩ := Outcome.bind_eq_ok.1 h
            have hle := hm _ _ _ _ _ hread
            simp only [List.length_cons] at hf
            split at hnext
            · next state₂ tokens₂ heq =>
              cases heq
              simp only [List.length_cons] at hle
              exact .more hs hread ((ih (by omega)).1 hnext)
            · next state₂ tokens₂ heq =>
              cases heq
              cases hnext
              exact .last hs hread
            · cases hnext
        | _ => cases h
    · intro h
      cases h with
      | last hs hread =>
        simp only [membersUpTo, hs, hread]
        rfl
      | more hs hread hrun =>
        have hle := hm _ _ _ _ _ hread
        simp only [List.length_cons] at hf hle
        simp only [membersUpTo, hs, hread]
        exact (ih (by omega)).2 hrun

theorem members_run (hm : Shrinks member) {state state' : σ} {tokens rest : List Token} :
    members grade member state tokens = .ok (state', rest) ↔
      (tokens = .closeBrace :: rest ∧ state' = state) ∨
        MembersRun grade member state tokens state' rest := by
  unfold members
  split
  · next tokens =>
    constructor
    · intro h
      cases h
      exact Or.inl ⟨rfl, rfl⟩
    · rintro (⟨h, rfl⟩ | h)
      · cases h
        rfl
      · cases h
  · next hne =>
    rw [membersUpTo_run hm (Nat.le_refl _)]
    refine ⟨Or.inr, ?_⟩
    rintro (⟨h, -⟩ | h)
    · exact absurd h (hne _)
    · exact h

/-! ### Runs over elements -/

/-- The elements of an array that has one, read one after another. -/
inductive ElementsRun (element : σ → Reader σ) : σ → List Token → σ → List Token → Prop
  | last {state state' : σ} {tokens rest : List Token} :
    element state tokens = .ok (state', .closeBracket :: rest) →
    ElementsRun element state tokens state' rest
  | more {state state' state'' : σ} {tokens tokens' rest : List Token} :
    element state tokens = .ok (state', .comma :: tokens') →
    ElementsRun element state' tokens' state'' rest →
    ElementsRun element state tokens state'' rest

variable {element : σ → Reader σ}

/-- A reader of elements that takes at least one token. -/
def Consumes (element : σ → Reader σ) : Prop :=
  ∀ state tokens state' rest, element state tokens = .ok (state', rest) →
    rest.length < tokens.length

theorem elementsUpTo_run (he : Consumes element) {fuel : Nat} {state state' : σ}
    {tokens rest : List Token} (hf : tokens.length ≤ fuel) :
    elementsUpTo element fuel state tokens = .ok (state', rest) ↔
      ElementsRun element state tokens state' rest := by
  induction fuel generalizing state tokens with
  | zero =>
    constructor
    · intro h
      cases h
    · intro h
      cases h with
      | last hread =>
        have := he _ _ _ _ hread
        omega
      | more hread _ =>
        have := he _ _ _ _ hread
        omega
  | succ fuel ih =>
    constructor
    · intro h
      obtain ⟨⟨state₁, tokens₁⟩, hread, hnext⟩ := Outcome.bind_eq_ok.1 h
      have hlt := he _ _ _ _ hread
      split at hnext
      · next state₂ tokens₂ heq =>
        cases heq
        simp only [List.length_cons] at hlt
        exact .more hread ((ih (by omega)).1 hnext)
      · next state₂ tokens₂ heq =>
        cases heq
        cases hnext
        exact .last hread
      · cases hnext
    · intro h
      cases h with
      | last hread =>
        simp only [elementsUpTo, hread]
        rfl
      | more hread hrun =>
        have hlt := he _ _ _ _ hread
        simp only [List.length_cons] at hlt
        simp only [elementsUpTo, hread]
        exact (ih (by omega)).2 hrun

theorem elements_run (he : Consumes element) {state state' : σ} {tokens rest : List Token} :
    elements element state tokens = .ok (state', rest) ↔
      (tokens = .closeBracket :: rest ∧ state' = state) ∨
        (tokens.head? ≠ some .closeBracket ∧ ElementsRun element state tokens state' rest) := by
  unfold elements
  split
  · next tokens =>
    constructor
    · intro h
      cases h
      exact Or.inl ⟨rfl, rfl⟩
    · rintro (⟨h, rfl⟩ | ⟨h, -⟩)
      · cases h
        rfl
      · exact absurd rfl h
  · next hne =>
    have hhead : tokens.head? ≠ some .closeBracket := by
      intro h
      obtain ⟨ts, rfl⟩ := List.head?_eq_some_iff.1 h
      exact hne ts rfl
    rw [elementsUpTo_run he (Nat.le_refl _)]
    refine ⟨fun h => Or.inr ⟨hhead, h⟩, ?_⟩
    rintro (⟨h, -⟩ | ⟨-, h⟩)
    · exact absurd h (hne _)
    · exact h

/-! ### What every turn keeps -/

/-- A property of states and of the tokens that are left, kept by every turn of a loop over members. -/
structure KeptByMembers (P : σ → List Token → Prop) (member : σ → String → Reader σ) : Prop where
  name : ∀ {state s tokens}, P state (.string s :: tokens) → P state tokens
  member : ∀ {state name tokens state' rest}, P state tokens →
    member state name tokens = .ok (state', rest) → P state' rest
  comma : ∀ {state tokens}, P state (.comma :: tokens) → P state tokens

/-- A property of states and of the tokens that are left, kept by every turn of a loop over elements. -/
structure KeptByElements (P : σ → List Token → Prop) (element : σ → Reader σ) : Prop where
  element : ∀ {state tokens state' rest}, P state tokens →
    element state tokens = .ok (state', rest) → P state' rest
  comma : ∀ {state tokens}, P state (.comma :: tokens) → P state tokens

section

variable {P : σ → List Token → Prop} {member' : σ → String → Reader σ} {element' : σ → Reader σ}
  {state state' : σ} {tokens rest : List Token}

theorem KeptByMembers.of_membersUpTo (h : KeptByMembers P member) {fuel : Nat} (hP : P state tokens)
    (hm : membersUpTo grade member fuel state tokens = .ok (state', rest)) :
    P state' (.closeBrace :: rest) := by
  fun_induction membersUpTo grade member fuel state tokens with
  | case1 => cases hm
  | case2 => cases hm
  | case3 fuel state s tokens name _ ih =>
    obtain ⟨⟨state₁, tokens₁⟩, hread, hnext⟩ := Outcome.bind_eq_ok.1 hm
    have hP₁ := h.member (h.name hP) hread
    split at hnext
    · next heq =>
      cases heq
      exact ih _ _ (h.comma hP₁) hnext
    · next heq =>
      cases heq
      cases hnext
      exact hP₁
    · cases hnext
  | case4 => cases hm

/-- What every turn keeps still holds where the closing brace stands. -/
theorem KeptByMembers.of_members (h : KeptByMembers P member) (hP : P state tokens)
    (hm : members grade member state tokens = .ok (state', rest)) :
    P state' (.closeBrace :: rest) := by
  unfold members at hm
  split at hm
  · cases hm
    exact hP
  · exact h.of_membersUpTo hP hm

theorem KeptByElements.of_elementsUpTo (h : KeptByElements P element) {fuel : Nat}
    (hP : P state tokens) (he : elementsUpTo element fuel state tokens = .ok (state', rest)) :
    P state' (.closeBracket :: rest) := by
  induction fuel generalizing state tokens with
  | zero => cases he
  | succ fuel ih =>
    obtain ⟨⟨state₁, tokens₁⟩, hread, hnext⟩ := Outcome.bind_eq_ok.1 he
    have hP₁ := h.element hP hread
    split at hnext
    · next heq =>
      cases heq
      exact ih (h.comma hP₁) hnext
    · next heq =>
      cases heq
      cases hnext
      exact hP₁
    · cases hnext

/-- What every turn keeps still holds where the closing bracket stands. -/
theorem KeptByElements.of_elements (h : KeptByElements P element) (hP : P state tokens)
    (he : elements element state tokens = .ok (state', rest)) :
    P state' (.closeBracket :: rest) := by
  unfold elements at he
  split at he
  · cases he
    exact hP
  · exact h.of_elementsUpTo hP he

/-! ### Loops over readers that agree -/

theorem KeptByMembers.membersUpTo_eq (h : KeptByMembers P member)
    (hsame : ∀ {state name tokens}, P state tokens →
      member state name tokens = member' state name tokens)
    {fuel : Nat} (hP : P state tokens) :
    membersUpTo grade member fuel state tokens = membersUpTo grade member' fuel state tokens := by
  fun_induction membersUpTo grade member fuel state tokens with
  | case1 => rfl
  | case2 fuel state s tokens hs => simp only [membersUpTo, hs]
  | case3 fuel state s tokens name hs ih =>
    simp only [membersUpTo, hs, ← hsame (h.name hP)]
    refine Outcome.bind_congr fun next hread => ?_
    have hP₁ := h.member (h.name hP) hread
    obtain ⟨state₁, tokens₁⟩ := next
    match tokens₁ with
    | [] => rfl
    | t :: tokens₂ =>
      cases t with
      | comma => exact ih _ _ (h.comma hP₁)
      | _ => rfl
  | case4 fuel state tokens hzero hstring =>
    cases fuel with
    | zero => rfl
    | succ fuel =>
      match tokens with
      | [] => rfl
      | t :: tokens =>
        cases t with
        | string s => exact (hstring fuel s tokens rfl rfl).elim
        | _ => rfl

/-- Readers of members that agree wherever a loop gets to make the same loop. -/
theorem KeptByMembers.members_eq (h : KeptByMembers P member)
    (hsame : ∀ {state name tokens}, P state tokens →
      member state name tokens = member' state name tokens) (hP : P state tokens) :
    members grade member state tokens = members grade member' state tokens := by
  unfold members
  split
  · rfl
  · exact h.membersUpTo_eq hsame hP

theorem KeptByElements.elementsUpTo_eq (h : KeptByElements P element)
    (hsame : ∀ {state tokens}, P state tokens → element state tokens = element' state tokens)
    {fuel : Nat} (hP : P state tokens) :
    elementsUpTo element fuel state tokens = elementsUpTo element' fuel state tokens := by
  induction fuel generalizing state tokens with
  | zero => rfl
  | succ fuel ih =>
    simp only [elementsUpTo, ← hsame hP]
    refine Outcome.bind_congr fun next hread => ?_
    have hP₁ := h.element hP hread
    obtain ⟨state₁, tokens₁⟩ := next
    match tokens₁ with
    | [] => rfl
    | t :: tokens₂ =>
      cases t with
      | comma => exact ih (h.comma hP₁)
      | _ => rfl

/-- Readers of elements that agree wherever a loop gets to make the same loop. -/
theorem KeptByElements.elements_eq (h : KeptByElements P element)
    (hsame : ∀ {state tokens}, P state tokens → element state tokens = element' state tokens)
    (hP : P state tokens) :
    elements element state tokens = elements element' state tokens := by
  unfold elements
  split
  · rfl
  · exact h.elementsUpTo_eq hsame hP

end

end Rulebook.Json
