import Rulebook.Proofs.Json.Loops

/-!
# Arrays and objects as their contents

A reader that takes one JSON value and does with it what `step` says makes the loops take an array or
object and fold `step` over its contents (`elements_eq_ok`, `members_eq_ok`). A grade sees some tokens
as others, so what is taken is a list of tokens that shows the tokens of a value.
-/

namespace Rulebook.Json

variable {σ : Type} {grade : Grade} {member : σ → String → Reader σ} {element : σ → Reader σ}

/-- A token as a grade sees it. -/
def Token.seen (grade : Grade) : Token → Token
  | string s => string (grade.string s)
  | number n => number (grade.number n)
  | token => token

/-- Tokens in which a grade sees certain others. -/
def Shows (grade : Grade) (taken seen : List Token) : Prop := taken.map (Token.seen grade) = seen

theorem shows_nil : Shows grade [] [] := rfl

theorem shows_cons_right {taken seen : List Token} {t : Token} :
    Shows grade taken (t :: seen) ↔
      ∃ u us, taken = u :: us ∧ u.seen grade = t ∧ Shows grade us seen :=
  List.map_eq_cons_iff

theorem shows_append_right {taken seen seen' : List Token} :
    Shows grade taken (seen ++ seen') ↔
      ∃ us us', taken = us ++ us' ∧ Shows grade us seen ∧ Shows grade us' seen' := by
  unfold Shows
  rw [List.map_eq_append_iff]

theorem shows_strict {taken seen : List Token} : Shows Grade.strict taken seen ↔ taken = seen := by
  have h : Token.seen Grade.strict = id := by
    funext t
    cases t <;> rfl
  rw [Shows, h, List.map_id]

/-! ### Tokens without content -/

/-- Is a token the same for every grade? -/
def Token.isMark : Token → Bool
  | string _ | number _ => false
  | _ => true

theorem seen_eq_mark {t mark : Token} (h : mark.isMark) : t.seen grade = mark ↔ t = mark := by
  cases mark <;> cases t <;> simp_all [Token.seen, Token.isMark]

theorem seen_eq_string {t : Token} {s : Option String} :
    t.seen grade = .string s ↔ ∃ s', t = .string s' ∧ grade.string s' = s := by
  cases t <;> simp [Token.seen]

/-! ### Contents -/

/-- What a fold over members makes of a state. -/
def foldMembers (step : σ → String → Json → Option σ) : σ → List (String × Json) → Option σ
  | state, [] => some state
  | state, (name, j) :: members => (step state name j).bind (foldMembers step · members)

/-- What a fold over elements makes of a state. -/
def foldItems (step : σ → Json → Option σ) : σ → List Json → Option σ
  | state, [] => some state
  | state, j :: items => (step state j).bind (foldItems step · items)

/-- A reader of members that takes a JSON value and steps on with it. -/
def TakesMember (grade : Grade) (member : σ → String → Reader σ)
    (step : σ → String → Json → Option σ) : Prop :=
  ∀ state name tokens state' rest, member state name tokens = .ok (state', rest) ↔
    ∃ taken j, tokens = .colon :: (taken ++ rest) ∧ Shows grade taken j.tokens ∧
      step state name j = some state'

/-- A reader of elements that takes a JSON value and steps on with it. -/
def TakesItem (grade : Grade) (element : σ → Reader σ) (step : σ → Json → Option σ) : Prop :=
  ∀ state tokens state' rest, element state tokens = .ok (state', rest) ↔
    ∃ taken j, tokens = taken ++ rest ∧ Shows grade taken j.tokens ∧ step state j = some state'

theorem memberTokens_false_cons (m : String × Json) (ms : List (String × Json)) :
    memberTokens false (m :: ms) = .comma :: memberTokens true (m :: ms) := by
  obtain ⟨name, j⟩ := m
  simp [memberTokens]

theorem memberTokens_true_cons (name : String) (j : Json) (ms : List (String × Json)) :
    memberTokens true ((name, j) :: ms) =
      .string (some name) :: .colon :: (j.tokens ++ memberTokens false ms) := by
  simp [memberTokens]

theorem itemTokens_false_cons (j : Json) (items : List Json) :
    itemTokens false (j :: items) = .comma :: itemTokens true (j :: items) := by
  simp [itemTokens]

theorem itemTokens_true_cons (j : Json) (items : List Json) :
    itemTokens true (j :: items) = j.tokens ++ itemTokens false items := by
  simp [itemTokens]

theorem tokens_ne_nil (j : Json) : j.tokens ≠ [] := by
  cases j <;> simp [tokens]

theorem TakesMember.shrinks {step : σ → String → Json → Option σ}
    (h : TakesMember grade member step) : Shrinks member := by
  intro state name tokens state' rest hread
  obtain ⟨taken, j, rfl, -⟩ := (h _ _ _ _ _).1 hread
  simp only [List.length_cons, List.length_append]
  omega

theorem TakesItem.consumes {step : σ → Json → Option σ} (h : TakesItem grade element step) :
    Consumes element := by
  intro state tokens state' rest hread
  obtain ⟨taken, j, rfl, hshows, -⟩ := (h _ _ _ _).1 hread
  have hne : taken ≠ [] := by
    rintro rfl
    exact tokens_ne_nil j hshows.symm
  have hpos := List.length_pos_iff.2 hne
  rw [List.length_append]
  omega

theorem membersRun_iff {step : σ → String → Json → Option σ} (h : TakesMember grade member step)
    {state state' : σ} {tokens rest : List Token} :
    MembersRun grade member state tokens state' rest ↔
      ∃ taken m ms, tokens = taken ++ .closeBrace :: rest ∧
        Shows grade taken (memberTokens true (m :: ms)) ∧
        foldMembers step state (m :: ms) = some state' := by
  constructor
  · intro hrun
    induction hrun with
    | @last state state' s name tokens rest hs hread =>
      obtain ⟨taken, j, rfl, hshows, hstep⟩ := (h _ _ _ _ _).1 hread
      refine ⟨.string s :: .colon :: taken, (name, j), [], rfl, ?_, ?_⟩
      · rw [memberTokens_true_cons, memberTokens, List.append_nil]
        unfold Shows at hshows ⊢
        simp only [List.map_cons, Token.seen, hs, hshows]
      · simp only [foldMembers, hstep, Option.bind_some]
    | @more state state' state'' s name tokens tokens' rest hs hread _ ih =>
      obtain ⟨taken, j, rfl, hshows, hstep⟩ := (h _ _ _ _ _).1 hread
      obtain ⟨taken', m, ms, rfl, hshows', hfold⟩ := ih
      refine ⟨.string s :: .colon :: (taken ++ .comma :: taken'), (name, j), m :: ms, by simp, ?_, ?_⟩
      · rw [memberTokens_true_cons, memberTokens_false_cons]
        unfold Shows at hshows hshows' ⊢
        simp only [List.map_cons, List.map_append, Token.seen, hs, hshows, hshows']
      · rw [foldMembers, hstep, Option.bind_some, hfold]
  · rintro ⟨taken, ⟨name, j⟩, ms, rfl, hshows, hfold⟩
    induction ms generalizing state taken name j with
    | nil =>
      rw [memberTokens_true_cons, memberTokens, List.append_nil] at hshows
      obtain ⟨t, us, rfl, ht, hus⟩ := shows_cons_right.1 hshows
      obtain ⟨s, rfl, hs⟩ := seen_eq_string.1 ht
      obtain ⟨c, vs, rfl, hc, hvs⟩ := shows_cons_right.1 hus
      obtain rfl := (seen_eq_mark rfl).1 hc
      simp only [foldMembers, Option.bind_fun_some] at hfold
      exact .last hs ((h _ _ _ _ _).2 ⟨vs, j, rfl, hvs, hfold⟩)
    | cons m ms ih =>
      obtain ⟨name', j'⟩ := m
      rw [memberTokens_true_cons, memberTokens_false_cons] at hshows
      obtain ⟨t, us, rfl, ht, hus⟩ := shows_cons_right.1 hshows
      obtain ⟨s, rfl, hs⟩ := seen_eq_string.1 ht
      obtain ⟨c, vs, rfl, hc, hvs⟩ := shows_cons_right.1 hus
      obtain rfl := (seen_eq_mark rfl).1 hc
      obtain ⟨taken, ws, rfl, htaken, hws⟩ := shows_append_right.1 hvs
      obtain ⟨d, xs, rfl, hd, hxs⟩ := shows_cons_right.1 hws
      obtain rfl := (seen_eq_mark rfl).1 hd
      rw [foldMembers, Option.bind_eq_some_iff] at hfold
      obtain ⟨state₁, hstep, hfold⟩ := hfold
      have hread := (h state name (.colon :: (taken ++ .comma :: (xs ++ .closeBrace :: rest))) state₁
        (.comma :: (xs ++ .closeBrace :: rest))).2 ⟨taken, j, rfl, htaken, hstep⟩
      simp only [List.cons_append, List.append_assoc]
      exact .more hs hread (ih xs name' j' hxs hfold)

theorem members_eq_ok {step : σ → String → Json → Option σ} (h : TakesMember grade member step)
    {state state' : σ} {tokens rest : List Token} :
    members grade member state tokens = .ok (state', rest) ↔
      ∃ taken ms, tokens = taken ++ .closeBrace :: rest ∧ Shows grade taken (memberTokens true ms) ∧
        foldMembers step state ms = some state' := by
  rw [members_run h.shrinks, membersRun_iff h]
  constructor
  · rintro (⟨rfl, rfl⟩ | ⟨taken, m, ms, ht, hs, hfold⟩)
    · exact ⟨[], [], rfl, rfl, rfl⟩
    · exact ⟨taken, m :: ms, ht, hs, hfold⟩
  · rintro ⟨taken, ms, rfl, hs, hfold⟩
    cases ms with
    | nil =>
      have hnil : taken = [] := List.map_eq_nil_iff.1 hs
      subst hnil
      cases hfold
      exact Or.inl ⟨rfl, rfl⟩
    | cons m ms => exact Or.inr ⟨taken, m, ms, rfl, hs, hfold⟩

theorem elementsRun_iff {step : σ → Json → Option σ} (h : TakesItem grade element step)
    {state state' : σ} {tokens rest : List Token} :
    ElementsRun element state tokens state' rest ↔
      ∃ taken j items, tokens = taken ++ .closeBracket :: rest ∧
        Shows grade taken (itemTokens true (j :: items)) ∧
        foldItems step state (j :: items) = some state' := by
  constructor
  · intro hrun
    induction hrun with
    | @last state state' tokens rest hread =>
      obtain ⟨taken, j, rfl, hshows, hstep⟩ := (h _ _ _ _).1 hread
      refine ⟨taken, j, [], rfl, ?_, ?_⟩
      · rw [itemTokens_true_cons, itemTokens, List.append_nil]
        exact hshows
      · simp only [foldItems, hstep, Option.bind_some]
    | @more state state' state'' tokens tokens' rest hread _ ih =>
      obtain ⟨taken, j, rfl, hshows, hstep⟩ := (h _ _ _ _).1 hread
      obtain ⟨taken', j', items, rfl, hshows', hfold⟩ := ih
      refine ⟨taken ++ .comma :: taken', j, j' :: items, by simp, ?_, ?_⟩
      · rw [itemTokens_true_cons, itemTokens_false_cons]
        unfold Shows at hshows hshows' ⊢
        simp only [List.map_cons, List.map_append, Token.seen, hshows, hshows']
      · rw [foldItems, hstep, Option.bind_some, hfold]
  · rintro ⟨taken, j, items, rfl, hshows, hfold⟩
    induction items generalizing state taken j with
    | nil =>
      rw [itemTokens_true_cons, itemTokens, List.append_nil] at hshows
      simp only [foldItems, Option.bind_fun_some] at hfold
      exact .last ((h _ _ _ _).2 ⟨taken, j, rfl, hshows, hfold⟩)
    | cons j' items ih =>
      rw [itemTokens_true_cons, itemTokens_false_cons] at hshows
      obtain ⟨taken, ws, rfl, htaken, hws⟩ := shows_append_right.1 hshows
      obtain ⟨d, xs, rfl, hd, hxs⟩ := shows_cons_right.1 hws
      obtain rfl := (seen_eq_mark rfl).1 hd
      rw [foldItems, Option.bind_eq_some_iff] at hfold
      obtain ⟨state₁, hstep, hfold⟩ := hfold
      have hread := (h state (taken ++ .comma :: (xs ++ .closeBracket :: rest)) state₁
        (.comma :: (xs ++ .closeBracket :: rest))).2 ⟨taken, j, rfl, htaken, hstep⟩
      simp only [List.cons_append, List.append_assoc]
      exact .more hread (ih xs j' hxs hfold)

theorem head?_shows_ne {taken rest : List Token} {j : Json} {seen : List Token}
    (h : Shows grade taken (j.tokens ++ seen)) :
    (taken ++ rest).head? ≠ some .closeBracket := by
  obtain ⟨us, us', rfl, hus, -⟩ := shows_append_right.1 h
  intro hhead
  cases us with
  | nil => exact tokens_ne_nil j hus.symm
  | cons u us =>
    cases hhead
    unfold Shows at hus
    cases j <;> simp [tokens, Token.seen] at hus

theorem elements_eq_ok {step : σ → Json → Option σ} (h : TakesItem grade element step)
    {state state' : σ} {tokens rest : List Token} :
    elements element state tokens = .ok (state', rest) ↔
      ∃ taken items, tokens = taken ++ .closeBracket :: rest ∧
        Shows grade taken (itemTokens true items) ∧ foldItems step state items = some state' := by
  rw [elements_run h.consumes, elementsRun_iff h]
  constructor
  · rintro (⟨rfl, rfl⟩ | ⟨-, taken, j, items, ht, hs, hfold⟩)
    · exact ⟨[], [], rfl, rfl, rfl⟩
    · exact ⟨taken, j :: items, ht, hs, hfold⟩
  · rintro ⟨taken, items, rfl, hs, hfold⟩
    cases items with
    | nil =>
      have hnil : taken = [] := List.map_eq_nil_iff.1 hs
      subst hnil
      cases hfold
      exact Or.inl ⟨rfl, rfl⟩
    | cons j items =>
      refine Or.inr ⟨?_, taken, j, items, rfl, hs, hfold⟩
      rw [itemTokens_true_cons] at hs
      exact head?_shows_ne hs

end Rulebook.Json
