import Rulebook.Proofs.Grammar.Front

/-!
# Reading the text of a rule

The text of a rule is read as the same rule exactly if the rule is spellable and the limits allow it
(`parse_text_same_iff`). One half builds a run of the reader along the text. The other half follows a
run that finds the same rule along the text: a number that is not spellable stops it, and it opens
the parentheses and counts the comparisons that the limits are about.
-/

namespace Rulebook
open Grammar

/-- What may follow the text of a rule: nothing, a space or a closing parenthesis. -/
def Stops (rest : List Char) : Prop := ∀ c, rest.head? = some c → c = ' ' ∨ c = ')'

theorem Stops.head?_any {rest : List Char} (h : Stops rest) {test : Char → Bool}
    (hs : test ' ' = false) (hc : test ')' = false) : rest.head?.any test = false := by
  cases hr : rest.head? with
  | none => rfl
  | some c => rcases h c hr with rfl | rfl <;> assumption

theorem stops_nil : Stops [] := fun c hc => by cases hc

theorem stops_space (cs : List Char) : Stops (' ' :: cs) := fun c hc => by
  cases hc
  exact Or.inl rfl

theorem stops_closing (cs : List Char) : Stops (')' :: cs) := fun c hc => by
  cases hc
  exact Or.inr rfl

variable {limits : Limits}

/-! ### Words, symbols and values -/

section

variable {p : Place} {tail : List Char}

theorem next?_of_field {f : String} (hf : IsFieldName f)
    (hp : Lexeme.trimSpaces p.rest = f.toList ++ ' ' :: tail) :
    ∃ q, p.next? = some (.word f.toList, q) ∧ q.rest = ' ' :: tail :=
  Place.next?_of_front? hp (Lexeme.front?_word hf.ne_nil hf.fieldChars rfl)

theorem connective?_of_symbol {c : Connective} (hp : p.rest = ' ' :: (c.symbol.toList ++ ' ' :: tail)) :
    ∃ q, connective? p = some (c, q) ∧ q.rest = ' ' :: tail := by
  have hc : IsFieldName c.symbol := by cases c <;> exact ⟨by decide, by decide⟩
  have htrim : Lexeme.trimSpaces p.rest = c.symbol.toList ++ ' ' :: tail := by
    rw [hp, Lexeme.trimSpaces_space, Lexeme.trimSpaces_append c.isTight_symbol]
  obtain ⟨q, hq, hrest⟩ := next?_of_field hc htrim
  exact ⟨q, connective?_eq_some.2 hq, hrest⟩

theorem next?_of_symbol {c : Comparison} (hp : p.rest = ' ' :: (c.symbol.toList ++ ' ' :: tail)) :
    ∃ q, p.next? = some (.symbol c.symbol.toList, q) ∧ q.rest = ' ' :: tail := by
  have htrim : Lexeme.trimSpaces p.rest = c.symbol.toList ++ ' ' :: tail := by
    rw [hp, Lexeme.trimSpaces_space, Lexeme.trimSpaces_append c.isTight_symbol]
  exact Place.next?_of_front? htrim
    (Lexeme.front?_symbol (by cases c <;> decide) (by cases c <;> decide) rfl)

theorem trimSpaces_value {v : Value} (hv : v.IsQuotable) (hp : p.rest = ' ' :: (v.chars ++ tail)) :
    Lexeme.trimSpaces p.rest = v.chars ++ tail := by
  rw [hp, Lexeme.trimSpaces_space, Lexeme.trimSpaces_append (Value.isTight_chars hv)]

theorem value_of_isSpellable {v : Value} (hv : v.IsSpellable) (ht : Stops tail)
    (hp : p.rest = ' ' :: (v.chars ++ tail)) : ∃ q, Grammar.value p = .ok (v, q) ∧ q.rest = tail := by
  have htrim := trimSpaces_value hv.isQuotable hp
  cases v with
  | text s =>
    obtain ⟨q, hq, hrest⟩ := Place.next?_of_front? (l := .quoted s.toList) htrim
      (Lexeme.front?_quoted hv.noQuote tail)
    exact ⟨q, value_eq_ok_text.2 hq, hrest⟩
  | number x =>
    obtain ⟨q, hq, hrest⟩ := Place.next?_of_front? (l := .numeral (Layout.rule.text x)) htrim
      (Lexeme.front?_numeral (Layout.text_ne_nil hv) (Layout.all_isNumberChar_text hv)
        (ht.head?_any rfl rfl))
    exact ⟨q, value_eq_ok_number.2 ⟨_, hq, Layout.read?_text hv⟩, hrest⟩

/-- What can be read from the text of a value is the value, and the value is spellable. -/
theorem isSpellable_of_value {v w : Value} {q : Place} (hv : v.IsQuotable) (ht : Stops tail)
    (hp : p.rest = ' ' :: (v.chars ++ tail)) (h : Grammar.value p = .ok (w, q)) :
    v.IsSpellable ∧ q.rest = tail := by
  have hs : v.IsSpellable := by
    cases v with
    | text s => exact hv
    | number x =>
      by_contra hx
      obtain ⟨c, cs, hc, hcases⟩ := Layout.text_of_not_isPrintable hx
      have hrest : p.skipSpaces.rest = c :: (cs ++ tail) := by
        rw [Place.skipSpaces_rest, trimSpaces_value hv hp, Value.chars, hc]
        rfl
      have hnext := Place.next?_of_rest_eq_cons hrest
      cases w with
      | text s =>
        rw [value_eq_ok_text.1 h] at hnext
        rcases hcases with rfl | rfl | rfl <;> cases hnext
      | number y =>
        obtain ⟨digits, hd, -⟩ := value_eq_ok_number.1 h
        rw [hd] at hnext
        rcases hcases with rfl | rfl | rfl <;> cases hnext
  obtain ⟨q', hq, hrest⟩ := value_of_isSpellable hs ht hp
  rw [hq] at h
  cases h
  exact ⟨hs, hrest⟩

theorem terms_of_value {q : Place} {v : Value} (h : Grammar.value p = .ok (v, q)) :
    q.terms = p.terms := by
  obtain ⟨l, hl⟩ := next?_of_value h
  exact Place.next?_terms hl

theorem next?_of_opening (hp : Lexeme.trimSpaces p.rest = '(' :: tail) :
    ∃ q, p.next? = some (.mark '(', q) ∧ q.rest = tail :=
  Place.next?_of_front? (l := .mark '(') hp (by rfl)

theorem next?_of_closing_mark (hp : p.rest = ')' :: tail) :
    ∃ q, p.next? = some (.mark ')', q) ∧ q.rest = tail :=
  Place.next?_of_front? (l := .mark ')') (by rw [hp]; rfl) (by rfl)

end

/-! ### Along the text of a rule -/

section

variable {part : Part} {room : Nat} {p q : Place} {tail : List Char}

theorem trimSpaces_chars {r : Rule} (hr : r.IsQuotable) (tail : List Char) :
    Lexeme.trimSpaces (r.chars ++ tail) = r.chars ++ tail :=
  Lexeme.trimSpaces_append (Rule.isTight_chars hr) tail

theorem trimSpaces_chars_nil {r : Rule} (hr : r.IsQuotable) :
    Lexeme.trimSpaces r.chars = r.chars ++ [] := by
  have h := trimSpaces_chars hr []
  rwa [List.append_nil] at h ⊢

theorem chars_comparison_append (c : Comparison) (f : String) (v : Value) (tail : List Char) :
    (Rule.comparison c f v).chars ++ tail =
      f.toList ++ ' ' :: (c.symbol.toList ++ ' ' :: (v.chars ++ tail)) := by
  rw [Rule.chars]
  simp

theorem chars_join_append (c : Connective) (l r : Rule) (tail : List Char) :
    (Rule.join c l r).chars ++ tail =
      l.chars ++ ' ' :: (c.symbol.toList ++ ' ' :: (r.rightChars ++ tail)) := by
  rw [Rule.chars_join]
  simp

theorem exists_next?_word {r : Rule} (hr : r.IsQuotable) {tail : List Char}
    (hp : Lexeme.trimSpaces p.rest = r.chars ++ tail) : ∃ w q, p.next? = some (.word w, q) := by
  induction r generalizing tail with
  | comparison c f v =>
    rw [chars_comparison_append] at hp
    obtain ⟨q, hq, -⟩ := next?_of_field hr.1 hp
    exact ⟨f.toList, q, hq⟩
  | join c l r ihl _ =>
    rw [chars_join_append] at hp
    exact ihl hr.1 hp

/-- A comparison is read along its text, however its value is spelled. -/
theorem exists_run_comparison_of_value (room : Nat) {c : Comparison} {f : String} {v : Value}
    {rest : List Char} (hf : IsFieldName f) (hl : p.terms < limits.terms)
    (hv : ∀ p : Place, p.rest = ' ' :: rest → ∃ q, Grammar.value p = .ok (v, q) ∧ q.rest = tail)
    (hp : Lexeme.trimSpaces p.rest = f.toList ++ ' ' :: (c.symbol.toList ++ ' ' :: rest)) :
    ∃ q, Run limits .term room p (.comparison c f v) q ∧ q.rest = tail ∧ q.terms = p.terms + 1 := by
  obtain ⟨p₁, h₁, hr₁⟩ := next?_of_field hf hp
  obtain ⟨p₂, h₂, hr₂⟩ := next?_of_symbol hr₁
  obtain ⟨p₃, h₃, hr₃⟩ := hv p₂ hr₂
  refine ⟨_, .comparison hl h₁ h₂ h₃, hr₃, ?_⟩
  show p₃.terms + 1 = p.terms + 1
  rw [terms_of_value h₃, Place.next?_terms h₂, Place.next?_terms h₁]

theorem exists_run_comparison (room : Nat) {c : Comparison} {f : String} {v : Value}
    (hf : IsFieldName f) (hv : v.IsSpellable) (hl : p.terms < limits.terms) (ht : Stops tail)
    (hp : Lexeme.trimSpaces p.rest = (Rule.comparison c f v).chars ++ tail) :
    ∃ q, Run limits .term room p (.comparison c f v) q ∧ q.rest = tail ∧ q.terms = p.terms + 1 := by
  rw [chars_comparison_append] at hp
  exact exists_run_comparison_of_value room hf hl (fun _ => value_of_isSpellable hv ht) hp

theorem connective?_eq_none_of_mark {c : Char} (h : p.next? = some (.mark c, q)) :
    connective? p = none :=
  connective?_eq_none_of_next? fun d q' hword => by
    rw [h] at hword
    cases hword

/-- What stands on the right of a connective is read as a term, if a joined rule that stands there is
read along its text in parentheses. -/
theorem exists_run_right {r : Rule} (hr : r.IsSpellable) (hn : r.rightNesting ≤ room)
    (hl : p.terms + r.count ≤ limits.terms) (ht : Stops tail)
    (hp : p.rest = ' ' :: (r.rightChars ++ tail))
    (hinside : ∀ {room p tail}, r.textNesting ≤ room → p.terms + r.count ≤ limits.terms →
      Stops tail → Lexeme.trimSpaces p.rest = r.chars ++ tail →
      ∃ q, Run limits .chain room p r q ∧ q.rest = tail ∧ q.terms = p.terms + r.count) :
    ∃ q, Run limits .term room p r q ∧ q.rest = tail ∧ q.terms = p.terms + r.count := by
  have hq : r.IsQuotable := hr.isQuotable
  cases r with
  | comparison d f v =>
    have hchars : Lexeme.trimSpaces p.rest = (Rule.comparison d f v).chars ++ tail := by
      rw [hp, Lexeme.trimSpaces_space]
      exact trimSpaces_chars hq tail
    exact exists_run_comparison room hr.1 hr.2 hl ht hchars
  | join d a b =>
    obtain ⟨room, rfl⟩ := Nat.exists_eq_add_of_le' (Nat.le_of_add_left_le hn)
    have hopen : Lexeme.trimSpaces p.rest = '(' :: ((Rule.join d a b).chars ++ ')' :: tail) := by
      rw [hp, Lexeme.trimSpaces_space, Rule.rightChars]
      simp [Lexeme.trimSpaces]
    obtain ⟨p₁, h₁, hr₁⟩ := next?_of_opening hopen
    have ht₁ := Place.next?_terms h₁
    have hchars : Lexeme.trimSpaces p₁.rest = (Rule.join d a b).chars ++ ')' :: tail := by
      rw [hr₁, trimSpaces_chars hq]
    obtain ⟨p₂, hrun, hr₂, ht₂⟩ :=
      hinside (Nat.le_of_succ_le_succ hn) (by rwa [ht₁]) (stops_closing tail) hchars
    obtain ⟨q, hmark, hrest⟩ := next?_of_closing_mark hr₂
    refine ⟨q, .group h₁ hrun (connective?_eq_none_of_mark hmark) (closing_of_mark hmark), hrest, ?_⟩
    rw [Place.next?_terms hmark, ht₂, ht₁]

theorem exists_run {r : Rule} (hr : r.IsSpellable) (hn : r.textNesting ≤ room)
    (hl : p.terms + r.count ≤ limits.terms) (ht : Stops tail)
    (hp : Lexeme.trimSpaces p.rest = r.chars ++ tail) :
    ∃ q, Run limits .chain room p r q ∧ q.rest = tail ∧ q.terms = p.terms + r.count := by
  -- on the right, in parentheses, there is less room and a parenthesis ahead
  induction r generalizing p tail room with
  | comparison c f v =>
    obtain ⟨q, hrun, hq, hterms⟩ := exists_run_comparison room hr.1 hr.2 hl ht hp
    exact ⟨q, .single hrun, hq, hterms⟩
  | join c l r ihl ihr =>
    rw [chars_join_append] at hp
    rw [Rule.textNesting_join, Nat.max_le] at hn
    simp only [Rule.count] at hl
    obtain ⟨p₁, hleft, hr₁, ht₁⟩ := ihl hr.1 hn.1 (by omega) (stops_space _) hp
    obtain ⟨p₂, hc, hr₂⟩ := connective?_of_symbol hr₁
    have ht₂ := Place.next?_terms (connective?_eq_some.1 hc)
    obtain ⟨q, hright, hq, hterms⟩ :=
      exists_run_right hr.2 hn.2 (by omega) ht hr₂ fun hn hl ht hp => ihr hr.2 hn hl ht hp
    refine ⟨q, .join hleft hc hright, hq, ?_⟩
    simp only [Rule.count]
    omega

/-- What a run that starts at a word says of the comparison it finds. -/
theorem Grammar.Run.comparison_inv {c : Comparison} {f : String} {v : Value} {w : List Char}
    {p' : Place} (h : Run limits part room p (.comparison c f v) q)
    (hw : p.next? = some (.word w, p')) :
    ∃ p₁ p₂ p₃, p.next? = some (.word f.toList, p₁) ∧
      p₁.next? = some (.symbol c.symbol.toList, p₂) ∧ Grammar.value p₂ = .ok (v, p₃) ∧
      q = { p₃ with terms := p₃.terms + 1 } := by
  cases h with
  | comparison _ hf hc hv => exact ⟨_, _, _, hf, hc, hv, rfl⟩
  | group ho =>
    rw [hw] at ho
    cases ho
  | single h =>
    cases h with
    | comparison _ hf hc hv => exact ⟨_, _, _, hf, hc, hv, rfl⟩
    | group ho =>
      rw [hw] at ho
      cases ho

theorem Grammar.Run.join_inv {c : Connective} {l r : Rule} {w : List Char} {p' : Place}
    (h : Run limits part room p (.join c l r) q) (hw : p.next? = some (.word w, p')) :
    ∃ p₁ p₂, Run limits .chain room p l p₁ ∧ connective? p₁ = some (c, p₂) ∧
      Run limits .term room p₂ r q := by
  cases h with
  | group ho =>
    rw [hw] at ho
    cases ho
  | single h =>
    cases h with
    | group ho =>
      rw [hw] at ho
      cases ho
  | join hl hc hr => exact ⟨_, _, hl, hc, hr⟩

theorem Grammar.Run.group_inv {r : Rule} {p' : Place} (h : Run limits .term room p r q)
    (ho : p.next? = some (.mark '(', p')) :
    ∃ n p₂, room = n + 1 ∧ Run limits .chain n p' r p₂ ∧ closing limits p₂ = .ok ((), q) := by
  cases h with
  | comparison _ hf =>
    rw [ho] at hf
    cases hf
  | group ho' hrun _ hc =>
    rw [ho] at ho'
    cases ho'
    exact ⟨_, _, rfl, hrun, hc⟩

/-- What a run says of a rule along whose text it goes, if it finds the same rule. -/
structure Spelled (r : Rule) (room : Nat) (p q : Place) (tail : List Char) : Prop where
  isSpellable : r.IsSpellable
  nesting_le : r.textNesting ≤ room
  rest_eq : q.rest = tail
  terms_eq : q.terms = p.terms + r.count

theorem Grammar.Run.spelled_comparison {m : Rule} {c : Comparison} {f : String} {v : Value}
    (h : Run limits part room p m q) (hm : m.same (.comparison c f v))
    (hr : (Rule.comparison c f v).IsQuotable) (ht : Stops tail)
    (hp : Lexeme.trimSpaces p.rest = (Rule.comparison c f v).chars ++ tail) :
    Spelled (.comparison c f v) room p q tail := by
  obtain ⟨w, p', hw⟩ := exists_next?_word hr hp
  obtain ⟨v', rfl, -⟩ := Rule.same_comparison_right hm
  obtain ⟨p₁, p₂, p₃, h₁, h₂, h₃, rfl⟩ := h.comparison_inv hw
  rw [chars_comparison_append] at hp
  obtain ⟨q₁, hq₁, hr₁⟩ := next?_of_field hr.1 hp
  obtain rfl : p₁ = q₁ := by
    rw [h₁] at hq₁
    cases hq₁
    rfl
  obtain ⟨q₂, hq₂, hr₂⟩ := next?_of_symbol hr₁
  obtain rfl : p₂ = q₂ := by
    rw [h₂] at hq₂
    cases hq₂
    rfl
  obtain ⟨hv, hr₃⟩ := isSpellable_of_value hr.2 ht hr₂ h₃
  exact {
    isSpellable := ⟨hr.1, hv⟩
    nesting_le := by
      rw [Rule.textNesting]
      exact Nat.zero_le room
    rest_eq := hr₃
    terms_eq := by
      show p₃.terms + 1 = p.terms + 1
      rw [terms_of_value h₃, Place.next?_terms h₂, Place.next?_terms h₁] }

/-- What a run says of a rule on the right of a connective, if runs along its own text say it. -/
theorem Grammar.Run.spelled_right {r m : Rule} (h : Run limits .term room p m q) (hm : m.same r)
    (hr : r.IsQuotable) (ht : Stops tail) (hp : p.rest = ' ' :: (r.rightChars ++ tail))
    (hinside : ∀ {part room p q tail}, Run limits part room p m q → Stops tail →
      Lexeme.trimSpaces p.rest = r.chars ++ tail → Spelled r room p q tail) :
    r.IsSpellable ∧ r.rightNesting ≤ room ∧ q.rest = tail ∧ q.terms = p.terms + r.count := by
  cases r with
  | comparison d f v =>
    have hchars : Lexeme.trimSpaces p.rest = (Rule.comparison d f v).chars ++ tail := by
      rw [hp, Lexeme.trimSpaces_space]
      exact trimSpaces_chars hr tail
    have hs := hinside h ht hchars
    exact ⟨hs.isSpellable, Nat.zero_le _, hs.rest_eq, hs.terms_eq⟩
  | join d a b =>
    have hopen : Lexeme.trimSpaces p.rest = '(' :: ((Rule.join d a b).chars ++ ')' :: tail) := by
      rw [hp, Lexeme.trimSpaces_space, Rule.rightChars]
      simp [Lexeme.trimSpaces]
    obtain ⟨p₁, h₁, hr₁⟩ := next?_of_opening hopen
    obtain ⟨n, p₂, rfl, hinner, hclose⟩ := h.group_inv h₁
    have hchars : Lexeme.trimSpaces p₁.rest = (Rule.join d a b).chars ++ ')' :: tail := by
      rw [hr₁, trimSpaces_chars hr]
    have hs := hinside hinner (stops_closing tail) hchars
    obtain ⟨q', hmark, hrest⟩ := next?_of_closing_mark hs.rest_eq
    obtain rfl : q' = q := by
      rw [closing_of_mark hmark] at hclose
      cases hclose
      rfl
    refine ⟨hs.isSpellable, Nat.succ_le_succ hs.nesting_le, hrest, ?_⟩
    rw [Place.next?_terms hmark, hs.terms_eq, Place.next?_terms h₁]

theorem Grammar.Run.spelled {r m : Rule} (h : Run limits part room p m q) (hm : m.same r)
    (hr : r.IsQuotable) (ht : Stops tail) (hp : Lexeme.trimSpaces p.rest = r.chars ++ tail) :
    Spelled r room p q tail := by
  induction r generalizing m part room p q tail with
  | comparison c f v => exact h.spelled_comparison hm hr ht hp
  | join c l r ihl ihr =>
    obtain ⟨w, p', hw⟩ := exists_next?_word hr hp
    obtain ⟨l', r', rfl, hml, hmr⟩ := Rule.same_join_right hm
    obtain ⟨p₁, p₂, hleft, hc, hright⟩ := h.join_inv hw
    rw [chars_join_append] at hp
    have hl := ihl hleft hml hr.1 (stops_space _) hp
    obtain ⟨q₂, hq₂, hr₂⟩ := connective?_of_symbol hl.rest_eq
    obtain rfl : p₂ = q₂ := by
      rw [hc] at hq₂
      cases hq₂
      rfl
    have hterms₂ := Place.next?_terms (connective?_eq_some.1 hc)
    -- on the right stands a term: a comparison, or a joined rule in parentheses
    obtain ⟨hspell, hnesting, hrest, hterms⟩ :=
      hright.spelled_right hmr hr.2 ht hr₂ fun h ht hp => ihr h hmr hr.2 ht hp
    exact {
      isSpellable := ⟨hl.isSpellable, hspell⟩
      nesting_le := by
        rw [Rule.textNesting_join]
        exact Nat.max_le.2 ⟨hl.nesting_le, hnesting⟩
      rest_eq := hrest
      terms_eq := by
        have hterms₁ := hl.terms_eq
        simp only [Rule.count]
        omega }

end

/-! ### Texts read back -/

theorem Value.same_of_isSpellable {v : Value} (h : v.IsSpellable) : v.same v := by
  cases v with
  | text s => exact Value.same_text.2 rfl
  | number x =>
    obtain ⟨m, rfl, -⟩ := h
    exact Value.same_number.2 ⟨_, rfl, Binary64.same_self Binary64.noConfusion⟩

/-- Reading the text of a rule gives the same rule exactly if the rule is spellable, has no more
comparisons than the limits allow, and its text opens no more parentheses. -/
theorem parse_text_same_iff (limits : Limits) (r : Rule) :
    (∃ m, Rule.parse limits r.text = .ok m ∧ m.same r) ↔
      r.IsSpellable ∧ r.count ≤ limits.terms ∧ r.textNesting ≤ limits.depth := by
  constructor
  · rintro ⟨m, hm, hsame⟩
    rw [Rule.parse, Outcome.mapError_eq_ok, Rule.read_eq_ok] at hm
    obtain ⟨q, hrun, -⟩ := hm
    have hq : r.IsQuotable := by
      refine (hrun.isQuotable (Text.isSpaced_squeeze _)).of_same hsame ?_
      rintro c f v w ⟨hf, hv⟩ hvw
      refine ⟨hf, ?_⟩
      cases w with
      | number x => exact trivial
      | text s =>
        cases v with
        | number x =>
          obtain ⟨y, hy, -⟩ := Value.same_number.1 hvw
          cases hy
        | text t =>
          cases Value.same_text.1 hvw
          exact hv
    rw [Rule.squeeze_text hq] at hrun
    have hs := hrun.spelled hsame hq stops_nil (trimSpaces_chars_nil hq)
    have hterms := hrun.terms_le
    rw [hs.terms_eq, Nat.zero_add] at hterms
    exact ⟨hs.isSpellable, hterms, hs.nesting_le⟩
  · rintro ⟨hr, hl, hn⟩
    refine ⟨r, ?_, Rule.same_self (hr.mono fun _ _ _ h => Value.same_of_isSpellable h.2)⟩
    have hp := trimSpaces_chars_nil hr.isQuotable
    obtain ⟨q, hrun, hrest, -⟩ :=
      exists_run (p := { rest := r.chars }) hr hn (by rwa [Nat.zero_add]) stops_nil hp
    rw [Rule.parse, Outcome.mapError_eq_ok, Rule.read_eq_ok, Rule.squeeze_text hr.isQuotable]
    refine ⟨q, hrun, Place.next?_eq_none.2 ?_⟩
    rw [hrest]
    rfl

end Rulebook
