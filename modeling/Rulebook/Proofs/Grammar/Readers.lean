import Rulebook.Proofs.Grammar.Character
import Rulebook.Proofs.Grammar.Lexeme
import Rulebook.Proofs.Outcome

/-!
# The readers of rule text, lexeme by lexeme

Every reader is an equation over `Place.next?`: the lexeme in front decides what it answers, and the
place it answers with is the place after that lexeme.
-/

namespace Rulebook
open Grammar

theorem Comparison.ofSymbol?_symbol (c : Comparison) : ofSymbol? c.symbol = some c := by
  cases c <;> decide

theorem Comparison.symbol_of_ofSymbol? {s : String} {c : Comparison} (h : ofSymbol? s = some c) :
    c.symbol = s := by
  simpa using List.find?_some h

namespace Grammar

/-! ### Parts of a comparison -/

theorem field_eq (p : Place) :
    field p = match p.next? with
      | some (.word w, q) => .ok (String.ofList w, q)
      | _ => p.skipSpaces.obstacle (.noField p.skipSpaces.rest.head?) := by
  unfold field
  cases h : p.skipSpaces.rest with
  | nil => simp [Place.next?_of_rest_eq_nil h, Place.front, h]
  | cons c cs =>
    rw [Place.next?_of_rest_eq_cons h]
    by_cases hc : isFieldChar c
    · simp [Place.front, h, hc]
    · simp only [Place.front, h, List.takeWhile_cons_of_neg hc, if_true, if_neg hc]
      split_ifs <;> rfl

theorem field_eq_ok {p q : Place} {s : String} :
    field p = .ok (s, q) ↔ p.next? = some (.word s.toList, q) := by
  rw [field_eq]
  constructor
  · intro h
    split at h
    · next w r hn =>
      cases h
      rw [hn, String.toList_ofList]
    · cases h
  · intro h
    simp [h]

theorem comparison_eq (p : Place) :
    comparison p = match p.next? with
      | some (.symbol s, q) =>
        match Comparison.ofSymbol? (String.ofList s) with
        | some c => .ok (c, q)
        | none => p.skipSpaces.obstacle (.unknownComparison s)
      | _ => p.skipSpaces.obstacle (.noComparison p.skipSpaces.rest.head?) := by
  unfold comparison
  cases h : p.skipSpaces.rest with
  | nil => simp [Place.next?_of_rest_eq_nil h, Place.front, h]
  | cons c cs =>
    rw [Place.next?_of_rest_eq_cons h]
    by_cases hc : isComparisonChar c
    · have hrun : (c :: cs).takeWhile isComparisonChar ≠ [] := by simp [hc]
      have hword := not_isFieldChar_of_isComparisonChar hc
      cases hs : Comparison.ofSymbol? (String.ofList ((c :: cs).takeWhile isComparisonChar)) <;>
        simp only [Place.front, h, hword, hc, hs, Bool.false_eq_true, if_false, if_true,
          if_neg hrun]
    · simp only [Place.front, h, List.takeWhile_cons_of_neg hc, if_true, if_neg hc]
      split_ifs <;> rfl

theorem comparison_eq_ok {p q : Place} {c : Comparison} :
    comparison p = .ok (c, q) ↔ p.next? = some (.symbol c.symbol.toList, q) := by
  rw [comparison_eq]
  constructor
  · intro h
    split at h
    · next s r hn =>
      split at h
      · next d hd =>
        cases h
        rw [hn, Comparison.symbol_of_ofSymbol? hd, String.toList_ofList]
      · cases h
    · cases h
  · intro h
    simp [h, Comparison.ofSymbol?_symbol]

theorem value_of_ne {p : Place} {c : Char} {cs : List Char} (h : p.skipSpaces.rest = c :: cs)
    (hq : c ≠ '\'') :
    value p =
      (let digits := (c :: cs).takeWhile isNumberChar
      if digits = [] then p.skipSpaces.obstacle (.noValue (some c))
      else match Numeral.read? digits with
        | some x => .ok (.number x, p.skipSpaces.after digits)
        | none => p.skipSpaces.obstacle (.badNumber digits)) := by
  simp only [value, h]
  split
  · next body hb => exact absurd (List.cons.inj hb).1 hq
  · rfl

theorem value_eq (p : Place) :
    value p = match p.next? with
      | some (.quoted s, q) => .ok (.text (String.ofList s), q)
      | some (.numeral digits, q) =>
        match Numeral.read? digits with
        | some x => .ok (.number x, q)
        | none => p.skipSpaces.obstacle (.badNumber digits)
      | some (.mark '\'', _) => p.skipSpaces.obstacle .unclosedText
      | _ => p.skipSpaces.obstacle (.noValue p.skipSpaces.rest.head?) := by
  cases h : p.skipSpaces.rest with
  | nil => simp [value, h, Place.next?_of_rest_eq_nil h]
  | cons c cs =>
    rw [Place.next?_of_rest_eq_cons h]
    by_cases hq : c = '\''
    · subst hq
      have hf : isFieldChar '\'' = false := by decide
      have hs : isComparisonChar '\'' = false := by decide
      have hn : isNumberChar '\'' = false := by decide
      simp only [value, h, hf, hs, hn, Bool.false_eq_true, if_false, true_and]
      by_cases hc : '\'' ∈ cs
      · rw [if_pos hc, if_neg (Text.length_takeWhile_ne hc)]
      · rw [if_neg hc, Text.takeWhile_ne_of_notMem hc, if_pos rfl]
        rfl
    · rw [value_of_ne h hq]
      simp only [hq, false_and, if_false]
      by_cases hn : isNumberChar c
      · simp [hn, not_isFieldChar_of_isNumberChar hn, not_isComparisonChar_of_isNumberChar hn]
      · rw [if_neg hn, List.takeWhile_cons_of_neg hn, if_pos rfl]
        split_ifs
        · rfl
        · rfl
        · simp [hq]

theorem value_eq_ok_text {p q : Place} {s : String} :
    value p = .ok (.text s, q) ↔ p.next? = some (.quoted s.toList, q) := by
  rw [value_eq]
  constructor
  · intro h
    split at h
    · next t r hn =>
      cases h
      rw [hn, String.toList_ofList]
    · split at h <;> cases h
    · cases h
    · cases h
  · intro h
    simp [h]

theorem value_eq_ok_number {p q : Place} {x : Binary64} :
    value p = .ok (.number x, q) ↔
      ∃ digits, p.next? = some (.numeral digits, q) ∧ Numeral.read? digits = some x := by
  rw [value_eq]
  constructor
  · intro h
    split at h
    · cases h
    · next digits r hn =>
      split at h
      · next y hy =>
        cases h
        exact ⟨digits, hn, hy⟩
      · cases h
    · cases h
    · cases h
  · rintro ⟨digits, hn, hx⟩
    simp [hn, hx]

/-! ### Connectives -/

theorem connectiveAt?_eq_some {c : Connective} {p q : Place} :
    connectiveAt? c p = some q ↔
      p.front isFieldChar = c.symbol.toList ∧ q = p.after c.symbol.toList := by
  have hall : c.symbol.toList.all isFieldChar := by cases c <;> decide
  rw [Place.front, Text.takeWhile_eq_iff hall, ← List.isPrefixOf_iff_prefix]
  show (if _ then if _ then none else some (p.after c.symbol.toList) else none) = some q ↔ _
  split_ifs with hp hs
  · constructor
    · intro h
      cases h
    · rintro ⟨⟨-, hn⟩, -⟩
      exact absurd (hn.symm.trans hs) Bool.false_ne_true
  · rw [Option.some.injEq, eq_comm]
    exact ⟨fun h => ⟨⟨hp, Bool.eq_false_iff.2 hs⟩, h⟩, fun h => h.2⟩
  · exact ⟨fun h => (by cases h), fun h => absurd h.1.1 hp⟩

theorem connective?_eq_some {p q : Place} {c : Connective} :
    connective? p = some (c, q) ↔ p.next? = some (.word c.symbol.toList, q) := by
  have hne : c.symbol.toList ≠ [] := by cases c <;> decide
  have hand : ∀ r, connectiveAt? .and p.skipSpaces = some r →
      connectiveAt? .or p.skipSpaces = none := by
    intro r hr
    cases ho : connectiveAt? .or p.skipSpaces with
    | none => rfl
    | some o =>
      have h := (connectiveAt?_eq_some.1 hr).1.symm.trans (connectiveAt?_eq_some.1 ho).1
      exact absurd h (by decide)
  rw [Place.next?_eq_word, ← connectiveAt?_eq_some]
  simp only [connective?, Connective.all, List.findSome?_cons, List.findSome?_nil]
  cases ha : connectiveAt? .and p.skipSpaces with
  | some r =>
    cases c with
    | and => simp [ha, hne]
    | or => simp [hand r ha]
  | none =>
    cases ho : connectiveAt? .or p.skipSpaces with
    | some o => cases c <;> simp [ha, ho, hne]
    | none => cases c <;> simp [ha, ho]

theorem connective?_eq_none_of_next? {p : Place}
    (h : ∀ (c : Connective) q, p.next? ≠ some (.word c.symbol.toList, q)) : connective? p = none := by
  cases hc : connective? p with
  | none => rfl
  | some cq => exact absurd (connective?_eq_some.1 hc) (h _ _)

/-! ### Terms -/

theorem closing_of_cons {limits : Limits} {p : Place} {c : Char} {cs : List Char}
    (h : p.skipSpaces.rest = c :: cs) :
    closing limits p =
      if c = ')' ∨ limits.lenient then .ok ((), p.skipSpaces.after [c])
      else p.skipSpaces.obstacle .noClosing := by
  simp only [closing, h]

theorem closing_of_nil {limits : Limits} {p : Place} (h : p.skipSpaces.rest = []) :
    closing limits p =
      if limits.lenient then .ok ((), p.skipSpaces) else p.skipSpaces.obstacle .noClosing := by
  simp only [closing, h]

theorem closing_of_mark {limits : Limits} {p q : Place} (h : p.next? = some (.mark ')', q)) :
    closing limits p = .ok ((), q) := by
  obtain ⟨hr, rfl⟩ := (Place.next?_eq_mark (by decide) (by decide) (by decide) (by decide)).1 h
  obtain ⟨cs, hcs⟩ := List.head?_eq_some_iff.1 hr
  rw [closing_of_cons hcs, if_pos (Or.inl rfl)]

theorem next?_of_closing {limits : Limits} (hl : limits.lenient = false) {p q : Place}
    (h : closing limits p = .ok ((), q)) : p.next? = some (.mark ')', q) := by
  rw [Place.next?_eq_mark (by decide) (by decide) (by decide) (by decide)]
  cases hr : p.skipSpaces.rest with
  | nil =>
    rw [closing_of_nil hr, hl] at h
    cases h
  | cons c cs =>
    rw [closing_of_cons hr, hl] at h
    by_cases hc : c = ')'
    · subst hc
      rw [if_pos (Or.inl rfl)] at h
      cases h
      exact ⟨rfl, rfl⟩
    · rw [if_neg (by simpa using hc)] at h
      cases h

theorem term_of_group {limits : Limits} {group? : Option (Reading Rule)} {p q : Place}
    (h : p.next? = some (.mark '(', q)) :
    term limits group? p = match group? with
      | none => p.skipSpaces.obstacle (.tooDeep limits.depth)
      | some group => do
        let (rule, q) ← group q
        let ((), q) ← closing limits q
        return (rule, q) := by
  obtain ⟨hr, rfl⟩ := (Place.next?_eq_mark (by decide) (by decide) (by decide) (by decide)).1 h
  obtain ⟨cs, hcs⟩ := List.head?_eq_some_iff.1 hr
  cases group? <;> simp only [term, hcs]

theorem term_of_no_group {limits : Limits} {group? : Option (Reading Rule)} {p : Place}
    (h : ∀ q, p.next? ≠ some (.mark '(', q)) :
    term limits group? p = simpleTerm limits p.skipSpaces := by
  simp only [term]
  split
  · next cs hcs =>
    have hn := (Place.next?_eq_mark (q := p.skipSpaces.after ['(']) (by decide) (by decide) (by decide)
      (by decide)).2 ⟨by rw [hcs]; rfl, rfl⟩
    exact absurd hn (h _)
  · rfl

theorem simpleTerm_eq_ok {limits : Limits} {p q : Place} {r : Rule} :
    simpleTerm limits p = .ok (r, q) ↔ p.terms < limits.terms ∧
      ∃ f p₁ c p₂ v p₃, field p = .ok (f, p₁) ∧ comparison p₁ = .ok (c, p₂) ∧
        value p₂ = .ok (v, p₃) ∧ r = .comparison c f v ∧ q = { p₃ with terms := p₃.terms + 1 } := by
  rw [simpleTerm]
  split_ifs with h
  · constructor
    · intro hr
      cases hr
    · intro hr
      omega
  · simp only [Outcome.bind_eq_ok, Prod.exists]
    constructor
    · rintro ⟨f, p₁, hf, c, p₂, hc, v, p₃, hv, hr⟩
      cases hr
      exact ⟨by omega, f, p₁, c, p₂, v, p₃, hf, hc, hv, rfl, rfl⟩
    · rintro ⟨-, f, p₁, c, p₂, v, p₃, hf, hc, hv, rfl, rfl⟩
      exact ⟨f, p₁, hf, c, p₂, hc, v, p₃, hv, rfl⟩

end Grammar

end Rulebook
