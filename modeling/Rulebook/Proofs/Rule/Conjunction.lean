import Rulebook.Proofs.Outcome
import Rulebook.Proofs.Rule.Comparisons
import Rulebook.Proofs.Rule.Spelling
import Rulebook.Rule.Conjunction

/-!
# What a conjunction is made of

A conjunction is joined from the left, so its comparisons are those of its parts, and only the parts
after the first one stand on the right of a connective: in its text each of these that is joined itself
gets a pair of parentheses (`Rule.textNesting_foldl_le`).
-/

namespace Rulebook.Rule

theorem conjunction_eq_ok {rules : List Rule} {r : Rule} :
    conjunction rules = .ok r ↔
      ∃ first rest, rules = first :: rest ∧ r = rest.foldl (join .and) first := by
  cases rules with
  | nil =>
    constructor
    · intro h
      cases h
    · rintro ⟨first, rest, h, -⟩
      cases h
  | cons first rest =>
    constructor
    · intro h
      cases h
      exact ⟨first, rest, rfl, rfl⟩
    · rintro ⟨first', rest', h, rfl⟩
      cases h
      rfl

theorem conjunctionWithin_eq_ok {limit : Nat} {rules : List Rule} {r : Rule} :
    conjunctionWithin limit rules = .ok r ↔
      totalCount rules ≤ limit ∧ conjunction rules = .ok r := by
  unfold conjunctionWithin
  split
  · next h =>
    constructor
    · intro hr
      cases hr
    · rintro ⟨hle, -⟩
      omega
  · next h => exact ⟨fun hr => ⟨by omega, hr⟩, fun hr => hr.2⟩

theorem conjunctionWithin_eq_error {limit : Nat} {rules : List Rule} {fault : Fault} :
    conjunctionWithin limit rules = .error fault ↔
      (limit < totalCount rules ∧ fault = .tooManyTerms (totalCount rules) limit) ∨
        (rules = [] ∧ fault = .nothingToJoin) := by
  unfold conjunctionWithin
  split
  · next h =>
    have hne : rules ≠ [] := by
      rintro rfl
      exact absurd h (Nat.not_lt_zero limit)
    constructor
    · intro herror
      cases herror
      exact Or.inl ⟨h, rfl⟩
    · rintro (⟨-, rfl⟩ | ⟨hnil, -⟩)
      · rfl
      · exact absurd hnil hne
  · next h =>
    constructor
    · intro herror
      cases rules with
      | nil =>
        cases herror
        exact Or.inr ⟨rfl, rfl⟩
      | cons first rest => cases herror
    · rintro (⟨hlt, -⟩ | ⟨rfl, rfl⟩)
      · exact absurd hlt h
      · rfl

theorem totalCount_eq_sum (rules : List Rule) : totalCount rules = (rules.map count).sum := by
  induction rules with
  | nil => rfl
  | cons r rules ih => rw [totalCount, ih, List.map_cons, List.sum_cons]

/-! ### The fold -/

theorem forAll_foldl {P : Comparison → String → Value → Prop} {rest : List Rule} {first : Rule} :
    (rest.foldl (join .and) first).ForAll P ↔ ∀ r ∈ first :: rest, r.ForAll P := by
  induction rest generalizing first with
  | nil => simp
  | cons r rest ih =>
    rw [List.foldl_cons, ih]
    simp only [List.forall_mem_cons, ForAll, and_assoc]

theorem count_foldl (rest : List Rule) (first : Rule) :
    (rest.foldl (join .and) first).count = totalCount (first :: rest) := by
  induction rest generalizing first with
  | nil => rfl
  | cons r rest ih =>
    rw [List.foldl_cons, ih]
    simp only [totalCount, count]
    omega

theorem textNesting_foldl_le {rest : List Rule} {first : Rule} {n : Nat} :
    (rest.foldl (join .and) first).textNesting ≤ n ↔
      first.textNesting ≤ n ∧ ∀ r ∈ rest, r.rightNesting ≤ n := by
  induction rest generalizing first with
  | nil => simp
  | cons r rest ih =>
    rw [List.foldl_cons, ih, textNesting_join, Nat.max_le, List.forall_mem_cons, and_assoc]

/-! ### Conjunctions within a limit -/

variable {limit : Nat} {rules : List Rule} {r : Rule}

theorem forAll_of_conjunctionWithin {P : Comparison → String → Value → Prop}
    (h : conjunctionWithin limit rules = .ok r) : r.ForAll P ↔ ∀ part ∈ rules, part.ForAll P := by
  obtain ⟨-, h⟩ := conjunctionWithin_eq_ok.1 h
  obtain ⟨first, rest, rfl, rfl⟩ := conjunction_eq_ok.1 h
  exact forAll_foldl

theorem count_of_conjunctionWithin (h : conjunctionWithin limit rules = .ok r) :
    r.count = totalCount rules ∧ r.count ≤ limit := by
  obtain ⟨hle, h⟩ := conjunctionWithin_eq_ok.1 h
  obtain ⟨first, rest, rfl, rfl⟩ := conjunction_eq_ok.1 h
  rw [count_foldl]
  exact ⟨rfl, hle⟩

theorem textNesting_le_of_conjunctionWithin (h : conjunctionWithin limit rules = .ok r) {n : Nat} :
    r.textNesting ≤ n ↔
      (∀ first ∈ rules.head?, first.textNesting ≤ n) ∧ ∀ part ∈ rules.tail, part.rightNesting ≤ n := by
  obtain ⟨-, h⟩ := conjunctionWithin_eq_ok.1 h
  obtain ⟨first, rest, rfl, rfl⟩ := conjunction_eq_ok.1 h
  rw [textNesting_foldl_le]
  simp

end Rulebook.Rule
