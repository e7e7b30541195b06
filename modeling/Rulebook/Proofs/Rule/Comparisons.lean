import Mathlib.Tactic.Cases
import Rulebook.Rule.Basic

/-!
# The comparisons in a rule

What can be said of a rule is mostly said of each comparison in it (`Rule.ForAll`). Rules that are the
same up to equality of numbers have the same shape, and the comparisons at the same place differ at
most in how a number is written.
-/

namespace Rulebook

namespace Binary64

theorem same_self {x : Binary64} (h : x ≠ nan) : x.same x := by
  cases x with
  | nan => exact absurd rfl h
  | signed negative m => simp [same, order]

end Binary64

theorem Value.same_text {s : String} {v : Value} : (text s).same v ↔ v = text s := by
  cases v with
  | number x => exact ⟨fun h => (by cases h), fun h => (by cases h)⟩
  | text t =>
    show decide (s = t) = true ↔ _
    rw [decide_eq_true_iff, text.injEq, eq_comm]

theorem Value.same_number {x : Binary64} {v : Value} :
    (number x).same v ↔ ∃ y, v = number y ∧ x.same y := by
  cases v with
  | number y =>
    refine ⟨fun h => ⟨y, rfl, h⟩, ?_⟩
    rintro ⟨z, hz, h⟩
    cases hz
    exact h
  | text t =>
    refine ⟨fun h => (by cases h), ?_⟩
    rintro ⟨z, hz, -⟩
    cases hz

namespace Rule

theorem same_comparison {c : Comparison} {f : String} {v : Value} {r : Rule} :
    (comparison c f v).same r ↔ ∃ w, r = comparison c f w ∧ v.same w := by
  cases r with
  | comparison d g w =>
    simp only [same, Bool.and_eq_true, decide_eq_true_eq]
    constructor
    · rintro ⟨⟨rfl, rfl⟩, h⟩
      exact ⟨w, rfl, h⟩
    · rintro ⟨_, hr, h⟩
      cases hr
      exact ⟨⟨rfl, rfl⟩, h⟩
  | join d a b =>
    refine ⟨fun h => (by cases h), ?_⟩
    rintro ⟨w, hw, -⟩
    cases hw

theorem same_join {c : Connective} {a b r : Rule} :
    (join c a b).same r ↔ ∃ d e, r = join c d e ∧ a.same d ∧ b.same e := by
  cases r with
  | comparison d g w =>
    refine ⟨fun h => (by cases h), ?_⟩
    rintro ⟨d, e, hr, -⟩
    cases hr
  | join d a' b' =>
    simp only [same, Bool.and_eq_true, decide_eq_true_eq]
    constructor
    · rintro ⟨⟨rfl, ha⟩, hb⟩
      exact ⟨a', b', rfl, ha, hb⟩
    · rintro ⟨_, _, hr, ha, hb⟩
      cases hr
      exact ⟨⟨rfl, ha⟩, hb⟩

theorem same_comparison_right {c : Comparison} {f : String} {v : Value} {r : Rule}
    (h : r.same (comparison c f v)) : ∃ w, r = comparison c f w ∧ w.same v := by
  cases r with
  | comparison d g w =>
    obtain ⟨u, hu, hw⟩ := same_comparison.1 h
    cases hu
    exact ⟨w, rfl, hw⟩
  | join d a b =>
    obtain ⟨e, f, he, -⟩ := same_join.1 h
    cases he

theorem same_join_right {c : Connective} {a b r : Rule} (h : r.same (join c a b)) :
    ∃ d e, r = join c d e ∧ d.same a ∧ e.same b := by
  cases r with
  | comparison d g w =>
    obtain ⟨u, hu, -⟩ := same_comparison.1 h
    cases hu
  | join d a' b' =>
    obtain ⟨e, f, he, ha, hb⟩ := same_join.1 h
    cases he
    exact ⟨a', b', rfl, ha, hb⟩

/-- Every comparison in a rule has a property. -/
def ForAll (P : Comparison → String → Value → Prop) : Rule → Prop
  | comparison c field value => P c field value
  | join _ left right => left.ForAll P ∧ right.ForAll P

section

variable {P Q : Comparison → String → Value → Prop}

theorem ForAll.mono {r : Rule} (h : r.ForAll P) (hPQ : ∀ c f v, P c f v → Q c f v) :
    r.ForAll Q := by
  induction r with
  | comparison c f v => exact hPQ c f v h
  | join c a b iha ihb => exact ⟨iha h.1, ihb h.2⟩

/-- What holds of the comparisons of a rule holds of those of the same rule, as far as it does not
depend on how numbers are written. -/
theorem ForAll.of_same {r s : Rule} (h : r.ForAll P) (hs : r.same s)
    (hPQ : ∀ c f v w, P c f v → v.same w → Q c f w) : s.ForAll Q := by
  induction r generalizing s with
  | comparison c f v =>
    obtain ⟨w, rfl, hw⟩ := same_comparison.1 hs
    exact hPQ c f v w h hw
  | join c a b iha ihb =>
    obtain ⟨d, e, rfl, hd, he⟩ := same_join.1 hs
    exact ⟨iha h.1 hd, ihb h.2 he⟩

end

/-- A rule has at most as many levels as comparisons. -/
theorem depth_le_count (r : Rule) : r.depth ≤ r.count := by
  have hpos : ∀ r : Rule, 1 ≤ r.count := by
    intro r
    induction r with
    | comparison => exact Nat.le_refl 1
    | join c a b iha _ => exact Nat.le_add_right_of_le iha
  induction r with
  | comparison => exact Nat.le_refl 1
  | join c a b iha ihb =>
    have ha := hpos a
    have hb := hpos b
    simp only [depth, count]
    omega

theorem same_self {r : Rule} (h : r.ForAll fun _ _ v => v.same v) : r.same r := by
  induction r with
  | comparison c f v => exact same_comparison.2 ⟨v, rfl, h⟩
  | join c a b iha ihb => exact same_join.2 ⟨a, b, rfl, iha h.1, ihb h.2⟩

end Rule

end Rulebook
