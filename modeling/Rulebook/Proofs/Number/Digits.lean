import Mathlib.Data.List.Count
import Rulebook.Proofs.Grammar.Character
import Rulebook.Proofs.Text.Run

/-!
# Numerals of digits and points

The numerals of rule text have no sign, no power of ten and no name: they are runs of digits and
points. Such a run is a numeral exactly if it has a digit and at most one point (`isSome_read?`), and
it is never negative.
-/

namespace Rulebook.Numeral
open Grammar

/-- A run of digits and points that has a digit, and at most one point. -/
structure IsPlain (cs : List Char) : Prop where
  numberChars : cs.all isNumberChar
  hasDigit : cs.any Char.isDigit
  onePoint : cs.count '.' ≤ 1

theorem isNumberChar_of_mem {cs : List Char} (h : cs.all isNumberChar) {c : Char} (hc : c ∈ cs) :
    isNumberChar c := List.all_eq_true.1 h c hc

theorem all_isNumberChar {cs : List Char} (h : cs.all Char.isDigit) : cs.all isNumberChar := by
  rw [List.all_eq_true] at h ⊢
  intro c hc
  simp [isNumberChar, h c hc]

theorem eq_point {c : Char} (h : isNumberChar c) (hd : c.isDigit = false) : c = '.' := by
  simpa [isNumberChar, hd] using h

/-! ### What stands around the digits -/

theorem splitSign_of_all {cs : List Char} (h : cs.all isNumberChar) :
    splitSign cs = (false, cs) := by
  unfold splitSign
  split
  · exact absurd (isNumberChar_of_mem h List.mem_cons_self) (by decide)
  · exact absurd (isNumberChar_of_mem h List.mem_cons_self) (by decide)
  · rfl

/-- The names of the values without digits start with no digit and no point. -/
theorem named?_of_all {cs : List Char} (h : cs.all isNumberChar) (negative : Bool) :
    named? negative cs = none := by
  have hword : ∀ word : String, ¬ isNumberChar (word.toList.headD '.') →
      String.ofList (cs.map Char.toLower) ≠ word := by
    rintro word hw rfl
    cases cs with
    | nil => exact hw (by decide)
    | cons c cs =>
      have hc := isNumberChar_of_mem h List.mem_cons_self
      simp [toLower_of_isNumberChar hc, hc] at hw
  rw [named?]
  simp only [hword "inf" (by decide), hword "infinity" (by decide), hword "nan" (by decide),
    or_self, if_false]

theorem read?_of_all {cs : List Char} (h : cs.all isNumberChar) :
    read? cs = (decimal? cs).map fun d => .signed false d.nearest := by
  rw [read?, splitSign_of_all h]
  cases hd : decimal? cs with
  | none => simp only [named?_of_all h, hd, Option.map_none]
  | some d => simp only [hd, Option.map_some]

/-! ### The digits -/

theorem decimal?_digits {w : List Char} (hne : w ≠ []) (hw : w.all Char.isDigit) :
    decimal? w = some ⟨natOfDigits w, 0⟩ := by
  have ht : w.takeWhile Char.isDigit = w := Text.takeWhile_of_all hw
  have hd : w.dropWhile Char.isDigit = [] := Text.dropWhile_of_all hw
  simp [decimal?, ht, hd, splitFraction, hne, power?]

theorem decimal?_point {w f : List Char} (hne : w ≠ [] ∨ f ≠ []) (hw : w.all Char.isDigit)
    (hf : f.all Char.isDigit) :
    decimal? (w ++ '.' :: f) = some ⟨natOfDigits (w ++ f), -f.length⟩ := by
  have ht : (w ++ '.' :: f).takeWhile Char.isDigit = w := Text.takeWhile_append_stop hw (by rfl)
  have hd : (w ++ '.' :: f).dropWhile Char.isDigit = '.' :: f :=
    Text.dropWhile_append_stop hw (by rfl)
  have htf : f.takeWhile Char.isDigit = f := Text.takeWhile_of_all hf
  have hdf : f.dropWhile Char.isDigit = [] := Text.dropWhile_of_all hf
  have hn : ¬ (w = [] ∧ f = []) := by
    rintro ⟨rfl, rfl⟩
    simp at hne
  simp [decimal?, ht, hd, splitFraction, htf, hdf, hn, power?]

theorem decimal?_two_points (w f rest : List Char) (hw : w.all Char.isDigit)
    (hf : f.all Char.isDigit) : decimal? (w ++ '.' :: (f ++ '.' :: rest)) = none := by
  have ht : (w ++ '.' :: (f ++ '.' :: rest)).takeWhile Char.isDigit = w :=
    Text.takeWhile_append_stop hw (by rfl)
  have hd : (w ++ '.' :: (f ++ '.' :: rest)).dropWhile Char.isDigit = '.' :: (f ++ '.' :: rest) :=
    Text.dropWhile_append_stop hw (by rfl)
  have htf : (f ++ '.' :: rest).takeWhile Char.isDigit = f :=
    Text.takeWhile_append_stop hf (by rfl)
  have hdf : (f ++ '.' :: rest).dropWhile Char.isDigit = '.' :: rest :=
    Text.dropWhile_append_stop hf (by rfl)
  simp [decimal?, ht, hd, splitFraction, htf, hdf, power?]

/-- A run of digits and points has no point, or one, or a first and a second one. -/
theorem points_cases {cs : List Char} (h : cs.all isNumberChar) :
    cs.all Char.isDigit ∨
    (∃ w f, cs = w ++ '.' :: f ∧ w.all Char.isDigit ∧ f.all Char.isDigit) ∨
    ∃ w f rest, cs = w ++ '.' :: (f ++ '.' :: rest) ∧ w.all Char.isDigit ∧ f.all Char.isDigit := by
  have split : ∀ ds : List Char, ds.all isNumberChar →
      ds.all Char.isDigit ∨ ∃ w r, ds = w ++ '.' :: r ∧ w.all Char.isDigit := by
    intro ds hds
    have hparts := List.takeWhile_append_dropWhile (p := Char.isDigit) (l := ds)
    have hw : (ds.takeWhile Char.isDigit).all Char.isDigit := List.all_takeWhile
    cases hd : ds.dropWhile Char.isDigit with
    | nil =>
      rw [hd, List.append_nil] at hparts
      exact Or.inl (hparts ▸ hw)
    | cons c r =>
      have hc : c.isDigit = false := by
        simpa [hd] using Text.head?_dropWhile_any Char.isDigit ds
      have hmem : c ∈ ds := by
        rw [← hparts, hd]
        simp
      rw [hd, eq_point (isNumberChar_of_mem hds hmem) hc] at hparts
      exact Or.inr ⟨_, r, hparts.symm, hw⟩
  rcases split cs h with h₁ | ⟨w, r, rfl, hw⟩
  · exact Or.inl h₁
  · have hr : r.all isNumberChar := by
      rw [List.all_append, Bool.and_eq_true, List.all_cons, Bool.and_eq_true] at h
      exact h.2.2
    rcases split r hr with h₂ | ⟨f, rest, rfl, hf⟩
    · exact Or.inr (Or.inl ⟨w, r, rfl, hw, h₂⟩)
    · exact Or.inr (Or.inr ⟨w, f, rest, rfl, hw, hf⟩)

theorem count_point_of_all {w : List Char} (h : w.all Char.isDigit) : w.count '.' = 0 := by
  rw [List.count_eq_zero]
  intro hm
  exact absurd (List.all_eq_true.1 h _ hm) (by decide)

theorem any_isDigit {w : List Char} (h : w.all Char.isDigit) : w.any Char.isDigit ↔ w ≠ [] := by
  cases w with
  | nil => simp
  | cons c cs =>
    rw [List.all_cons, Bool.and_eq_true] at h
    simp [h.1]

/-- A run of digits and points is a numeral exactly if it has a digit and at most one point. -/
theorem isSome_read? {cs : List Char} (h : cs.all isNumberChar) :
    (read? cs).isSome ↔ IsPlain cs := by
  rw [read?_of_all h, Option.isSome_map]
  rcases points_cases h with hw | ⟨w, f, rfl, hw, hf⟩ | ⟨w, f, rest, rfl, hw, hf⟩
  · have hcount := count_point_of_all hw
    by_cases hne : cs = []
    · subst hne
      exact ⟨fun hs => absurd hs (by decide), fun hp => absurd hp.hasDigit (by decide)⟩
    · rw [decimal?_digits hne hw]
      exact ⟨fun _ => ⟨h, (any_isDigit hw).2 hne, by omega⟩, fun _ => rfl⟩
  · have hcount : (w ++ '.' :: f).count '.' = 1 := by
      rw [List.count_append, List.count_cons_self, count_point_of_all hw, count_point_of_all hf]
    by_cases hne : w ≠ [] ∨ f ≠ []
    · rw [decimal?_point hne hw hf]
      refine ⟨fun _ => ⟨h, ?_, by omega⟩, fun _ => rfl⟩
      rw [List.any_append, List.any_cons, Bool.or_eq_true, Bool.or_eq_true, any_isDigit hw,
        any_isDigit hf]
      exact hne.imp_right Or.inr
    · simp only [ne_eq, not_or, not_not] at hne
      obtain ⟨rfl, rfl⟩ := hne
      exact ⟨fun hs => absurd hs (by decide), fun hp => absurd hp.hasDigit (by decide)⟩
  · rw [decimal?_two_points w f rest hw hf]
    refine ⟨fun hs => absurd hs (by decide), fun hp => ?_⟩
    have hcount := hp.onePoint
    rw [List.count_append, List.count_cons_self, List.count_append, List.count_cons_self] at hcount
    omega

end Rulebook.Numeral
