import Mathlib.Data.List.TakeWhile

/-!
# Runs of characters

A scanner takes the longest run of characters that pass a test. Such a run is known by two things:
the text starts with it, and no character that passes the test follows it.
-/

namespace Rulebook.Text

theorem drop_length_takeWhile (test : Char → Bool) (cs : List Char) :
    cs.drop (cs.takeWhile test).length = cs.dropWhile test := by
  induction cs with
  | nil => rfl
  | cons c cs ih => by_cases h : test c <;> simp [h, ih]

theorem takeWhile_dropWhile (test : Char → Bool) (cs : List Char) :
    (cs.dropWhile test).takeWhile test = [] := by
  induction cs with
  | nil => rfl
  | cons c cs ih => by_cases h : test c <;> simp [h, ih]

theorem takeWhile_eq_nil_of_head {test : Char → Bool} {cs : List Char}
    (h : cs.head?.any test = false) : cs.takeWhile test = [] := by
  cases cs with
  | nil => rfl
  | cons c cs =>
    have hc : test c = false := by simpa using h
    simp [hc]

theorem dropWhile_eq_self_of_head {test : Char → Bool} {cs : List Char}
    (h : cs.head?.any test = false) : cs.dropWhile test = cs := by
  cases cs with
  | nil => rfl
  | cons c cs =>
    have hc : test c = false := by simpa using h
    simp [hc]

theorem takeWhile_append_stop {test : Char → Bool} {run rest : List Char} (hw : run.all test)
    (hr : rest.head?.any test = false) : (run ++ rest).takeWhile test = run := by
  rw [List.takeWhile_append_of_pos (by simpa using hw), takeWhile_eq_nil_of_head hr,
    List.append_nil]

theorem dropWhile_append_stop {test : Char → Bool} {run rest : List Char} (hw : run.all test)
    (hr : rest.head?.any test = false) : (run ++ rest).dropWhile test = rest := by
  rw [List.dropWhile_append_of_pos (by simpa using hw), dropWhile_eq_self_of_head hr]

theorem takeWhile_append_of_head {test : Char → Bool} {rest : List Char}
    (hr : rest.head?.any test = false) (cs : List Char) :
    (cs ++ rest).takeWhile test = cs.takeWhile test := by
  induction cs with
  | nil => exact takeWhile_eq_nil_of_head hr
  | cons c cs ih => by_cases h : test c <;> simp [h, ih]

theorem dropWhile_append_of_head {test : Char → Bool} {rest : List Char}
    (hr : rest.head?.any test = false) (cs : List Char) :
    (cs ++ rest).dropWhile test = cs.dropWhile test ++ rest := by
  induction cs with
  | nil => exact dropWhile_eq_self_of_head hr
  | cons c cs ih => by_cases h : test c <;> simp [h, ih]

theorem takeWhile_of_all {test : Char → Bool} {run : List Char} (h : run.all test) :
    run.takeWhile test = run := by
  rw [List.takeWhile_eq_self_iff]
  exact List.all_eq_true.1 h

theorem dropWhile_of_all {test : Char → Bool} {run : List Char} (h : run.all test) :
    run.dropWhile test = [] := by
  rw [List.dropWhile_eq_nil_iff]
  exact List.all_eq_true.1 h

theorem head?_dropWhile_any (test : Char → Bool) (cs : List Char) :
    (cs.dropWhile test).head?.any test = false := by
  have hd := List.head?_dropWhile_not test cs
  cases h : (cs.dropWhile test).head? with
  | none => rfl
  | some c =>
    rw [h] at hd
    simpa using hd

theorem takeWhile_eq_iff {test : Char → Bool} {run cs : List Char} (hw : run.all test) :
    cs.takeWhile test = run ↔ run <+: cs ∧ (cs.drop run.length).head?.any test = false := by
  constructor
  · rintro rfl
    refine ⟨List.takeWhile_prefix _, ?_⟩
    rw [drop_length_takeWhile]
    exact head?_dropWhile_any test cs
  · rintro ⟨⟨rest, rfl⟩, hr⟩
    rw [List.drop_left] at hr
    exact takeWhile_append_stop hw hr

/-! ### Up to a character -/

theorem dropWhile_ne_of_mem {c : Char} {cs : List Char} (h : c ∈ cs) :
    cs.dropWhile (· ≠ c) = c :: (cs.dropWhile (· ≠ c)).tail := by
  induction cs with
  | nil => simp at h
  | cons d cs ih =>
    by_cases hd : d = c
    · simp [hd]
    · have hc : c ∈ cs := by
        rcases List.mem_cons.1 h with h | h
        · exact absurd h.symm hd
        · exact h
      simpa [hd] using ih hc

theorem takeWhile_ne_append {c : Char} {cs : List Char} (h : c ∈ cs) :
    cs.takeWhile (· ≠ c) ++ c :: (cs.dropWhile (· ≠ c)).tail = cs := by
  rw [← dropWhile_ne_of_mem h, List.takeWhile_append_dropWhile]

theorem takeWhile_ne_of_notMem {c : Char} {cs : List Char} (h : c ∉ cs) :
    cs.takeWhile (· ≠ c) = cs := by
  rw [List.takeWhile_eq_self_iff]
  intro d hd
  simpa using fun hdc : d = c => h (hdc ▸ hd)

theorem length_takeWhile_ne {c : Char} {cs : List Char} (h : c ∈ cs) :
    (cs.takeWhile (· ≠ c)).length ≠ cs.length := by
  intro hl
  have he := (List.takeWhile_prefix (l := cs) (· ≠ c)).eq_of_length hl
  have hd := List.takeWhile_eq_self_iff.1 he c h
  simp at hd

end Rulebook.Text
