import Rulebook.Proofs.Text.Spacing

/-!
# Words

The words of a text are its maximal runs of characters that are not blank (`runs_iff`). A squeezed text
consists of the words of the text with single spaces between them (`squeeze_eq`), so texts with the same
words are squeezed to the same text, and the squeezed text is empty exactly if the text is blank
(`squeeze_eq_nil_iff`).
-/

namespace Rulebook.Text

/-- The words of a text: the pieces between its blank characters, without the empty ones. -/
def words (cs : List Char) : List (List Char) := (cs.splitOnP isBlank).filter (· ≠ [])

/-- The maximal runs of characters that are not blank, in the order in which they stand in a text. -/
inductive Runs : List Char → List (List Char) → Prop
  | blank {cs : List Char} : cs.all isBlank → Runs cs []
  | run {gap run rest : List Char} {runs : List (List Char)} :
    gap.all isBlank → run ≠ [] → run.all (!isBlank ·) → rest.head?.any (!isBlank ·) = false →
    Runs rest runs → Runs (gap ++ (run ++ rest)) (run :: runs)

/-! ### Words and runs -/

theorem words_nil : words [] = [] := by
  rw [words, List.splitOnP_nil]
  rfl

/-- A blank character parts the words before it from those after it. -/
theorem words_append_cons {c : Char} (hc : isBlank c) (cs ds : List Char) :
    words (cs ++ c :: ds) = words cs ++ words ds := by
  rw [words, List.splitOnP_append_cons cs ds hc, List.filter_append]
  rfl

theorem words_cons {c : Char} (hc : isBlank c) (cs : List Char) : words (c :: cs) = words cs := by
  rw [← List.nil_append (c :: cs), words_append_cons hc, words_nil, List.nil_append]

theorem words_gap_append {gap : List Char} (h : gap.all isBlank) (cs : List Char) :
    words (gap ++ cs) = words cs := by
  induction gap with
  | nil => rfl
  | cons c gap ih =>
    rw [List.all_cons, Bool.and_eq_true] at h
    rw [List.cons_append, words_cons h.1, ih h.2]

theorem words_run {run : List Char} (hne : run ≠ []) (h : run.all (!isBlank ·)) :
    words run = [run] := by
  have hall : ∀ c ∈ run, isBlank c = false := by simpa using h
  rw [words, List.splitOnP_eq_singleton hall, List.filter_singleton]
  simp [hne]

theorem words_run_append {run rest : List Char} (hne : run ≠ []) (h : run.all (!isBlank ·))
    (hrest : rest.head?.any (!isBlank ·) = false) : words (run ++ rest) = run :: words rest := by
  cases rest with
  | nil => rw [List.append_nil, words_run hne h, words_nil]
  | cons c rest =>
    have hc : isBlank c := by simpa using hrest
    rw [words_append_cons hc, words_cons hc, words_run hne h, List.singleton_append]

theorem Runs.eq_words {cs : List Char} {runs : List (List Char)} (h : Runs cs runs) :
    runs = words cs := by
  induction h with
  | @blank cs hcs => rw [← List.append_nil cs, words_gap_append hcs, words_nil]
  | run hgap hne hrun hrest _ ih =>
    rw [words_gap_append hgap, words_run_append hne hrun hrest, ← ih]

theorem exists_runs (cs : List Char) : ∃ runs, Runs cs runs := by
  induction hlength : cs.length using Nat.strong_induction_on generalizing cs with
  | _ length ih =>
    have hgap : (cs.takeWhile isBlank).all isBlank := List.all_takeWhile
    cases hafter : cs.dropWhile isBlank with
    | nil =>
      rw [List.dropWhile_eq_nil_iff] at hafter
      exact ⟨[], .blank (List.all_eq_true.2 hafter)⟩
    | cons c ds =>
      -- the first run starts with this character, and what follows the run is shorter
      have hc : isBlank c = false := by
        have hstop := head?_dropWhile_any isBlank cs
        rw [hafter] at hstop
        simpa using hstop
      have hrun : (c :: ds).takeWhile (!isBlank ·) ≠ [] := by simp [hc]
      have hshort : ((c :: ds).dropWhile (!isBlank ·)).length < length := by
        have hdrop : (cs.dropWhile isBlank).length ≤ cs.length :=
          (List.dropWhile_suffix isBlank).length_le
        have hrest : (ds.dropWhile (!isBlank ·)).length ≤ ds.length :=
          (List.dropWhile_suffix (!isBlank ·)).length_le
        rw [hafter, List.length_cons] at hdrop
        rw [List.dropWhile_cons_of_pos (by simp [hc])]
        omega
      obtain ⟨runs, hruns⟩ := ih _ hshort _ rfl
      refine ⟨(c :: ds).takeWhile (!isBlank ·) :: runs, ?_⟩
      have hsplit : cs = cs.takeWhile isBlank ++
          ((c :: ds).takeWhile (!isBlank ·) ++ (c :: ds).dropWhile (!isBlank ·)) := by
        rw [List.takeWhile_append_dropWhile, ← hafter, List.takeWhile_append_dropWhile]
      rw [hsplit]
      exact .run hgap hrun List.all_takeWhile (head?_dropWhile_any _ _) hruns

/-- The words of a text are its maximal runs, and there is no other way to cut it into such runs. -/
theorem runs_iff {cs : List Char} {runs : List (List Char)} : Runs cs runs ↔ runs = words cs := by
  refine ⟨Runs.eq_words, ?_⟩
  rintro rfl
  obtain ⟨runs, hruns⟩ := exists_runs cs
  rwa [← hruns.eq_words]

theorem words_eq_nil_iff {cs : List Char} : words cs = [] ↔ cs.all isBlank := by
  constructor
  · intro h
    cases runs_iff.2 h.symm with
    | blank hall => exact hall
  · exact fun h => (Runs.blank h).eq_words.symm

/-! ### Squeezing and words -/

theorem collapse_gap_append {gap : List Char} (h : gap.all isBlank) (cs : List Char) :
    collapse true (gap ++ cs) = collapse true cs := by
  induction gap with
  | nil => rfl
  | cons c gap ih =>
    rw [List.all_cons, Bool.and_eq_true] at h
    rw [List.cons_append, collapse, if_pos h.1, if_pos rfl, ih h.2]

theorem collapse_run_append {inRun : Bool} {run : List Char} (hne : run ≠ [])
    (h : run.all (!isBlank ·)) (rest : List Char) :
    collapse inRun (run ++ rest) = run ++ collapse false rest := by
  induction run generalizing inRun with
  | nil => exact absurd rfl hne
  | cons c run ih =>
    rw [List.all_cons, Bool.and_eq_true] at h
    rw [List.cons_append, collapse, if_neg (by simpa using h.1), List.cons_append]
    cases run with
    | nil => rfl
    | cons d run => rw [ih (List.cons_ne_nil d run) h.2]

/-- A text without the blank run at its start collapses to its words, with single spaces between them
and blank characters behind them. -/
theorem Runs.exists_collapse_eq {cs : List Char} {runs : List (List Char)} (h : Runs cs runs) :
    ∃ tail, collapse true cs = [' '].intercalate runs ++ tail ∧ tail.all isBlank := by
  induction h with
  | @blank cs hcs =>
    refine ⟨[], ?_, rfl⟩
    rw [← List.append_nil cs, collapse_gap_append hcs]
    rfl
  | @run gap run rest runs hgap hne hrun hrest hruns ih =>
    obtain ⟨tail, htail, hblank⟩ := ih
    rw [collapse_gap_append hgap, collapse_run_append hne hrun]
    cases rest with
    | nil =>
      obtain rfl : runs = [] := hruns.eq_words.trans words_nil
      exact ⟨[], by rw [List.intercalate_singleton]; rfl, rfl⟩
    | cons c rest =>
      have hc : isBlank c := by simpa using hrest
      rw [collapse, if_pos hc, if_pos rfl] at htail
      rw [collapse, if_pos hc, if_neg (by simp), htail]
      cases runs with
      | nil =>
        refine ⟨' ' :: tail, ?_, by simpa [isBlank_space] using hblank⟩
        rw [List.intercalate_singleton, List.intercalate_nil, List.nil_append]
      | cons next runs =>
        refine ⟨tail, ?_, hblank⟩
        rw [List.intercalate_cons_cons, List.append_assoc, List.append_assoc,
          List.singleton_append]

theorem Runs.isTight_intercalate {cs : List Char} {runs : List (List Char)} (h : Runs cs runs)
    (hne : runs ≠ []) : IsTight ([' '].intercalate runs) := by
  induction h with
  | blank => exact absurd rfl hne
  | @run gap run rest runs _ hrun hall _ _ ih =>
    have hfirst : IsTight run := isTight_of_all hrun (by simpa using hall)
    cases runs with
    | nil => rwa [List.intercalate_singleton]
    | cons next runs =>
      rw [List.intercalate_cons_cons, List.append_assoc, List.singleton_append]
      exact hfirst.space_append (ih (List.cons_ne_nil next runs))

theorem trimRight_append_of_all {tail : List Char} (h : tail.all isBlank) (cs : List Char) :
    trimRight (cs ++ tail) = trimRight cs := by
  rw [trimRight, List.reverse_append, List.dropWhile_append_of_pos, trimRight]
  simpa using h

theorem trim_append_of_all {tail : List Char} (h : tail.all isBlank) (cs : List Char) :
    trim (cs ++ tail) = trim cs := by
  rw [trim, trim, List.dropWhile_append]
  split_ifs with hempty
  · rw [dropWhile_of_all h, List.isEmpty_iff.1 hempty]
  · exact trimRight_append_of_all h _

/-- The space that stands for a blank run at the start of a text is trimmed away. -/
theorem trim_collapse (inRun : Bool) (cs : List Char) : trim (collapse inRun cs) = squeeze cs := by
  cases cs with
  | nil => rfl
  | cons c cs =>
    rw [squeeze]
    by_cases hc : isBlank c
    · cases inRun with
      | false => rfl
      | true =>
        rw [collapse, if_pos hc, if_pos rfl, collapse, if_pos hc, if_neg (by simp), trim, trim,
          List.dropWhile_cons_of_pos isBlank_space]
    · rw [collapse, if_neg hc, collapse, if_neg hc]

/-- A squeezed text consists of the words of the text with single spaces between them. -/
theorem squeeze_eq (cs : List Char) : squeeze cs = [' '].intercalate (words cs) := by
  have hruns : Runs cs (words cs) := runs_iff.2 rfl
  obtain ⟨tail, htail, hblank⟩ := hruns.exists_collapse_eq
  rw [← trim_collapse true, htail, trim_append_of_all hblank]
  by_cases hne : words cs = []
  · rw [hne]
    rfl
  · exact trim_of_isTight (hruns.isTight_intercalate hne)

theorem squeeze_squeeze (cs : List Char) : squeeze (squeeze cs) = squeeze cs := by
  by_cases h : squeeze cs = []
  · rw [h]
    rfl
  · exact squeeze_of_isTight (isTight_squeeze h)

theorem trim_eq_nil_iff {cs : List Char} : trim cs = [] ↔ cs.all isBlank := by
  constructor
  · intro h
    obtain ⟨left, right, hsplit, hleft, hright⟩ := exists_trim_append cs
    rw [← hsplit, h, List.nil_append, List.all_append, hleft, hright]
    rfl
  · intro h
    rw [trim, dropWhile_of_all h]
    rfl

theorem squeeze_eq_nil_iff {cs : List Char} : squeeze cs = [] ↔ trim cs = [] := by
  rw [trim_eq_nil_iff, ← words_eq_nil_iff, squeeze_eq]
  constructor
  · intro h
    by_contra hne
    obtain ⟨c, ds, hfirst, -⟩ := (runs_iff.2 (Eq.refl (words cs))).isTight_intercalate hne |>.first
    rw [h] at hfirst
    cases hfirst
  · intro h
    rw [h]
    rfl

/-- Blank runs of several kinds stand around the words and between them. -/
example : squeeze "\u2003 a\t\u00a0=\n1 ".toList = "a = 1".toList := by decide +kernel

end Rulebook.Text
