import Mathlib.Data.List.Infix
import Rulebook.Proofs.Text.Run
import Rulebook.Text.Blank

/-!
# Spacing

A squeezed text holds no blank character but single spaces between other characters. Squeezing gives
such a text, and changes nothing in a text that is one already. Trimming leaves the core of a text,
which starts and ends with characters that are not blank.
-/

namespace Rulebook.Text

/-- A text whose blank characters are single spaces. -/
structure IsSpaced (cs : List Char) : Prop where
  space : ∀ c ∈ cs, isBlank c → c = ' '
  single : ¬ [' ', ' '] <:+: cs

theorem IsSpaced.of_isInfix {cs ds : List Char} (h : IsSpaced ds) (hi : cs <:+: ds) :
    IsSpaced cs where
  space c hc := h.space c (hi.subset hc)
  single hs := h.single (hs.trans hi)

theorem isSpaced_nil : IsSpaced [] where
  space _ hc := absurd hc List.not_mem_nil
  single hs := absurd (List.infix_nil.1 hs) (List.cons_ne_nil _ _)

theorem isSpaced_cons {c : Char} {cs : List Char} :
    IsSpaced (c :: cs) ↔
      (isBlank c → c = ' ') ∧ ¬ (c = ' ' ∧ cs.head? = some ' ') ∧ IsSpaced cs := by
  constructor
  · intro h
    refine ⟨h.space c List.mem_cons_self, ?_, h.of_isInfix (List.suffix_cons c cs).isInfix⟩
    rintro ⟨rfl, hhead⟩
    obtain ⟨ds, rfl⟩ := List.head?_eq_some_iff.1 hhead
    exact h.single (List.prefix_append [' ', ' '] ds).isInfix
  · rintro ⟨hc, hpair, hcs⟩
    refine ⟨fun d hd hb => ?_, fun hs => ?_⟩
    · rcases List.mem_cons.1 hd with rfl | hd
      · exact hc hb
      · exact hcs.space d hd hb
    · rcases List.infix_cons_iff.1 hs with hp | hi
      · obtain ⟨ds, hds⟩ := hp
        cases hds
        exact hpair ⟨rfl, rfl⟩
      · exact hcs.single hi

theorem isBlank_space : isBlank ' ' := by decide

/-- Collapsing leaves single spaces, and none at the start of what follows a blank run. -/
theorem isSpaced_collapse (inRun : Bool) (cs : List Char) :
    IsSpaced (collapse inRun cs) ∧ (inRun → (collapse inRun cs).head? ≠ some ' ') := by
  -- that nothing blank follows within a run is what keeps two spaces apart
  induction cs generalizing inRun with
  | nil => exact ⟨isSpaced_nil, fun _ => by simp [collapse]⟩
  | cons c cs ih =>
    by_cases hc : isBlank c
    · obtain ⟨hspaced, hhead⟩ := ih true
      cases inRun with
      | true =>
        rw [collapse, if_pos hc, if_pos rfl]
        exact ⟨hspaced, hhead⟩
      | false =>
        rw [collapse, if_pos hc, if_neg (by simp)]
        exact ⟨isSpaced_cons.2 ⟨fun _ => rfl, fun h => hhead rfl h.2, hspaced⟩, by simp⟩
    · have hne : c ≠ ' ' := by
        rintro rfl
        exact hc isBlank_space
      rw [collapse, if_neg hc]
      exact ⟨isSpaced_cons.2 ⟨fun hb => absurd hb hc, fun h => hne h.1, (ih false).1⟩,
        fun _ hhead => hne (Option.some.inj hhead)⟩

theorem collapse_of_isSpaced {inRun : Bool} {cs : List Char} (h : IsSpaced cs)
    (hr : inRun → cs.head? ≠ some ' ') : collapse inRun cs = cs := by
  induction cs generalizing inRun with
  | nil => rfl
  | cons c cs ih =>
    obtain ⟨hc, hpair, hcs⟩ := isSpaced_cons.1 h
    by_cases hb : isBlank c
    · obtain rfl := hc hb
      have hrun : inRun = false := by
        cases inRun with
        | false => rfl
        | true => exact absurd rfl (hr rfl)
      rw [collapse, if_pos hb, hrun, if_neg (by simp),
        ih hcs (fun _ hhead => hpair ⟨rfl, hhead⟩)]
    · rw [collapse, if_neg hb, ih hcs (by simp)]

/-- A character that is not blank parts what is collapsed before it from what is collapsed after it. -/
theorem collapse_append_cons {inRun : Bool} {c : Char} (hc : isBlank c = false)
    (cs ds : List Char) :
    collapse inRun (cs ++ c :: ds) = collapse inRun cs ++ c :: collapse false ds := by
  induction cs generalizing inRun with
  | nil =>
    show collapse inRun (c :: ds) = c :: collapse false ds
    rw [collapse, if_neg (by simp [hc])]
  | cons d cs ih =>
    rw [List.cons_append, collapse, collapse]
    split
    · split
      · exact ih
      · rw [ih, List.cons_append]
    · rw [ih, List.cons_append]

/-! ### Ends -/

theorem trimRight_isInfix (cs : List Char) : trimRight cs <:+: cs := by
  rw [trimRight, ← List.reverse_infix, List.reverse_reverse]
  exact (List.dropWhile_suffix _).isInfix

theorem trim_isInfix (cs : List Char) : trim cs <:+: cs :=
  (trimRight_isInfix _).trans (List.dropWhile_suffix _).isInfix

theorem isSpaced_squeeze (cs : List Char) : IsSpaced (squeeze cs) :=
  (isSpaced_collapse false cs).1.of_isInfix (trim_isInfix _)

/-- A text with single spaces between other characters. -/
structure IsTight (cs : List Char) : Prop where
  spaced : IsSpaced cs
  first : ∃ c ds, cs = c :: ds ∧ isBlank c = false
  last : ∃ ds c, cs = ds ++ [c] ∧ isBlank c = false

/-- A text has a core between blank characters, and the core neither starts nor ends with one. -/
structure HasCore (cs core : List Char) : Prop where
  between : ∃ left right, cs = left ++ (core ++ right) ∧ left.all isBlank ∧ right.all isBlank
  first : ∃ c ds, core = c :: ds ∧ isBlank c = false
  last : ∃ ds c, core = ds ++ [c] ∧ isBlank c = false

/-- Trimming leaves the core of a text. -/
theorem HasCore.trim_eq {cs core : List Char} (h : HasCore cs core) : trim cs = core := by
  obtain ⟨left, right, rfl, hleft, hright⟩ := h.between
  obtain ⟨c, ds, hcons, hc⟩ := h.first
  have hfront : (left ++ (core ++ right)).dropWhile isBlank = core ++ right := by
    rw [List.dropWhile_append_of_pos (List.all_eq_true.1 hleft), hcons, List.cons_append,
      List.dropWhile_cons_of_neg (by simp [hc])]
  obtain ⟨ds, d, hconcat, hd⟩ := h.last
  have hback : (core ++ right).reverse.dropWhile isBlank = core.reverse := by
    rw [List.reverse_append,
      List.dropWhile_append_of_pos (by simpa [List.all_eq_true] using hright), hconcat,
      List.reverse_append, List.reverse_singleton, List.singleton_append,
      List.dropWhile_cons_of_neg (by simp [hd])]
  rw [trim, hfront, trimRight, hback, List.reverse_reverse]

theorem trim_of_isTight {cs : List Char} (h : IsTight cs) : trim cs = cs :=
  HasCore.trim_eq ⟨⟨[], [], (List.append_nil cs).symm, rfl, rfl⟩, h.first, h.last⟩

theorem squeeze_of_isTight {cs : List Char} (h : IsTight cs) : squeeze cs = cs := by
  rw [squeeze, collapse_of_isSpaced h.spaced (by simp), trim_of_isTight h]

theorem exists_trimRight_append (cs : List Char) :
    ∃ right, trimRight cs ++ right = cs ∧ right.all isBlank := by
  refine ⟨(cs.reverse.takeWhile isBlank).reverse, ?_, ?_⟩
  · rw [trimRight, ← List.reverse_append, List.takeWhile_append_dropWhile, List.reverse_reverse]
  · rw [List.all_reverse]
    exact List.all_takeWhile

/-- Trimming takes blank characters off both ends. -/
theorem exists_trim_append (cs : List Char) :
    ∃ left right, left ++ (trim cs ++ right) = cs ∧ left.all isBlank ∧ right.all isBlank := by
  obtain ⟨right, hright, hall⟩ := exists_trimRight_append (cs.dropWhile isBlank)
  refine ⟨cs.takeWhile isBlank, right, ?_, List.all_takeWhile, hall⟩
  rw [trim, hright, List.takeWhile_append_dropWhile]

/-- What is left of a text when it is trimmed is its core. -/
theorem hasCore_trim {cs : List Char} (h : trim cs ≠ []) : HasCore cs (trim cs) where
  between := by
    obtain ⟨left, right, hsplit, hleft, hright⟩ := exists_trim_append cs
    exact ⟨left, right, hsplit.symm, hleft, hright⟩
  first := by
    obtain ⟨c, ds, hc⟩ := List.exists_cons_of_ne_nil h
    obtain ⟨right, hright, -⟩ := exists_trimRight_append (cs.dropWhile isBlank)
    have hstop := head?_dropWhile_any isBlank cs
    rw [trim] at hc
    rw [← hright, hc] at hstop
    exact ⟨c, ds, hc, by simpa using hstop⟩
  last := by
    rw [trim, trimRight, List.reverse_ne_nil_iff] at h
    obtain ⟨c, ds, hc⟩ := List.exists_cons_of_ne_nil h
    have hstop := head?_dropWhile_any isBlank (cs.dropWhile isBlank).reverse
    rw [hc] at hstop
    exact ⟨ds.reverse, c, by rw [trim, trimRight, hc, List.reverse_cons], by simpa using hstop⟩

theorem IsSpaced.all_space {cs ds : List Char} (h : IsSpaced ds) (hi : cs <:+: ds)
    (hb : cs.all isBlank) : cs.all (· = ' ') := by
  rw [List.all_eq_true] at hb ⊢
  intro c hc
  simpa using h.space c (hi.subset hc) (hb c hc)

/-- What is collapsed differs from what is squeezed by spaces at its ends. -/
theorem exists_collapse_eq (cs : List Char) :
    ∃ left right, collapse false cs = left ++ (squeeze cs ++ right) ∧ left.all (· = ' ') ∧
      right.all (· = ' ') := by
  obtain ⟨left, right, hsplit, hleft, hright⟩ := exists_trim_append (collapse false cs)
  have hspaced := (isSpaced_collapse false cs).1
  refine ⟨left, right, hsplit.symm, hspaced.all_space ⟨[], _, hsplit⟩ hleft,
    hspaced.all_space ⟨left ++ squeeze cs, [], ?_⟩ hright⟩
  rw [List.append_nil, List.append_assoc]
  exact hsplit

theorem isTight_squeeze {cs : List Char} (h : squeeze cs ≠ []) : IsTight (squeeze cs) where
  spaced := isSpaced_squeeze cs
  first := (hasCore_trim h).first
  last := (hasCore_trim h).last

theorem isTight_of_all {cs : List Char} (hne : cs ≠ []) (h : ∀ c ∈ cs, isBlank c = false) :
    IsTight cs where
  spaced := by
    refine ⟨fun c hc hb => ?_, fun hs => ?_⟩
    · rw [h c hc] at hb
      cases hb
    · have hspace := h ' ' (hs.subset List.mem_cons_self)
      cases isBlank_space.symm.trans hspace
  first := by
    obtain ⟨c, ds, rfl⟩ := List.exists_cons_of_ne_nil hne
    exact ⟨c, ds, rfl, h c List.mem_cons_self⟩
  last :=
    ⟨cs.dropLast, cs.getLast hne, (List.dropLast_append_getLast hne).symm,
      h _ (List.getLast_mem hne)⟩

theorem isTight_of_any {cs : List Char} (hne : cs ≠ []) (h : cs.any isBlank = false) :
    IsTight cs := by
  apply isTight_of_all hne
  intro c hc
  exact Bool.eq_false_iff.2 (List.any_eq_false.1 h c hc)

theorem IsSpaced.append {cs ds : List Char} {c : Char} (hcs : IsSpaced (cs ++ [c]))
    (hc : isBlank c = false) (hds : IsSpaced ds) : IsSpaced (cs ++ c :: ds) := by
  induction cs with
  | nil =>
    refine isSpaced_cons.2 ⟨fun hb => ?_, fun h => ?_, hds⟩
    · rw [hc] at hb
      cases hb
    · rw [h.1, isBlank_space] at hc
      cases hc
  | cons d cs ih =>
    rw [List.cons_append, isSpaced_cons] at hcs ⊢
    refine ⟨hcs.1, fun h => hcs.2.1 ⟨h.1, ?_⟩, ih hcs.2.2⟩
    cases cs with
    | nil => exact h.2
    | cons e cs => exact h.2

theorem IsTight.append_isSpaced {cs ds es : List Char} {c : Char} (hcs : IsTight cs)
    (hds : IsSpaced ds) (he : ds = es ++ [c]) (hc : isBlank c = false) : IsTight (cs ++ ds) := by
  refine ⟨?_, ?_, ⟨cs ++ es, c, by rw [he, List.append_assoc], hc⟩⟩
  · obtain ⟨fs, d, hf, hd⟩ := hcs.last
    have hs := hcs.spaced
    rw [hf] at hs
    rw [hf, List.append_assoc, List.singleton_append]
    exact hs.append hd hds
  · obtain ⟨d, fs, rfl, hd⟩ := hcs.first
    exact ⟨d, fs ++ ds, rfl, hd⟩

theorem IsTight.append {cs ds : List Char} (hcs : IsTight cs) (hds : IsTight ds) :
    IsTight (cs ++ ds) := by
  obtain ⟨es, c, he, hc⟩ := hds.last
  exact hcs.append_isSpaced hds.spaced he hc

theorem IsTight.space_append {cs ds : List Char} (hcs : IsTight cs) (hds : IsTight ds) :
    IsTight (cs ++ ' ' :: ds) := by
  have hspaced : IsSpaced (' ' :: ds) := by
    refine isSpaced_cons.2 ⟨fun _ => rfl, ?_, hds.spaced⟩
    rintro ⟨-, hhead⟩
    obtain ⟨d, fs, rfl, hd⟩ := hds.first
    cases hhead
    cases isBlank_space.symm.trans hd
  obtain ⟨es, c, he, hc⟩ := hds.last
  have hend : ' ' :: ds = (' ' :: es) ++ [c] := by rw [he, List.cons_append]
  exact hcs.append_isSpaced hspaced hend hc

theorem IsSpaced.concat {cs : List Char} (h : IsSpaced cs) {c : Char} (hc : isBlank c = false) :
    IsSpaced (cs ++ [c]) := by
  induction cs with
  | nil => exact (isTight_of_all (by simp) (by simpa using hc)).spaced
  | cons d cs ih =>
    obtain ⟨hd, hpair, hcs⟩ := isSpaced_cons.1 h
    refine isSpaced_cons.2 ⟨hd, fun hp => ?_, ih hcs⟩
    cases cs with
    | nil =>
      have hspace : c = ' ' := Option.some.inj hp.2
      rw [hspace, isBlank_space] at hc
      cases hc
    | cons e cs => exact hpair hp

/-- A spaced text between two characters that are not blank is tight. -/
theorem IsSpaced.enclose {cs : List Char} (h : IsSpaced cs) {a b : Char} (ha : isBlank a = false)
    (hb : isBlank b = false) : IsTight (a :: (cs ++ [b])) := by
  have hfirst : IsTight [a] := isTight_of_all (by simp) (by simpa using ha)
  exact hfirst.append_isSpaced (h.concat hb) rfl hb

theorem squeeze_enclose {a b : Char} (ha : isBlank a = false) (hb : isBlank b = false)
    (cs : List Char) : squeeze (a :: (cs ++ [b])) = a :: (collapse false cs ++ [b]) := by
  have hcollapse : collapse false (a :: (cs ++ [b])) = a :: (collapse false cs ++ [b]) := by
    rw [collapse, if_neg (by simp [ha]), collapse_append_cons hb]
    rfl
  rw [squeeze, hcollapse, trim_of_isTight ((isSpaced_collapse false cs).1.enclose ha hb)]

/-- A character that is not blank may stand in a tight text in place of any one, or at its end. -/
theorem IsTight.put {before after : List Char} (h : IsTight (before ++ after)) {c : Char}
    (hc : isBlank c = false) : IsTight (before ++ c :: after.tail) where
  spaced := by
    have hbefore := h.spaced.of_isInfix (List.prefix_append before after).isInfix
    have htail := (List.tail_suffix after).trans (List.suffix_append before after)
    exact (hbefore.concat hc).append hc (h.spaced.of_isInfix htail.isInfix)
  first := by
    cases before with
    | nil => exact ⟨c, after.tail, rfl, hc⟩
    | cons d before =>
      obtain ⟨e, es, he, hblank⟩ := h.first
      cases he
      exact ⟨d, _, rfl, hblank⟩
  last := by
    obtain ⟨ds, d, hlast, hd⟩ := h.last
    rcases List.eq_nil_or_concat after.tail with ht | ⟨es, e, ht⟩
    · exact ⟨before, c, by rw [ht], hc⟩
    · refine ⟨before ++ c :: es, e, by rw [ht]; simp, ?_⟩
      cases after with
      | nil => cases es <;> cases ht
      | cons a after =>
        have hafter : after = es ++ [e] := by simpa using ht
        rw [hafter, ← List.cons_append, ← List.append_assoc] at hlast
        obtain ⟨-, hsame⟩ := List.append_inj' hlast rfl
        cases hsame
        exact hd

end Rulebook.Text
