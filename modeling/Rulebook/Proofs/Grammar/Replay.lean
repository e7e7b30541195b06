import Rulebook.Proofs.Grammar.Reprint

/-!
# Reading with another ending

What a strict reader finds does not depend on what follows it: where the text behind it is replaced by
one that starts with a space or a closing parenthesis, or by none, the same is found again
(`Grammar.Run.replace`). That holds under other limits too, as long as they allow the comparisons.
-/

namespace Rulebook
open Grammar

/-! ### Lexemes and what follows them -/

namespace Lexeme

/-- A lexeme that a text can have in front. -/
def IsProper : Lexeme → Prop
  | word w => w ≠ [] ∧ w.all isFieldChar
  | symbol s => s ≠ [] ∧ s.all isComparisonChar
  | numeral n => n ≠ [] ∧ n.all isNumberChar
  | quoted content => '\'' ∉ content
  | mark c => isFieldChar c = false ∧ isComparisonChar c = false ∧ isNumberChar c = false

/-- A text may follow a lexeme without making it longer or another one. -/
def EndsBefore (rest : List Char) : Lexeme → Prop
  | word _ => rest.head?.any isFieldChar = false
  | symbol _ => rest.head?.any isComparisonChar = false
  | numeral _ => rest.head?.any isNumberChar = false
  | quoted _ => True
  | mark c => c = '\'' → '\'' ∉ rest

theorem run_of_takeWhile {test : Char → Bool} {run rest : List Char} (hne : run ≠ [])
    (h : (run ++ rest).takeWhile test = run) :
    (run ≠ [] ∧ run.all test) ∧ rest.head?.any test = false := by
  have hall : run.all test := by
    rw [← h]
    exact List.all_takeWhile
  rw [Text.takeWhile_eq_iff hall, List.drop_left] at h
  exact ⟨⟨hne, hall⟩, h.2⟩

theorem eq_of_front? {cs : List Char} {l : Lexeme} (h : front? cs = some l) :
    match l with
    | word w => cs.takeWhile isFieldChar = w
    | symbol s => cs.takeWhile isComparisonChar = s
    | numeral n => cs.takeWhile isNumberChar = n
    | quoted content => '\'' ∉ content
    | mark c => (mark c).IsProper ∧ (mark c).EndsBefore cs.tail := by
  cases cs with
  | nil => cases h
  | cons c cs =>
    simp only [front?] at h
    split_ifs at h with hf hc hn hq <;> cases h
    · rfl
    · rfl
    · rfl
    · intro hmem
      simpa using List.mem_takeWhile_imp hmem
    · exact ⟨⟨by simpa using hf, by simpa using hc, by simpa using hn⟩, fun he hm => hq ⟨he, hm⟩⟩

/-- A lexeme is found in front of a text that starts with it, if the rest of the text may follow it. -/
theorem front?_append_eq_some {l : Lexeme} {rest : List Char} :
    front? (l.chars ++ rest) = some l ↔ l.IsProper ∧ l.EndsBefore rest := by
  constructor
  · intro h
    have hne : l.chars ≠ [] := List.length_pos_iff.1 (chars_length_pos h)
    have hl := eq_of_front? h
    cases l with
    | word w => exact run_of_takeWhile hne hl
    | symbol s => exact run_of_takeWhile hne hl
    | numeral n => exact run_of_takeWhile hne hl
    | quoted content => exact ⟨hl, trivial⟩
    | mark c => exact hl
  · rintro ⟨hl, hr⟩
    cases l with
    | word w => exact front?_word hl.1 hl.2 hr
    | symbol s => exact front?_symbol hl.1 hl.2 hr
    | numeral n => exact front?_numeral hl.1 hl.2 hr
    | quoted content => exact front?_quoted hl rest
    | mark c =>
      obtain ⟨hf, hs, hn⟩ := hl
      have hq : ¬ (c = '\'' ∧ '\'' ∈ rest) := fun h => hr h.1 h.2
      rw [chars, List.singleton_append, front?, hf, hs, hn, if_neg hq]
      rfl

/-- Only an apostrophe that no other one follows depends on more than the next character. -/
theorem EndsBefore.replace {l : Lexeme} {front tail tail' : List Char}
    (h : l.EndsBefore (front ++ tail)) (ht : Stops tail') (hl : l ≠ mark '\'') :
    l.EndsBefore (front ++ tail') := by
  cases front with
  | nil =>
    cases l with
    | word w => exact ht.head?_any rfl rfl
    | symbol s => exact ht.head?_any rfl rfl
    | numeral n => exact ht.head?_any rfl rfl
    | quoted content => trivial
    | mark c => exact fun hc => absurd (congrArg mark hc) hl
  | cons d front =>
    cases l with
    | mark c => exact fun hc => absurd (congrArg mark hc) hl
    | _ => exact h

end Lexeme

/-! ### Places whose texts end differently -/

namespace Place

/-- The same text is left at two places but for its ending. -/
def Replaces (tail tail' : List Char) (p p' : Place) : Prop :=
  ∃ front, p.rest = front ++ tail ∧ p'.rest = front ++ tail'

variable {tail tail' : List Char} {p p' q : Place}

/-- The text in front of a place: spaces, a lexeme and the text after it. -/
theorem rest_of_next? {l : Lexeme} (h : p.next? = some (l, q)) :
    ∃ spaces, p.rest = spaces ++ (l.chars ++ q.rest) ∧ spaces.all (· = ' ') ∧
      l.chars.head? ≠ some ' ' ∧ Lexeme.front? (l.chars ++ q.rest) = some l := by
  obtain ⟨hl, rfl⟩ := next?_eq_some.1 h
  obtain ⟨rest, hrest⟩ := Lexeme.isPrefix_chars hl
  have htrim : l.chars ++ (p.skipSpaces.after l.chars).rest = Lexeme.trimSpaces p.rest := by
    rw [after_rest, skipSpaces_rest, ← hrest, List.drop_left]
  refine ⟨p.rest.takeWhile (· = ' '), ?_, List.all_takeWhile, ?_, by rw [htrim, hl]⟩
  · rw [htrim]
    exact List.takeWhile_append_dropWhile.symm
  · intro hhead
    have hstop := Text.head?_dropWhile_any (· = ' ') p.rest
    rw [← Lexeme.trimSpaces, ← hrest, List.head?_append, hhead] at hstop
    cases hstop

theorem trimSpaces_append_of_all {spaces rest : List Char} (hs : spaces.all (· = ' '))
    (hr : rest.head? ≠ some ' ') : Lexeme.trimSpaces (spaces ++ rest) = rest := by
  apply Text.dropWhile_append_stop hs
  cases hh : rest.head? with
  | none => rfl
  | some c =>
    have hc : c ≠ ' ' := fun he => hr (he ▸ hh)
    simpa using hc

namespace Replaces

theorem next? {l : Lexeme} (h : p.Replaces tail tail' p') (hn : p.next? = some (l, q))
    (hq : tail <:+ q.rest) (ht : Stops tail') (hl : l ≠ .mark '\'') :
    ∃ q', p'.next? = some (l, q') ∧ q.Replaces tail tail' q' := by
  obtain ⟨front, hp, hp'⟩ := h
  obtain ⟨between, hbetween⟩ := hq
  obtain ⟨spaces, hrest, hspaces, hhead, hfront⟩ := rest_of_next? hn
  rw [← hbetween] at hrest hfront
  have hsplit : front = spaces ++ (l.chars ++ between) := by
    have happend : front ++ tail = (spaces ++ (l.chars ++ between)) ++ tail := by
      rw [← hp, hrest, List.append_assoc, List.append_assoc]
    exact List.append_cancel_right happend
  obtain ⟨hproper, hends⟩ := Lexeme.front?_append_eq_some.1 hfront
  have hfront' := Lexeme.front?_append_eq_some.2 ⟨hproper, hends.replace ht hl⟩
  have htrim : Lexeme.trimSpaces p'.rest = l.chars ++ (between ++ tail') := by
    rw [hp', hsplit, List.append_assoc, List.append_assoc]
    apply trimSpaces_append_of_all hspaces
    obtain ⟨c, cs, hc⟩ := List.exists_cons_of_length_pos (Lexeme.chars_length_pos hfront)
    rw [hc] at hhead ⊢
    exact hhead
  obtain ⟨q', hq', hrest'⟩ := next?_of_front? htrim hfront'
  exact ⟨q', hq', between, hbetween.symm, hrest'⟩

theorem value {v : Value} (h : p.Replaces tail tail' p') (hv : Grammar.value p = .ok (v, q))
    (hq : tail <:+ q.rest) (ht : Stops tail') :
    ∃ q', Grammar.value p' = .ok (v, q') ∧ q.Replaces tail tail' q' := by
  obtain ⟨literal, hn, rfl⟩ := Literal.exists_of_value hv
  obtain ⟨q', hq', hreplaces⟩ := h.next? hn hq ht (by cases literal <;> exact Lexeme.noConfusion)
  exact ⟨q', Literal.value_eq_ok hq', hreplaces⟩

end Replaces

end Place

/-- A run may start before spaces. -/
theorem Grammar.Run.of_skipSpaces {limits : Limits} {part : Part} {room : Nat} {p q : Place}
    {r : Rule} (h : Run limits part room p.skipSpaces r q) : Run limits part room p r q := by
  generalize hs : p.skipSpaces = s at h
  induction h with
  | comparison ht hf hc hv =>
    subst hs
    rw [Place.next?_skipSpaces] at hf
    exact .comparison ht hf hc hv
  | group ho hrun hstop hclose =>
    subst hs
    rw [Place.next?_skipSpaces] at ho
    exact .group ho hrun hstop hclose
  | single _ ih => exact .single (ih hs)
  | join _ hc hright ih _ => exact .join (ih hs) hc hright

/-- What a strict reader found before the ending of a text is found again, whatever ending follows. -/
theorem Grammar.Run.replace {limits limits' : Limits} (hstrict : limits.lenient = false)
    {part : Part} {room : Nat} {p p' q : Place} {r : Rule} {tail tail' : List Char}
    (h : Run limits part room p r q) (ht : Stops tail') (hp : p.Replaces tail tail' p')
    (hq : tail <:+ q.rest) (hterms : p'.terms + r.count ≤ limits'.terms) :
    ∃ q', Run limits' part room p' r q' ∧ q.Replaces tail tail' q' := by
  induction h generalizing p' with
  | @comparison room p p₁ p₂ p₃ field c v _ hf hc hv =>
    obtain ⟨l, hl⟩ := next?_of_value hv
    have hq₂ := hq.trans (Place.reaches_of_next? hl).suffix
    have hq₁ := hq₂.trans (Place.reaches_of_next? hc).suffix
    obtain ⟨p₁', hf', h₁⟩ := hp.next? hf hq₁ ht Lexeme.noConfusion
    obtain ⟨p₂', hc', h₂⟩ := h₁.next? hc hq₂ ht Lexeme.noConfusion
    obtain ⟨p₃', hv', h₃⟩ := h₂.value hv hq ht
    exact ⟨_, .comparison (Nat.lt_of_succ_le hterms) hf' hc' hv', h₃⟩
  | @group room p p₁ p₂ q r ho hrun _ hclose ih =>
    have hmark := next?_of_closing hstrict hclose
    have hq₂ := hq.trans (Place.reaches_of_next? hmark).suffix
    obtain ⟨p₁', ho', h₁⟩ := hp.next? ho (hq₂.trans hrun.reaches.suffix) ht (by decide)
    rw [← Place.next?_terms ho'] at hterms
    obtain ⟨p₂', hrun', h₂⟩ := ih h₁ hq₂ hterms
    obtain ⟨q', hmark', hq'⟩ := h₂.next? hmark hq ht (by decide)
    exact ⟨q', .group ho' hrun' (connective?_eq_none_of_mark hmark') (closing_of_mark hmark'), hq'⟩
  | single _ ih =>
    obtain ⟨q', hrun', hq'⟩ := ih hp hq hterms
    exact ⟨q', .single hrun', hq'⟩
  | @join room p p₁ p₂ q c l r hleft hc hright ih₁ ih₂ =>
    have hword := connective?_eq_some.1 hc
    have hq₂ := hq.trans hright.reaches.suffix
    have hq₁ := hq₂.trans (Place.reaches_of_next? hword).suffix
    simp only [Rule.count] at hterms
    obtain ⟨p₁', hleft', h₁⟩ := ih₁ hp hq₁ (by omega)
    obtain ⟨p₂', hword', h₂⟩ := h₁.next? hword hq₂ ht Lexeme.noConfusion
    have hterms₂ := Place.next?_terms hword'
    rw [hleft'.terms_eq] at hterms₂
    obtain ⟨q', hright', hq'⟩ := ih₂ h₂ hq (by omega)
    exact ⟨q', .join hleft' (connective?_eq_some.2 hword') hright', hq'⟩

end Rulebook
