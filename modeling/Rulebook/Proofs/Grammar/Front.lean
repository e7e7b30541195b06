import Rulebook.Proofs.Grammar.Acceptance
import Rulebook.Proofs.Grammar.Position
import Rulebook.Proofs.Rule.Spelling

/-!
# Along a text

A run of the reader goes through a text from left to right: what it finds stands in the text, and a
lexeme that stands in front of a text is found. So the fields and texts of every rule that is read
from a squeezed text are spellable (`Grammar.Run.isQuotable`).
-/

namespace Rulebook
open Grammar

/-! ### Lexemes in front of a text -/

namespace Lexeme

theorem trimSpaces_of_ne {c : Char} (h : c ≠ ' ') (cs : List Char) :
    trimSpaces (c :: cs) = c :: cs := by
  rw [trimSpaces, List.dropWhile_cons_of_neg (by simpa using h)]

theorem trimSpaces_space (cs : List Char) : trimSpaces (' ' :: cs) = trimSpaces cs := by
  rw [trimSpaces, List.dropWhile_cons_of_pos (by simp), trimSpaces]

theorem trimSpaces_append {cs : List Char} (h : Text.IsTight cs) (rest : List Char) :
    trimSpaces (cs ++ rest) = cs ++ rest := by
  obtain ⟨c, ds, rfl, hc⟩ := h.first
  apply trimSpaces_of_ne
  rintro rfl
  cases Text.isBlank_space.symm.trans hc

theorem front?_word {w rest : List Char} (hne : w ≠ []) (hw : w.all isFieldChar)
    (hr : rest.head?.any isFieldChar = false) : front? (w ++ rest) = some (word w) := by
  obtain ⟨c, cs, rfl⟩ := List.exists_cons_of_ne_nil hne
  have hrun := Text.takeWhile_append_stop hw hr
  rw [List.all_cons, Bool.and_eq_true] at hw
  rw [List.cons_append] at hrun ⊢
  rw [front?, if_pos hw.1, hrun]

theorem front?_symbol {s rest : List Char} (hne : s ≠ []) (hs : s.all isComparisonChar)
    (hr : rest.head?.any isComparisonChar = false) : front? (s ++ rest) = some (symbol s) := by
  obtain ⟨c, cs, rfl⟩ := List.exists_cons_of_ne_nil hne
  have hrun := Text.takeWhile_append_stop hs hr
  rw [List.all_cons, Bool.and_eq_true] at hs
  rw [List.cons_append] at hrun ⊢
  rw [front?, if_neg (by simp [not_isFieldChar_of_isComparisonChar hs.1]), if_pos hs.1, hrun]

theorem front?_numeral {n rest : List Char} (hne : n ≠ []) (hn : n.all isNumberChar)
    (hr : rest.head?.any isNumberChar = false) : front? (n ++ rest) = some (numeral n) := by
  obtain ⟨c, cs, rfl⟩ := List.exists_cons_of_ne_nil hne
  have hrun := Text.takeWhile_append_stop hn hr
  rw [List.all_cons, Bool.and_eq_true] at hn
  rw [List.cons_append] at hrun ⊢
  rw [front?, if_neg (by simp [not_isFieldChar_of_isNumberChar hn.1]),
    if_neg (by simp [not_isComparisonChar_of_isNumberChar hn.1]), if_pos hn.1, hrun]

theorem front?_quoted {content : List Char} (h : '\'' ∉ content) (rest : List Char) :
    front? ((quoted content).chars ++ rest) = some (quoted content) := by
  have hrun : (content ++ '\'' :: rest).takeWhile (· ≠ '\'') = content := by
    apply Text.takeWhile_append_stop
    · rw [List.all_eq_true]
      intro c hc
      have hne : c ≠ '\'' := fun he => h (he ▸ hc)
      simpa using hne
    · rfl
  have hchars : (quoted content).chars ++ rest = '\'' :: (content ++ '\'' :: rest) := by
    simp [chars]
  rw [hchars, front?, if_neg (by decide), if_neg (by decide), if_neg (by decide),
    if_pos ⟨rfl, by simp⟩, hrun]

end Lexeme

namespace Place

theorem next?_of_front? {p : Place} {l : Lexeme} {rest : List Char}
    (hp : Lexeme.trimSpaces p.rest = l.chars ++ rest)
    (hl : Lexeme.front? (l.chars ++ rest) = some l) :
    ∃ q, p.next? = some (l, q) ∧ q.rest = rest := by
  refine ⟨p.skipSpaces.after l.chars, next?_eq_some.2 ⟨by rw [hp, hl], rfl⟩, ?_⟩
  rw [after_rest, skipSpaces_rest, hp, List.drop_left]

theorem isInfix_of_next? {p q : Place} {l : Lexeme} (h : p.next? = some (l, q)) :
    l.chars <:+: p.rest := by
  obtain ⟨hl, -⟩ := next?_eq_some.1 h
  exact (Lexeme.isPrefix_chars hl).isInfix.trans (List.dropWhile_suffix _).isInfix

theorem isFieldName_of_next? {p q : Place} {s : String} (h : p.next? = some (.word s.toList, q)) :
    IsFieldName s := by
  obtain ⟨hne, hfront, -⟩ := next?_eq_word.1 h
  refine ⟨hne, ?_⟩
  rw [← hfront, front]
  exact List.all_takeWhile

theorem notMem_of_next?_quoted {p q : Place} {content : List Char}
    (h : p.next? = some (.quoted content, q)) : '\'' ∉ content := by
  cases hr : p.skipSpaces.rest with
  | nil =>
    rw [next?_of_rest_eq_nil hr] at h
    cases h
  | cons c cs =>
    rw [next?_of_rest_eq_cons hr] at h
    split_ifs at h <;> cases h
    intro hmem
    simpa using List.mem_takeWhile_imp hmem

end Place

/-! ### What is read has spellable fields and texts -/

theorem Value.isQuotable_of_value {p q : Place} {v : Value} (h : Grammar.value p = .ok (v, q))
    (hs : Text.IsSpaced p.rest) : v.IsQuotable := by
  cases v with
  | number x => exact trivial
  | text s =>
    have hn := value_eq_ok_text.1 h
    have hcontent : s.toList <:+: (Lexeme.quoted s.toList).chars := ⟨['\''], ['\''], rfl⟩
    exact ⟨Place.notMem_of_next?_quoted hn,
      hs.of_isInfix (hcontent.trans (Place.isInfix_of_next? hn))⟩

/-- A rule that is read from a squeezed text has spellable fields and texts. -/
theorem Grammar.Run.isQuotable {limits : Limits} {part : Part} {room : Nat} {p q : Place} {r : Rule}
    (h : Run limits part room p r q) (hs : Text.IsSpaced p.rest) : r.IsQuotable := by
  induction h with
  | comparison _ hf hc hv =>
    have hreaches := (Place.reaches_of_next? hf).trans (Place.reaches_of_next? hc)
    exact ⟨Place.isFieldName_of_next? hf,
      Value.isQuotable_of_value hv (hs.of_isInfix hreaches.suffix.isInfix)⟩
  | group ho _ _ _ ih => exact ih (hs.of_isInfix (Place.reaches_of_next? ho).suffix.isInfix)
  | single _ ih => exact ih hs
  | join hl hc _ ih₁ ih₂ =>
    have hreaches := hl.reaches.trans (reaches_of_connective? hc)
    exact ⟨ih₁ hs, ih₂ (hs.of_isInfix hreaches.suffix.isInfix)⟩

end Rulebook
