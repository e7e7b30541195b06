import Rulebook.Proofs.Text.Run
import Rulebook.Rule.Grammar

/-!
# Lexemes of rule text

Rule text is a list of lexemes with spaces between them: runs of field characters, of comparison
characters and of number characters, each as long as it can be, texts between apostrophes, and
single other characters. The readers of the grammar work on characters and have no lexer in front of
them. The statements here give every reader in terms of the lexeme that stands in front of a place
(`Place.next?`): it takes that lexeme, or it stops before it.
-/

namespace Rulebook
open Grammar

/-- A lexical unit of rule text. -/
inductive Lexeme where
  | word (cs : List Char)
  | symbol (cs : List Char)
  | numeral (cs : List Char)
  | quoted (content : List Char)
  | mark (c : Char)
deriving DecidableEq, Repr

namespace Lexeme

/-- The characters of a lexeme. -/
def chars : Lexeme → List Char
  | word cs | symbol cs | numeral cs => cs
  | quoted content => '\'' :: (content ++ ['\''])
  | mark c => [c]

/-- The longest lexeme in front of a text that starts with no space. An apostrophe that no other one
follows is a mark. -/
def front? : List Char → Option Lexeme
  | [] => none
  | c :: cs =>
    if isFieldChar c then some (word ((c :: cs).takeWhile isFieldChar))
    else if isComparisonChar c then some (symbol ((c :: cs).takeWhile isComparisonChar))
    else if isNumberChar c then some (numeral ((c :: cs).takeWhile isNumberChar))
    else if c = '\'' ∧ '\'' ∈ cs then some (quoted (cs.takeWhile (· ≠ '\'')))
    else some (mark c)

/-- A text without the spaces in front. -/
def trimSpaces (cs : List Char) : List Char := cs.dropWhile (· = ' ')

theorem isPrefix_chars {cs : List Char} {l : Lexeme} (h : front? cs = some l) : l.chars <+: cs := by
  cases cs with
  | nil => simp [front?] at h
  | cons c cs =>
    simp only [front?] at h
    split_ifs at h with hf hc hn hq <;> cases h
    · exact List.takeWhile_prefix _
    · exact List.takeWhile_prefix _
    · exact List.takeWhile_prefix _
    · refine ⟨(cs.dropWhile (· ≠ '\'')).tail, ?_⟩
      rw [hq.1]
      simpa [chars] using Text.takeWhile_ne_append hq.2
    · exact ⟨cs, rfl⟩

theorem chars_length_pos {cs : List Char} {l : Lexeme} (h : front? cs = some l) :
    0 < l.chars.length := by
  cases cs with
  | nil => simp [front?] at h
  | cons c cs =>
    simp only [front?] at h
    split_ifs at h with hf hc hn hq <;> cases h <;> simp [chars, *]

theorem front?_eq_none {cs : List Char} : front? cs = none ↔ cs = [] := by
  cases cs with
  | nil => simp [front?]
  | cons c cs =>
    simp only [front?]
    split_ifs <;> simp

theorem length_trimSpaces_le (cs : List Char) : (trimSpaces cs).length ≤ cs.length :=
  (List.dropWhile_suffix _).length_le

theorem length_rest_lt {cs : List Char} {l : Lexeme} (h : front? (trimSpaces cs) = some l) :
    ((trimSpaces cs).drop l.chars.length).length < cs.length := by
  have hpos := chars_length_pos h
  have hle := (isPrefix_chars h).length_le
  have htrim := length_trimSpaces_le cs
  rw [List.length_drop]
  omega

/-- The lexemes of a text. -/
def split (cs : List Char) : List Lexeme :=
  match _h : front? (trimSpaces cs) with
  | none => []
  | some l => l :: split ((trimSpaces cs).drop l.chars.length)
termination_by cs.length
decreasing_by exact length_rest_lt _h

theorem split_of_none {cs : List Char} (h : front? (trimSpaces cs) = none) : split cs = [] := by
  rw [split]
  split
  · rfl
  · next l hl => rw [h] at hl; cases hl

theorem split_of_some {cs : List Char} {l : Lexeme} (h : front? (trimSpaces cs) = some l) :
    split cs = l :: split ((trimSpaces cs).drop l.chars.length) := by
  rw [split]
  split
  · next hn => rw [h] at hn; cases hn
  · next k hk =>
    rw [h] at hk
    cases hk
    rfl

end Lexeme

/-! ### Places and lexemes -/

namespace Place

/-- The lexeme in front of a place, after spaces, and the place after it. -/
def next? (p : Place) : Option (Lexeme × Place) :=
  (Lexeme.front? p.skipSpaces.rest).map fun l => (l, p.skipSpaces.after l.chars)

/-- The lexemes from a place on. -/
def lexemes (p : Place) : List Lexeme := Lexeme.split p.rest

@[simp] theorem after_terms (p : Place) (taken : List Char) : (p.after taken).terms = p.terms := rfl

@[simp] theorem after_rest (p : Place) (taken : List Char) :
    (p.after taken).rest = p.rest.drop taken.length := rfl

theorem after_front_rest (p : Place) (test : Char → Bool) :
    (p.after (p.front test)).rest = p.rest.dropWhile test :=
  Text.drop_length_takeWhile test p.rest

theorem skipSpaces_rest (p : Place) : p.skipSpaces.rest = Lexeme.trimSpaces p.rest :=
  p.after_front_rest _

@[simp] theorem skipSpaces_terms (p : Place) : p.skipSpaces.terms = p.terms := rfl

theorem next?_eq_some {p q : Place} {l : Lexeme} :
    p.next? = some (l, q) ↔
      Lexeme.front? (Lexeme.trimSpaces p.rest) = some l ∧ q = p.skipSpaces.after l.chars := by
  simp only [next?, skipSpaces_rest, Option.map_eq_some_iff, Prod.mk.injEq]
  constructor
  · rintro ⟨k, hk, rfl, rfl⟩
    exact ⟨hk, rfl⟩
  · rintro ⟨h, rfl⟩
    exact ⟨l, h, rfl, rfl⟩

theorem next?_eq_none {p : Place} : p.next? = none ↔ Lexeme.trimSpaces p.rest = [] := by
  simp [next?, skipSpaces_rest, Lexeme.front?_eq_none]

theorem next?_rest_lt {p q : Place} {l : Lexeme} (h : p.next? = some (l, q)) :
    q.rest.length < p.rest.length := by
  obtain ⟨hl, rfl⟩ := next?_eq_some.1 h
  simpa [skipSpaces_rest] using Lexeme.length_rest_lt hl

theorem next?_terms {p q : Place} {l : Lexeme} (h : p.next? = some (l, q)) :
    q.terms = p.terms := by
  obtain ⟨-, rfl⟩ := next?_eq_some.1 h
  rfl

theorem lexemes_of_next? {p q : Place} {l : Lexeme} (h : p.next? = some (l, q)) :
    p.lexemes = l :: q.lexemes := by
  obtain ⟨hl, rfl⟩ := next?_eq_some.1 h
  simpa [lexemes, skipSpaces_rest] using Lexeme.split_of_some hl

theorem lexemes_eq_nil {p : Place} : p.lexemes = [] ↔ p.next? = none := by
  rw [next?_eq_none, ← Lexeme.front?_eq_none, lexemes]
  cases h : Lexeme.front? (Lexeme.trimSpaces p.rest) with
  | none => simp [Lexeme.split_of_none h]
  | some l => simp [Lexeme.split_of_some h]

theorem exists_next?_of_lexemes {p : Place} {l : Lexeme} {ls : List Lexeme}
    (h : p.lexemes = l :: ls) : ∃ q, p.next? = some (l, q) ∧ q.lexemes = ls := by
  cases hn : p.next? with
  | none =>
    rw [lexemes_eq_nil.2 hn] at h
    cases h
  | some kq =>
    obtain ⟨k, q⟩ := kq
    rw [lexemes_of_next? hn] at h
    cases h
    exact ⟨q, rfl, rfl⟩

/-! ### Which lexeme stands in front -/

theorem next?_of_rest_eq_nil {p : Place} (h : p.skipSpaces.rest = []) : p.next? = none := by
  simp only [next?, h, Lexeme.front?, Option.map_none]

theorem next?_of_rest_eq_cons {p : Place} {c : Char} {cs : List Char}
    (h : p.skipSpaces.rest = c :: cs) :
    p.next? =
      if isFieldChar c then
        some (.word ((c :: cs).takeWhile isFieldChar),
          p.skipSpaces.after ((c :: cs).takeWhile isFieldChar))
      else if isComparisonChar c then
        some (.symbol ((c :: cs).takeWhile isComparisonChar),
          p.skipSpaces.after ((c :: cs).takeWhile isComparisonChar))
      else if isNumberChar c then
        some (.numeral ((c :: cs).takeWhile isNumberChar),
          p.skipSpaces.after ((c :: cs).takeWhile isNumberChar))
      else if c = '\'' ∧ '\'' ∈ cs then
        some (.quoted (cs.takeWhile (· ≠ '\'')),
          p.skipSpaces.after ('\'' :: (cs.takeWhile (· ≠ '\'') ++ ['\''])))
      else some (.mark c, p.skipSpaces.after [c]) := by
  simp only [next?, h, Lexeme.front?]
  split_ifs <;> rfl

theorem next?_eq_word {p q : Place} {w : List Char} :
    p.next? = some (.word w, q) ↔
      w ≠ [] ∧ p.skipSpaces.front isFieldChar = w ∧ q = p.skipSpaces.after w := by
  cases h : p.skipSpaces.rest with
  | nil =>
    rw [next?_of_rest_eq_nil h, front, h]
    constructor
    · intro hn
      cases hn
    · rintro ⟨hw, rfl, -⟩
      exact absurd rfl hw
  | cons c cs =>
    rw [next?_of_rest_eq_cons h, front, h]
    by_cases hc : isFieldChar c
    · rw [if_pos hc]
      constructor
      · intro hn
        cases hn
        exact ⟨by simp [hc], rfl, rfl⟩
      · rintro ⟨-, rfl, rfl⟩
        rfl
    · rw [if_neg hc, List.takeWhile_cons_of_neg hc]
      constructor
      · intro hn
        split_ifs at hn <;> cases hn
      · rintro ⟨hw, rfl, -⟩
        exact absurd rfl hw

theorem skipSpaces_skipSpaces (p : Place) : p.skipSpaces.skipSpaces = p.skipSpaces := by
  have h : p.skipSpaces.front (· = ' ') = [] := by
    rw [front, skipSpaces_rest, Lexeme.trimSpaces]
    exact Text.takeWhile_dropWhile _ _
  conv => lhs; rw [skipSpaces, h]
  rfl

theorem next?_skipSpaces (p : Place) : p.skipSpaces.next? = p.next? := by
  simp only [next?, skipSpaces_skipSpaces]

theorem next?_eq_mark {p q : Place} {c : Char} (hf : isFieldChar c = false)
    (hs : isComparisonChar c = false) (hn : isNumberChar c = false) (hq : c ≠ '\'') :
    p.next? = some (.mark c, q) ↔
      p.skipSpaces.rest.head? = some c ∧ q = p.skipSpaces.after [c] := by
  cases h : p.skipSpaces.rest with
  | nil => simp [next?_of_rest_eq_nil h]
  | cons d cs =>
    rw [next?_of_rest_eq_cons h]
    by_cases hd : d = c
    · subst hd
      simp [hf, hs, hn, hq, eq_comm]
    · constructor
      · intro hn
        split_ifs at hn <;> cases hn
        exact absurd rfl hd
      · rintro ⟨hc, -⟩
        exact absurd (Option.some.inj hc) hd

end Place

end Rulebook
