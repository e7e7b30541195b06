import Rulebook.Proofs.Json.Scanning
import Rulebook.Proofs.Json.Values

/-!
# How many containers are open

A reader of tokens is inside as many containers as brackets and braces have been opened and not closed
before it. The most that are open anywhere on the way over tokens is their `peak`. The tokens of a value
have the depth of the value for their peak (`peak_shows`), and the nesting of a text bounds the peak of
its tokens, whether it is a JSON text or not (`peak_lex_le_nesting`).
-/

namespace Rulebook.Json

/-- How many containers are open after a token. -/
def Token.openAfter (opened : Nat) : Token → Nat
  | openBrace | openBracket => opened + 1
  | closeBrace | closeBracket => opened - 1
  | _ => opened

/-- How many containers are open after tokens. -/
def openAfter (opened : Nat) (ts : List Token) : Nat := ts.foldl Token.openAfter opened

/-- The most containers that are open at once on the way over tokens. -/
def peak : (opened : Nat) → List Token → Nat
  | opened, [] => opened
  | opened, t :: ts => max opened (peak (t.openAfter opened) ts)

variable {grade : Grade} {opened deepest : Nat}

theorem peak_cons (opened : Nat) (t : Token) (ts : List Token) :
    peak opened (t :: ts) = max opened (peak (t.openAfter opened) ts) := rfl

theorem le_peak (opened : Nat) (ts : List Token) : opened ≤ peak opened ts := by
  cases ts with
  | nil => exact Nat.le_refl _
  | cons t ts => exact Nat.le_max_left _ _

theorem peak_append (opened : Nat) (ts us : List Token) :
    peak opened (ts ++ us) = max (peak opened ts) (peak (openAfter opened ts) us) := by
  induction ts generalizing opened with
  | nil =>
    have h := le_peak opened us
    show peak opened us = max opened (peak opened us)
    omega
  | cons t ts ih =>
    rw [List.cons_append, peak_cons, peak_cons, ih, Nat.max_assoc]
    rfl

theorem peak_le_add_length (opened : Nat) (ts : List Token) : peak opened ts ≤ opened + ts.length := by
  induction ts generalizing opened with
  | nil => exact Nat.le_refl _
  | cons t ts ih =>
    have h := ih (t.openAfter opened)
    have hopen : t.openAfter opened ≤ opened + 1 := by
      cases t <;> simp only [Token.openAfter] <;> omega
    rw [peak_cons, List.length_cons]
    omega

/-! ### Scans of tokens -/

theorem foldl_text_token (t : Token) (h : opened ≤ deepest) :
    t.text.foldl Scan.step (between opened deepest) =
      between (t.openAfter opened) (max deepest (t.openAfter opened)) := by
  have hflat : between opened deepest = between opened (max deepest opened) := by
    rw [Nat.max_eq_left h]
  have hclose : between (opened - 1) deepest = between (opened - 1) (max deepest (opened - 1)) := by
    rw [Nat.max_eq_left (by omega)]
  cases t with
  | openBrace => rfl
  | openBracket => rfl
  | closeBrace => exact hclose
  | closeBracket => exact hclose
  | number n => exact (Token.passes_text_number n opened deepest).trans hflat
  | string s => exact (Token.passes_text_string s opened deepest).trans hflat
  | boolean b => cases b <;> exact hflat
  | _ => exact hflat

theorem foldl_text (ts : List Token) (h : opened ≤ deepest) :
    (ts.flatMap Token.text).foldl Scan.step (between opened deepest) =
      between (openAfter opened ts) (max deepest (peak opened ts)) := by
  induction ts generalizing opened deepest with
  | nil =>
    rw [peak, Nat.max_eq_left h]
    rfl
  | cons t ts ih =>
    have hpeak := le_peak (t.openAfter opened) ts
    rw [List.flatMap_cons, List.foldl_append, foldl_text_token t h, ih (Nat.le_max_right _ _),
      peak_cons]
    congr 1
    omega

theorem between_inj {opened' deepest' : Nat} (h : between opened deepest = between opened' deepest') :
    opened = opened' ∧ deepest = deepest' := by
  cases h
  exact ⟨rfl, rfl⟩

theorem openAfter_tokens (opened : Nat) (j : Json) : openAfter opened j.tokens = opened := by
  have h := foldl_tokens j (Nat.le_refl opened)
  rw [foldl_text j.tokens (Nat.le_refl opened)] at h
  exact (between_inj h).1

theorem peak_tokens (opened : Nat) (j : Json) : peak opened j.tokens = opened + j.depth := by
  have h := foldl_tokens j (Nat.le_refl opened)
  rw [foldl_text j.tokens (Nat.le_refl opened)] at h
  have hmax := (between_inj h).2
  have hle := le_peak opened j.tokens
  omega

/-! ### Tokens that show a value -/

theorem openAfter_seen (opened : Nat) (t : Token) : (t.seen grade).openAfter opened = t.openAfter opened := by
  cases t <;> rfl

theorem openAfter_map_seen (opened : Nat) (ts : List Token) :
    openAfter opened (ts.map (Token.seen grade)) = openAfter opened ts := by
  unfold openAfter
  simp only [List.foldl_map, openAfter_seen]

theorem peak_map_seen (opened : Nat) (ts : List Token) :
    peak opened (ts.map (Token.seen grade)) = peak opened ts := by
  induction ts generalizing opened with
  | nil => rfl
  | cons t ts ih => rw [List.map_cons, peak_cons, peak_cons, openAfter_seen, ih]

theorem openAfter_shows {taken : List Token} {j : Json} (h : Shows grade taken j.tokens)
    (opened : Nat) : openAfter opened taken = opened := by
  have hseen : openAfter opened (taken.map (Token.seen grade)) = openAfter opened j.tokens :=
    congrArg (openAfter opened) h
  rwa [openAfter_map_seen, openAfter_tokens] at hseen

/-- On the way over a value as many containers are open at once as the value is deep, and after it as
many as before it. -/
theorem peak_shows {taken : List Token} {j : Json} (h : Shows grade taken j.tokens) (opened : Nat)
    (rest : List Token) : peak opened (taken ++ rest) = max (opened + j.depth) (peak opened rest) := by
  have hseen : peak opened (taken.map (Token.seen grade)) = peak opened j.tokens :=
    congrArg (peak opened) h
  rw [peak_map_seen, peak_tokens] at hseen
  rw [peak_append, openAfter_shows h, hseen]

theorem malformed_notMem_of_seen {taken seen : List Token} (h : Shows grade taken seen)
    (hseen : .malformed ∉ seen) : .malformed ∉ taken := by
  intro hmem
  apply hseen
  rw [← show taken.map (Token.seen grade) = seen from h]
  exact List.mem_map.2 ⟨.malformed, hmem, rfl⟩

theorem malformed_notMem_of_shows {taken : List Token} {j : Json} (h : Shows grade taken j.tokens) :
    Token.malformed ∉ taken := malformed_notMem_of_seen h (malformed_notMem_tokens j)

/-! ### Texts -/

theorem le_deepest_step (s : Scan) (c : Char) : s.deepest ≤ (s.step c).deepest := by
  unfold Scan.step
  split
  · exact Nat.le_refl _
  · split_ifs <;> exact Nat.le_refl _
  · split_ifs
    · exact Nat.le_refl _
    · exact Nat.le_max_left _ _
    · exact Nat.le_refl _
    · exact Nat.le_refl _

theorem le_deepest_foldl (s : Scan) (cs : List Char) : s.deepest ≤ (cs.foldl Scan.step s).deepest := by
  induction cs generalizing s with
  | nil => exact Nat.le_refl _
  | cons c cs ih => exact (le_deepest_step s c).trans (ih _)

/-- As far as a text has tokens, a scan of the text goes over their containers. -/
theorem exists_nesting_taken (cs : List Char) :
    ∃ taken rest, cs = taken ++ rest ∧ (.malformed ∉ lex cs → rest = []) ∧
      nesting taken = peak 0 (lex cs) := by
  obtain ⟨taken, rest, hsplit, hend, hscan⟩ := exists_foldl_lexUpTo (Nat.le_refl cs.length) 0 0
  refine ⟨taken, rest, hsplit, hend, ?_⟩
  rw [foldl_text _ (Nat.le_refl 0)] at hscan
  have hdeepest : nesting taken = max 0 (peak 0 (lex cs)) := congrArg Scan.deepest hscan
  omega

/-- No more containers are open on the way over the tokens of a text than the text is nested. -/
theorem peak_lex_le_nesting (cs : List Char) : peak 0 (lex cs) ≤ nesting cs := by
  obtain ⟨taken, rest, hsplit, -, hpeak⟩ := exists_nesting_taken cs
  have hle := le_deepest_foldl (taken.foldl Scan.step {}) rest
  rw [← List.foldl_append, ← hsplit] at hle
  exact hpeak.symm.trans_le hle

/-- A text that spells a value is nested as deeply as the containers of the value. -/
theorem nesting_of_shows {cs : List Char} {j : Json} (h : Shows grade (lex cs) j.tokens) :
    nesting cs = j.depth := by
  obtain ⟨taken, rest, hsplit, hend, hpeak⟩ := exists_nesting_taken cs
  obtain rfl := hend (malformed_notMem_of_shows h)
  have hshows := peak_shows h 0 []
  rw [List.append_nil] at hshows hsplit
  rw [hsplit, hpeak, hshows, Nat.zero_add]
  exact Nat.max_eq_left (Nat.zero_le _)

end Rulebook.Json
