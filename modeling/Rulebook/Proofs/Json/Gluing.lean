import Rulebook.Proofs.Json.Scanning

/-!
# Texts put together

The tokens of a text that is put together from others are the tokens of these, one after another, as
long as no number goes on from one into the next (`lex_append`). So white space around a text does not
show in its tokens (`Padded.lex_eq`), and texts with commas between them have their own tokens with
commas between them (`lex_intercalate`).
-/

namespace Rulebook.Json

variable {cs ds rest : List Char}

/-! ### Words -/

namespace Written

theorem scanMinus_extend (hne : cs ≠ []) :
    scanMinus (cs ++ ds) = ((scanMinus cs).1, (scanMinus cs).2 ++ ds) := by
  cases cs with
  | nil => exact absurd rfl hne
  | cons c cs =>
    by_cases hc : c = '-'
    · subst hc
      rfl
    · simp [scanMinus, hc]

theorem scanFraction?_of_ne (h : cs.head? ≠ some '.') : scanFraction? cs = some ([], cs) := by
  unfold scanFraction?
  split
  · exact absurd rfl h
  · rfl

theorem scanFraction?_extend {fraction : List Char} (h : scanFraction? cs = some (fraction, rest))
    (hds : Ends ds) : scanFraction? (cs ++ ds) = some (fraction, rest ++ ds) := by
  cases cs with
  | nil =>
    cases h
    refine scanFraction?_of_ne fun hpoint => ?_
    rw [Ends, show ds.head? = some '.' from hpoint] at hds
    cases hds
  | cons c cs =>
    by_cases hc : c = '.'
    · subst hc
      rw [List.cons_append]
      simp only [scanFraction?, Text.takeWhile_append_of_head hds.not_digit,
        Text.dropWhile_append_of_head hds.not_digit] at h ⊢
      split_ifs at h ⊢ with hnil
      cases h
      rfl
    · have hne : ∀ cs : List Char, (c :: cs).head? ≠ some '.' := fun _ h => hc (Option.some.inj h)
      rw [scanFraction?_of_ne (hne cs)] at h
      cases h
      exact scanFraction?_of_ne (hne (cs ++ ds))

theorem splitSign_extend (hne : cs ≠ []) :
    Numeral.splitSign (cs ++ ds) = ((Numeral.splitSign cs).1, (Numeral.splitSign cs).2 ++ ds) := by
  cases cs with
  | nil => exact absurd rfl hne
  | cons c cs =>
    by_cases hplus : c = '+'
    · subst hplus
      rfl
    · by_cases hminus : c = '-'
      · subst hminus
        rfl
      · simp [Numeral.splitSign, hplus, hminus]

theorem scanPower?_of_ne (h : ∀ c, cs.head? = some c → c ≠ 'e' ∧ c ≠ 'E') :
    scanPower? cs = some (none, cs) := by
  cases cs with
  | nil => rfl
  | cons c cs =>
    obtain ⟨he, hE⟩ := h c rfl
    rw [scanPower?, if_neg (by simp [he, hE])]

theorem scanPower?_extend {power : Option Int} (h : scanPower? cs = some (power, rest))
    (hds : Ends ds) : scanPower? (cs ++ ds) = some (power, rest ++ ds) := by
  cases cs with
  | nil =>
    cases h
    refine scanPower?_of_ne fun c hc => ?_
    rw [Ends, show ds.head? = some c from hc] at hds
    constructor <;> (rintro rfl; cases hds)
  | cons c cs =>
    by_cases hc : c = 'e' ∨ c = 'E'
    · have hne : cs ≠ [] := by
        rintro rfl
        rw [scanPower?, if_pos hc] at h
        cases h
      rw [List.cons_append]
      simp only [scanPower?, if_pos hc, splitSign_extend hne,
        Text.takeWhile_append_of_head hds.not_digit, Text.dropWhile_append_of_head hds.not_digit] at h ⊢
      split_ifs at h ⊢ with hnil
      all_goals
        cases h
        rfl
    · have hpower : ∀ cs : List Char, scanPower? (c :: cs) = some (none, c :: cs) := fun cs =>
        scanPower?_of_ne fun d hd => by
          cases hd
          exact not_or.1 hc
      rw [hpower] at h
      cases h
      exact hpower (cs ++ ds)

theorem scan?_extend {w : Written} (h : scan? cs = some (w, rest)) (hds : Ends ds) :
    scan? (cs ++ ds) = some (w, rest ++ ds) := by
  have hne : cs ≠ [] := by
    rintro rfl
    cases h
  simp only [scan?, scanMinus_extend hne, Text.takeWhile_append_of_head hds.not_digit,
    Text.dropWhile_append_of_head hds.not_digit] at h ⊢
  split_ifs at h ⊢ with hwhole
  simp only [Option.bind_eq_bind, Option.bind_eq_some_iff, Prod.exists] at h ⊢
  obtain ⟨fraction, afterFraction, hfraction, power, rest', hpower, hsame⟩ := h
  cases hsame
  exact ⟨fraction, afterFraction ++ ds, scanFraction?_extend hfraction hds, power, rest ++ ds,
    scanPower?_extend hpower hds, rfl⟩

end Written

theorem scanPieces?_extend {pieces : List Piece} (h : scanPieces? cs = some (pieces, rest)) :
    scanPieces? (cs ++ ds) = some (pieces, rest ++ ds) := by
  fun_induction scanPieces? cs generalizing pieces with
  | case1 => cases h
  | case2 cs =>
    cases h
    rfl
  | case3 a b c d cs ih =>
    simp only [Option.bind_eq_bind, Option.bind_eq_some_iff, Prod.exists] at h
    obtain ⟨unit, hunit, pieces', rest', hrest, hsame⟩ := h
    cases hsame
    simp only [List.cons_append, scanPieces?, hunit, ih hrest, Option.bind_eq_bind, Option.bind_some]
    rfl
  | case4 c cs hescape ih =>
    simp only [Option.bind_eq_bind, Option.bind_eq_some_iff, Prod.exists] at h
    obtain ⟨meant, hmeant, pieces', rest', hrest, hsame⟩ := h
    cases hsame
    have hu : c ≠ 'u' := by
      rintro rfl
      cases hmeant
    rw [List.cons_append, List.cons_append, scanPieces?_short hmeant hu, ih hrest]
    rfl
  | case5 => cases h
  | case6 c cs hquote _ hescape hc ih =>
    simp only [Option.bind_eq_bind, Option.bind_eq_some_iff, Prod.exists] at h
    obtain ⟨pieces', rest', hrest, hsame⟩ := h
    cases hsame
    have hback : c ≠ '\\' := by
      rintro rfl
      cases cs with
      | nil => cases hrest
      | cons d cs => exact hescape d cs rfl rfl
    rw [List.cons_append, scanPieces?_bare hquote hback hc, ih hrest]
    rfl

theorem head_of_scan? {c : Char} {w : Written} (h : Written.scan? (c :: cs) = some (w, rest)) :
    c.isDigit ∨ c = '-' := by
  by_cases hc : c = '-'
  · exact Or.inr hc
  · left
    by_contra hdigit
    have hminus : Written.scanMinus (c :: cs) = (false, c :: cs) := by
      simp [Written.scanMinus, hc]
    simp [Written.scan?, hminus, hdigit] at h

theorem scanWord?_extend {t : Token} (h : scanWord? cs = some (t, rest)) (hds : Ends ds) :
    scanWord? (cs ++ ds) = some (t, rest ++ ds) := by
  unfold scanWord? at h
  split at h
  · next cs =>
    simp only [Option.map_eq_some_iff, Prod.exists] at h
    obtain ⟨pieces, rest', hpieces, hsame⟩ := h
    cases hsame
    rw [List.cons_append, scanWord?, scanPieces?_extend hpieces]
    rfl
  · cases h
    rfl
  · cases h
    rfl
  · cases h
    rfl
  · simp only [Option.map_eq_some_iff, Prod.exists] at h
    obtain ⟨w, rest', hw, hsame⟩ := h
    cases hsame
    cases cs with
    | nil => cases hw
    | cons c cs =>
      rw [List.cons_append, scanWord?_of_spellingChar (head_of_scan? hw), ← List.cons_append,
        Written.scan?_extend hw hds]
      rfl

/-! ### Tokens -/

/-- The tokens of a text do not depend on the fuel, if there is enough. -/
theorem lexUpTo_eq_lexUpTo {fuel fuel' : Nat} (h : cs.length ≤ fuel) (h' : cs.length ≤ fuel') :
    lexUpTo fuel cs = lexUpTo fuel' cs := by
  induction fuel generalizing fuel' cs with
  | zero =>
    obtain rfl := List.eq_nil_of_length_eq_zero (Nat.le_zero.1 h)
    cases fuel' <;> rfl
  | succ fuel ih =>
    cases cs with
    | nil => cases fuel' <;> rfl
    | cons c cs =>
      obtain ⟨fuel', rfl⟩ : ∃ n, fuel' = n + 1 := by
        rw [List.length_cons] at h'
        exact ⟨fuel' - 1, by omega⟩
      have hcs : cs.length ≤ fuel := Nat.le_of_succ_le_succ h
      have hcs' : cs.length ≤ fuel' := Nat.le_of_succ_le_succ h'
      rw [lexUpTo, lexUpTo, ih hcs hcs']
      cases hword : scanWord? (c :: cs) with
      | none => rfl
      | some found =>
        have hlt := (takesToken_of_scanWord? hword).length_lt
        rw [List.length_cons] at hlt
        have hrest : lexUpTo fuel found.2 = lexUpTo fuel' found.2 := ih (by omega) (by omega)
        simp only [hrest]

theorem lex_space {c : Char} (h : isSpace c) (cs : List Char) : lex (c :: cs) = lex cs := by
  rw [lex, List.length_cons, lexUpTo, if_pos h, lex]

theorem lex_punctuation {c : Char} {t : Token} (h : punctuation? c = some t) (cs : List Char) :
    lex (c :: cs) = t :: lex cs := by
  have hspace : isSpace c = false := by
    unfold punctuation? at h
    split at h <;> first | rfl | cases h
  simp only [lex, List.length_cons, lexUpTo, hspace, h, Bool.false_eq_true, if_false]

theorem lex_word {c : Char} {t : Token} (hspace : isSpace c = false) (hmark : punctuation? c = none)
    (h : scanWord? (c :: cs) = some (t, rest)) : lex (c :: cs) = t :: lex rest := by
  have hlt := (takesToken_of_scanWord? h).length_lt
  rw [List.length_cons] at hlt
  simp only [lex, List.length_cons, lexUpTo, hspace, hmark, h, Bool.false_eq_true, if_false]
  rw [lexUpTo_eq_lexUpTo (by omega) (Nat.le_refl rest.length)]

theorem lex_malformed {c : Char} (hspace : isSpace c = false) (hmark : punctuation? c = none)
    (h : scanWord? (c :: cs) = none) : lex (c :: cs) = [.malformed] := by
  simp only [lex, List.length_cons, lexUpTo, hspace, hmark, h, Bool.false_eq_true, if_false]

/-- The tokens of a text and of another one that follows it, if no number goes on into the other. -/
theorem lex_append (h : .malformed ∉ lex cs) (hds : Ends ds) : lex (cs ++ ds) = lex cs ++ lex ds := by
  induction hlength : cs.length using Nat.strong_induction_on generalizing cs with
  | _ length ih =>
    cases cs with
    | nil => rfl
    | cons c cs =>
      rw [List.length_cons] at hlength
      rw [List.cons_append]
      cases hspace : isSpace c with
      | true =>
        rw [lex_space hspace] at h ⊢
        rw [lex_space hspace]
        exact ih cs.length (by omega) h rfl
      | false =>
        cases hmark : punctuation? c with
        | some t =>
          rw [lex_punctuation hmark] at h ⊢
          rw [lex_punctuation hmark, List.cons_append]
          exact congrArg (t :: ·) (ih cs.length (by omega) (fun hmem => h (.tail _ hmem)) rfl)
        | none =>
          cases hword : scanWord? (c :: cs) with
          | none =>
            rw [lex_malformed hspace hmark hword] at h
            exact absurd (List.mem_singleton_self _) h
          | some found =>
            obtain ⟨t, rest⟩ := found
            have hlt := (takesToken_of_scanWord? hword).length_lt
            rw [List.length_cons] at hlt
            have hglued := scanWord?_extend hword hds
            rw [List.cons_append] at hglued
            rw [lex_word hspace hmark hword] at h ⊢
            rw [lex_word hspace hmark hglued, List.cons_append]
            exact congrArg (t :: ·) (ih rest.length (by omega) (fun hmem => h (.tail _ hmem)) rfl)

/-! ### White space and commas -/

/-- A text with white space around it. -/
def Padded (cs padded : List Char) : Prop :=
  ∃ before after : List Char, before.all isSpace ∧ after.all isSpace ∧ padded = before ++ cs ++ after

theorem lex_spaces_append (h : cs.all isSpace) (ds : List Char) : lex (cs ++ ds) = lex ds := by
  induction cs with
  | nil => rfl
  | cons c cs ih =>
    rw [List.all_cons, Bool.and_eq_true] at h
    rw [List.cons_append, lex_space h.1, ih h.2]

theorem ends_of_spaces (h : cs.all isSpace) : Ends cs := by
  cases cs with
  | nil => rfl
  | cons c cs =>
    rw [List.all_cons, Bool.and_eq_true] at h
    have hc := h.1
    simp only [isSpace, Bool.or_eq_true, decide_eq_true_eq] at hc
    rcases hc with ((rfl | rfl) | rfl) | rfl <;> rfl

theorem Padded.lex_eq {padded : List Char} (h : Padded cs padded) (hcs : .malformed ∉ lex cs) :
    lex padded = lex cs := by
  obtain ⟨before, after, hbefore, hafter, rfl⟩ := h
  have hspaces : lex after = [] := by
    have hnil := lex_spaces_append hafter []
    rwa [List.append_nil] at hnil
  rw [List.append_assoc, lex_spaces_append hbefore, lex_append hcs (ends_of_spaces hafter), hspaces,
    List.append_nil]

theorem lex_intercalate {pieces : List (List Char)} (h : ∀ piece ∈ pieces, .malformed ∉ lex piece)
    (hds : Ends ds) :
    lex ([','].intercalate pieces ++ ds) = [.comma].intercalate (pieces.map lex) ++ lex ds := by
  induction pieces with
  | nil => rfl
  | cons piece pieces ih =>
    rw [List.forall_mem_cons] at h
    cases pieces with
    | nil =>
      rw [List.map_singleton, List.intercalate_singleton, List.intercalate_singleton]
      exact lex_append h.1 hds
    | cons next pieces =>
      have hcomma : Ends (',' :: ([','].intercalate (next :: pieces) ++ ds)) := rfl
      rw [List.map_cons, List.map_cons, List.intercalate_cons_cons, List.intercalate_cons_cons,
        List.append_assoc, List.append_assoc, List.singleton_append, lex_append h.1 hcomma,
        lex_punctuation rfl, ih h.2, List.map_cons, List.append_assoc, List.append_assoc,
        List.singleton_append]

end Rulebook.Json
