import Rulebook.Proofs.Json.Depth

/-!
# Scanning a text that is read

A scan of brackets and the lexer go over the same text in different ways. What the lexer takes for one
token leaves the scan as the token alone would (`takesToken_of_scanWord?`), so the scan goes over a text
as over the texts of its tokens, however they are spelled (`exists_foldl_lexUpTo`).
-/

namespace Rulebook.Json

/-! ### Numbers -/

/-- What is left of a text after characters that are no quotation marks and no brackets. -/
def Strips (cs rest : List Char) : Prop := ∃ taken, cs = taken ++ rest ∧ taken.all isPlain

theorem Strips.refl (cs : List Char) : Strips cs cs := ⟨[], rfl, rfl⟩

theorem Strips.trans {cs ds es : List Char} (h : Strips cs ds) (h' : Strips ds es) : Strips cs es := by
  obtain ⟨taken, rfl, hall⟩ := h
  obtain ⟨taken', rfl, hall'⟩ := h'
  exact ⟨taken ++ taken', (List.append_assoc _ _ _).symm, by rw [List.all_append, hall, hall']; rfl⟩

theorem Strips.length_le {cs rest : List Char} (h : Strips cs rest) : rest.length ≤ cs.length := by
  obtain ⟨taken, rfl, -⟩ := h
  rw [List.length_append]
  omega

theorem strips_cons {c : Char} (h : isPlain c) (cs : List Char) : Strips (c :: cs) cs :=
  ⟨[c], rfl, by simpa using h⟩

theorem isPlain_of_isDigit {c : Char} (h : c.isDigit) : isPlain c :=
  isPlain_of_isSpellingChar (by simp [Spelling.isSpellingChar, h])

theorem strips_digits (cs : List Char) : Strips cs (cs.dropWhile Char.isDigit) := by
  refine ⟨cs.takeWhile Char.isDigit, List.takeWhile_append_dropWhile.symm, ?_⟩
  rw [List.all_eq_true]
  intro c hc
  exact isPlain_of_isDigit (List.mem_takeWhile_imp hc)

theorem strips_scanMinus (cs : List Char) : Strips cs (Written.scanMinus cs).2 := by
  unfold Written.scanMinus
  split
  · exact strips_cons (by decide) _
  · exact .refl _

theorem strips_scanFraction? {cs fraction rest : List Char}
    (h : Written.scanFraction? cs = some (fraction, rest)) : Strips cs rest := by
  unfold Written.scanFraction? at h
  split at h
  · simp only at h
    split_ifs at h
    cases h
    exact (strips_cons (by decide) _).trans (strips_digits _)
  · cases h
    exact .refl _

theorem strips_splitSign (cs : List Char) : Strips cs (Numeral.splitSign cs).2 := by
  unfold Numeral.splitSign
  split
  · exact strips_cons (by decide) _
  · exact strips_cons (by decide) _
  · exact .refl _

theorem strips_scanPower? {cs rest : List Char} {power : Option Int}
    (h : Written.scanPower? cs = some (power, rest)) : Strips cs rest := by
  cases cs with
  | nil =>
    cases h
    exact .refl _
  | cons c cs =>
    simp only [Written.scanPower?] at h
    split at h
    · next hc =>
      split at h
      · cases h
      · cases h
        have hplain : isPlain c := by rcases hc with rfl | rfl <;> decide
        exact (strips_cons hplain cs).trans ((strips_splitSign cs).trans (strips_digits _))
    · cases h
      exact .refl _

theorem strips_scan? {cs rest : List Char} {w : Written} (h : Written.scan? cs = some (w, rest)) :
    Strips cs rest ∧ rest.length < cs.length := by
  simp only [Written.scan?] at h
  split at h
  · cases h
  · next hwhole =>
    simp only [Option.bind_eq_bind, Option.bind_eq_some_iff, Prod.exists] at h
    obtain ⟨fraction, afterFraction, hfraction, power, rest', hpower, hrest⟩ := h
    cases hrest
    have hsign := strips_scanMinus cs
    have hdigits := strips_digits (Written.scanMinus cs).2
    have hend := (strips_scanFraction? hfraction).trans (strips_scanPower? hpower)
    refine ⟨(hsign.trans hdigits).trans hend, ?_⟩
    -- there is at least one digit before the point
    have hpos := List.length_pos_iff.2 fun hnil => hwhole (Or.inl hnil)
    have hsplit := congrArg List.length (List.takeWhile_append_dropWhile (p := Char.isDigit)
      (l := (Written.scanMinus cs).2))
    rw [List.length_append] at hsplit
    have hsign := hsign.length_le
    have hend := hend.length_le
    omega

/-! ### Strings -/

/-- A scan inside a string comes to the end of the string. -/
def Leaves (cs rest : List Char) : Prop :=
  ∃ taken, cs = taken ++ rest ∧ ∀ opened deepest,
    taken.foldl Scan.step (inside opened deepest) = between opened deepest

theorem Leaves.append {cs rest : List Char} (h : Leaves cs rest) (front : List Char)
    (hfront : ∀ opened deepest,
      front.foldl Scan.step (inside opened deepest) = inside opened deepest) :
    Leaves (front ++ cs) rest := by
  obtain ⟨taken, rfl, hscan⟩ := h
  refine ⟨front ++ taken, (List.append_assoc _ _ _).symm, fun opened deepest => ?_⟩
  rw [List.foldl_append, hfront, hscan]

theorem step_inside_hexadecimal {c : Char} {n opened deepest : Nat}
    (h : Hexadecimal.digit? c = some n) :
    (inside opened deepest).step c = inside opened deepest := by
  apply step_inside
  · rintro rfl
    cases h
  · rintro rfl
    cases h

theorem foldl_codeUnit {a b c d : Char} {n opened deepest : Nat}
    (h : Hexadecimal.read? [a, b, c, d] = some n) :
    ['\\', 'u', a, b, c, d].foldl Scan.step (inside opened deepest) = inside opened deepest := by
  simp only [Hexadecimal.read?, Option.map_eq_some_iff, List.mapM_cons, List.mapM_nil,
    Option.bind_eq_bind, Option.bind_eq_some_iff] at h
  obtain ⟨_, ⟨_, ha, _, ⟨_, hb, _, ⟨_, hc, _, ⟨_, hd, -⟩, -⟩, -⟩, -⟩, -⟩ := h
  have hstart : ['\\', 'u'].foldl Scan.step (inside opened deepest) = inside opened deepest := rfl
  rw [show ['\\', 'u', a, b, c, d] = ['\\', 'u'] ++ [a, b, c, d] from rfl, List.foldl_append, hstart]
  simp only [List.foldl_cons, List.foldl_nil, step_inside_hexadecimal ha, step_inside_hexadecimal hb,
    step_inside_hexadecimal hc, step_inside_hexadecimal hd]

theorem leaves_of_scanPieces? {cs rest : List Char} {pieces : List Piece}
    (h : scanPieces? cs = some (pieces, rest)) : Leaves cs rest := by
  fun_induction scanPieces? cs generalizing pieces with
  | case1 => cases h
  | case2 cs =>
    cases h
    exact ⟨['"'], rfl, fun _ _ => rfl⟩
  | case3 a b c d cs ih =>
    simp only [Option.bind_eq_bind, Option.bind_eq_some_iff, Prod.exists] at h
    obtain ⟨unit, hunit, pieces', rest', hrest, hsame⟩ := h
    cases hsame
    exact (ih hrest).append _ fun _ _ => foldl_codeUnit hunit
  | case4 c cs _ ih =>
    simp only [Option.bind_eq_bind, Option.bind_eq_some_iff, Prod.exists] at h
    obtain ⟨meant, -, pieces', rest', hrest, hsame⟩ := h
    cases hsame
    exact (ih hrest).append ['\\', c] fun _ _ => rfl
  | case5 => cases h
  | case6 c cs hquote _ hescape hc ih =>
    simp only [Option.bind_eq_bind, Option.bind_eq_some_iff, Prod.exists] at h
    obtain ⟨pieces', rest', hrest, hsame⟩ := h
    cases hsame
    have hbackslash : c ≠ '\\' := by
      rintro rfl
      cases cs with
      | nil => cases hrest
      | cons d cs => exact hescape d cs rfl rfl
    refine (ih hrest).append [c] fun _ _ => ?_
    rw [List.foldl_cons, List.foldl_nil, step_inside hquote hbackslash]

/-! ### Tokens -/

/-- A scan between tokens goes over a text and is between tokens again, with as many brackets open. -/
def Passes (taken : List Char) : Prop :=
  ∀ opened deepest, taken.foldl Scan.step (between opened deepest) = between opened deepest

theorem Strips.passes {cs rest : List Char} (h : Strips cs rest) :
    ∃ taken, cs = taken ++ rest ∧ Passes taken := by
  obtain ⟨taken, rfl, hall⟩ := h
  exact ⟨taken, rfl, fun _ _ => foldl_plain hall⟩

theorem Token.passes_text_string (s : Option String) : Passes (Token.string s).text := by
  intro opened deepest
  cases s with
  | none => rfl
  | some s => exact foldl_quote s.toList

theorem Token.passes_text_number (n : Option Number) : Passes (Token.number n).text := by
  intro opened deepest
  cases n with
  | none => rfl
  | some n => exact foldl_plain n.all_isPlain_text

/-- A scan goes over what the lexer takes for one token as over the text of the token. -/
structure TakesToken (cs : List Char) (t : Token) (rest : List Char) : Prop where
  passes_text : Passes t.text
  passes_taken : ∃ taken, cs = taken ++ rest ∧ Passes taken
  length_lt : rest.length < cs.length

theorem takesToken_of_scanWord? {cs rest : List Char} {t : Token}
    (h : scanWord? cs = some (t, rest)) : TakesToken cs t rest := by
  unfold scanWord? at h
  split at h
  · next cs =>
    simp only [Option.map_eq_some_iff, Prod.exists] at h
    obtain ⟨pieces, rest', hpieces, hsame⟩ := h
    cases hsame
    obtain ⟨taken, rfl, hscan⟩ := leaves_of_scanPieces? hpieces
    refine ⟨Token.passes_text_string _, ⟨'"' :: taken, rfl, hscan⟩, ?_⟩
    simp only [List.length_cons, List.length_append]
    omega
  · cases h
    exact ⟨fun _ _ => rfl, ⟨"null".toList, rfl, fun _ _ => rfl⟩, by simp only [List.length_cons]; omega⟩
  · cases h
    exact ⟨fun _ _ => rfl, ⟨"true".toList, rfl, fun _ _ => rfl⟩, by simp only [List.length_cons]; omega⟩
  · cases h
    exact ⟨fun _ _ => rfl, ⟨"false".toList, rfl, fun _ _ => rfl⟩, by simp only [List.length_cons]; omega⟩
  · simp only [Option.map_eq_some_iff, Prod.exists] at h
    obtain ⟨w, rest', hw, hsame⟩ := h
    cases hsame
    obtain ⟨hstrips, hlt⟩ := strips_scan? hw
    exact ⟨Token.passes_text_number _, hstrips.passes, hlt⟩

theorem exists_step_between {c : Char} (h : c ≠ '"') (opened deepest : Nat) :
    ∃ opened' deepest', (between opened deepest).step c = between opened' deepest' := by
  simp only [between, Scan.step, if_neg h]
  split_ifs
  · exact ⟨_, _, rfl⟩
  · exact ⟨_, _, rfl⟩
  · exact ⟨_, _, rfl⟩

theorem isPlain_of_isSpace {c : Char} (h : isSpace c) : isPlain c := by
  simp only [isSpace, Bool.or_eq_true, decide_eq_true_eq] at h
  rcases h with ((rfl | rfl) | rfl) | rfl <;> decide

theorem text_of_punctuation? {c : Char} {t : Token} (h : punctuation? c = some t) :
    t.text = [c] ∧ c ≠ '"' := by
  unfold punctuation? at h
  split at h <;> cases h <;> exact ⟨rfl, by decide⟩

/-- A scan goes over a text that the lexer reads to its end as over the texts of its tokens, and over a
text that it does not as over the texts of the tokens before the place where it stops. -/
theorem exists_foldl_lexUpTo {fuel : Nat} {cs : List Char} (hf : cs.length ≤ fuel)
    (opened deepest : Nat) :
    ∃ taken rest, cs = taken ++ rest ∧ (.malformed ∉ lexUpTo fuel cs → rest = []) ∧
      taken.foldl Scan.step (between opened deepest) =
        ((lexUpTo fuel cs).flatMap Token.text).foldl Scan.step (between opened deepest) := by
  induction fuel generalizing cs opened deepest with
  | zero =>
    rw [List.eq_nil_of_length_eq_zero (Nat.le_zero.1 hf)]
    exact ⟨[], [], rfl, fun _ => rfl, rfl⟩
  | succ fuel ih =>
    cases cs with
    | nil => exact ⟨[], [], rfl, fun _ => rfl, rfl⟩
    | cons c cs =>
      have hcs : cs.length ≤ fuel := Nat.le_of_succ_le_succ hf
      rw [lexUpTo]
      split
      · next hspace =>
        obtain ⟨taken, rest, hsplit, hend, hscan⟩ := ih hcs opened deepest
        have hplain : [c].all isPlain := by simpa using isPlain_of_isSpace hspace
        have hstep : (between opened deepest).step c = between opened deepest := foldl_plain hplain
        refine ⟨c :: taken, rest, by rw [hsplit, List.cons_append], hend, ?_⟩
        rw [← hscan, List.foldl_cons, hstep]
      · split
        · next t ht =>
          obtain ⟨htext, hquote⟩ := text_of_punctuation? ht
          obtain ⟨opened', deepest', hstep⟩ := exists_step_between hquote opened deepest
          obtain ⟨taken, rest, hsplit, hend, hscan⟩ := ih hcs opened' deepest'
          refine ⟨c :: taken, rest, by rw [hsplit, List.cons_append],
            fun h => hend fun hmem => h (List.mem_cons_of_mem _ hmem), ?_⟩
          rw [List.flatMap_cons, htext, List.foldl_cons, List.singleton_append, List.foldl_cons, hstep,
            hscan]
        · split
          · next t rest' hword =>
            obtain ⟨htext, ⟨taken', htaken', hpass⟩, hlt⟩ := takesToken_of_scanWord? hword
            have hlength : rest'.length ≤ fuel := Nat.le_of_lt_succ (Nat.lt_of_lt_of_le hlt hf)
            obtain ⟨taken, rest, hsplit, hend, hscan⟩ := ih hlength opened deepest
            refine ⟨taken' ++ taken, rest, by rw [htaken', hsplit, List.append_assoc],
              fun h => hend fun hmem => h (List.mem_cons_of_mem _ hmem), ?_⟩
            rw [List.flatMap_cons, List.foldl_append, List.foldl_append, hpass, htext, hscan]
          · exact ⟨[], c :: cs, rfl, fun h => absurd (List.mem_singleton.2 rfl) h, rfl⟩

theorem Apart.malformed_notMem {ts : List Token} (h : Apart ts) : Token.malformed ∉ ts := by
  induction ts with
  | nil => exact List.not_mem_nil
  | cons t ts ih =>
    intro hmem
    rcases List.mem_cons.1 hmem with rfl | hmem
    · exact h.1
    · exact ih h.2 hmem

theorem malformed_notMem_tokens (j : Json) : Token.malformed ∉ j.tokens := by
  have hnil : Follows [] := fun t ht => by cases ht
  have h : Apart (j.tokens ++ []) := apart_tokens j trivial hnil
  rw [List.append_nil] at h
  exact h.malformed_notMem

end Rulebook.Json
