import Rulebook.Json.Basic
import Rulebook.Proofs.Json.Spelling

/-!
# Reading printed tokens

The text of a JSON value is the text of its tokens, one after another. Reading it gives the tokens
back, except that a number comes back as what its text spells (`lex_text`): a number is written by its
shortest digits and read in its own way, and one that is not finite is written `null`.
-/

namespace Rulebook.Json

/-! ### Strings -/

/-- How a character stands between quotation marks: after a backslash, by its code, or bare. -/
theorem escapeChar_cases (c : Char) :
    (∃ x, escapeChar c = ['\\', x] ∧ shortEscape? x = some c ∧ x ≠ 'u') ∨
    (c.toNat < 32 ∧
      escapeChar c = ['\\', 'u', '0', '0', (c.toNat / 16).digitChar, (c.toNat % 16).digitChar]) ∨
    (escapeChar c = [c] ∧ c ≠ '"' ∧ c ≠ '\\' ∧ ¬ c.toNat < 32) := by
  unfold escapeChar
  split
  · exact Or.inl ⟨'"', rfl, rfl, by decide⟩
  · exact Or.inl ⟨'\\', rfl, rfl, by decide⟩
  · exact Or.inl ⟨'b', rfl, rfl, by decide⟩
  · exact Or.inl ⟨'f', rfl, rfl, by decide⟩
  · exact Or.inl ⟨'n', rfl, rfl, by decide⟩
  · exact Or.inl ⟨'r', rfl, rfl, by decide⟩
  · exact Or.inl ⟨'t', rfl, rfl, by decide⟩
  · next hquote hback _ _ _ _ _ =>
    split
    · next hc => exact Or.inr (Or.inl ⟨hc, rfl⟩)
    · next hc => exact Or.inr (Or.inr ⟨rfl, hquote, hback, hc⟩)

/-- The piece that a character comes back as: escapes by code are six characters long. -/
def pieceOf (c : Char) : Piece :=
  if (escapeChar c).length = 6 then .codeUnit c.toNat else .char c

theorem hexadecimal_control {n : Nat} (h : n < 32) :
    Hexadecimal.read? ['0', '0', (n / 16).digitChar, (n % 16).digitChar] = some n := by
  have hall : ∀ m < 32,
      Hexadecimal.read? ['0', '0', (m / 16).digitChar, (m % 16).digitChar] = some m := by decide
  exact hall n h

theorem scanPieces?_bare {c : Char} (hquote : c ≠ '"') (hback : c ≠ '\\') (hc : ¬ c.toNat < 32)
    (cs : List Char) :
    scanPieces? (c :: cs) = (scanPieces? cs).map fun (pieces, rest) => (.char c :: pieces, rest) := by
  rw [scanPieces?.eq_def]
  split
  · next h => cases h
  · next h => exact absurd (List.cons.inj h).1 hquote
  · next h => exact absurd (List.cons.inj h).1 hback
  · next h => exact absurd (List.cons.inj h).1 hback
  · next h =>
    cases h
    rw [if_neg hc]
    cases scanPieces? cs <;> rfl

theorem scanPieces?_short {x c : Char} (hx : shortEscape? x = some c) (hu : x ≠ 'u')
    (cs : List Char) :
    scanPieces? ('\\' :: x :: cs) =
      (scanPieces? cs).map fun (pieces, rest) => (.char c :: pieces, rest) := by
  rw [scanPieces?.eq_def]
  split
  · next h => cases h
  · next h => exact absurd (List.cons.inj h).1 (by decide)
  · next h =>
    cases h
    exact absurd rfl hu
  · next h =>
    cases h
    rw [hx]
    cases scanPieces? cs <;> rfl
  · next hother h =>
    cases h
    exact (hother x cs rfl rfl).elim

theorem scanPieces?_escapeChar (c : Char) (cs : List Char) :
    scanPieces? (escapeChar c ++ cs) =
      (scanPieces? cs).map fun (pieces, rest) => (pieceOf c :: pieces, rest) := by
  rcases escapeChar_cases c with ⟨x, he, hx, hu⟩ | ⟨hc, he⟩ | ⟨he, hquote, hback, hc⟩
  · have hpiece : pieceOf c = .char c := by simp [pieceOf, he]
    rw [he, hpiece]
    exact scanPieces?_short hx hu cs
  · have hpiece : pieceOf c = .codeUnit c.toNat := by simp [pieceOf, he]
    rw [he, hpiece]
    simp only [List.cons_append, List.nil_append, scanPieces?, hexadecimal_control hc]
    cases scanPieces? cs <;> rfl
  · have hpiece : pieceOf c = .char c := by simp [pieceOf, he]
    rw [he, hpiece]
    exact scanPieces?_bare hquote hback hc cs

/-- The pieces of a string come back from between its quotation marks. -/
theorem scanPieces?_quoted (cs rest : List Char) :
    scanPieces? (cs.flatMap escapeChar ++ '"' :: rest) = some (cs.map pieceOf, rest) := by
  induction cs with
  | nil => rfl
  | cons c cs ih =>
    rw [List.flatMap_cons, List.append_assoc, scanPieces?_escapeChar, ih]
    rfl

theorem assemble?_codeUnit {n : Nat} (h : n < 0xD800) (pieces : List Piece) :
    assemble? (.codeUnit n :: pieces) = (assemble? pieces).map (Char.ofNat n :: ·) := by
  have hh : isHighSurrogate n = false := by
    simp only [isHighSurrogate, Bool.and_eq_false_iff, decide_eq_false_iff_not]
    omega
  have hl : isLowSurrogate n = false := by
    simp only [isLowSurrogate, Bool.and_eq_false_iff, decide_eq_false_iff_not]
    omega
  cases pieces with
  | nil => simp [assemble?, hh, hl]
  | cons p pieces => cases p <;> simp [assemble?, hh, hl]

theorem assemble?_map (cs : List Char) : assemble? (cs.map pieceOf) = some cs := by
  induction cs with
  | nil => rfl
  | cons c cs ih =>
    rw [List.map_cons]
    have hpiece : pieceOf c = .char c ∨ (c.toNat < 32 ∧ pieceOf c = .codeUnit c.toNat) := by
      rcases escapeChar_cases c with ⟨x, he, -, -⟩ | ⟨hc, he⟩ | ⟨he, -⟩ <;> simp [pieceOf, he]
      exact hc
    rcases hpiece with hp | ⟨hc, hp⟩
    · rw [hp, assemble?, ih]
      rfl
    · rw [hp, assemble?_codeUnit (by omega), ih, Option.map_some, Char.ofNat_toNat]

/-! ### Tokens -/

/-- The token that a number comes back as from its text. -/
def Number.reread (n : Number) : Token :=
  match Written.scan? n.text with
  | some (written, _) => .number written.value?
  | none => .null

/-- The token that a token comes back as from its text. -/
def Token.reread : Token → Token
  | number (some n) => n.reread
  | token => token

theorem scanWord?_quote (s : String) (rest : List Char) :
    scanWord? (quote s.toList ++ rest) = some (.string (some s), rest) := by
  have hquote : quote s.toList ++ rest = '"' :: (s.toList.flatMap escapeChar ++ '"' :: rest) := by
    simp [quote]
  rw [hquote, scanWord?, scanPieces?_quoted, Option.map_some]
  simp only [assemble?_map, Option.map_some, String.ofList_toList]

theorem scanWord?_of_spellingChar {c : Char} (hc : c.isDigit ∨ c = '-') (cs : List Char) :
    scanWord? (c :: cs) =
      (Written.scan? (c :: cs)).map fun (written, rest) => (.number written.value?, rest) := by
  have hne : c ≠ '"' ∧ c ≠ 'n' ∧ c ≠ 't' ∧ c ≠ 'f' := by
    rcases hc with hc | rfl
    · refine ⟨?_, ?_, ?_, ?_⟩ <;> (rintro rfl; exact absurd hc (by decide))
    · decide
  unfold scanWord?
  split
  · next h => exact absurd (List.cons.inj h).1 hne.1
  · next h => exact absurd (List.cons.inj h).1 hne.2.1
  · next h => exact absurd (List.cons.inj h).1 hne.2.2.1
  · next h => exact absurd (List.cons.inj h).1 hne.2.2.2
  · rfl

theorem punctuation?_eq_none {c : Char} (h : c.isDigit ∨ c.isAlpha ∨ c = '-' ∨ c = '"') :
    punctuation? c = none ∧ isSpace c = false := by
  have hne : ∀ d : Char, d.isDigit = false → d.isAlpha = false → d ≠ '-' → d ≠ '"' → c ≠ d := by
    rintro d hd ha hm hq rfl
    rcases h with h | h | h | h
    · exact absurd h (by simp [hd])
    · exact absurd h (by simp [ha])
    · exact hm h
    · exact hq h
  constructor
  · unfold punctuation?
    split
    · exact absurd rfl (hne '{' rfl rfl (by decide) (by decide))
    · exact absurd rfl (hne '}' rfl rfl (by decide) (by decide))
    · exact absurd rfl (hne '[' rfl rfl (by decide) (by decide))
    · exact absurd rfl (hne ']' rfl rfl (by decide) (by decide))
    · exact absurd rfl (hne ',' rfl rfl (by decide) (by decide))
    · exact absurd rfl (hne ':' rfl rfl (by decide) (by decide))
    · rfl
  · simp only [isSpace, Bool.or_eq_false_iff, decide_eq_false_iff_not]
    exact ⟨⟨⟨hne ' ' rfl rfl (by decide) (by decide), hne '\t' rfl rfl (by decide) (by decide)⟩,
      hne '\n' rfl rfl (by decide) (by decide)⟩, hne '\r' rfl rfl (by decide) (by decide)⟩

/-- A token that stands for something, and a text that may follow it. -/
def Token.Printable (rest : List Char) : Token → Prop
  | number n => n.isSome ∧ Ends rest
  | string s => s.isSome
  | malformed => False
  | _ => True

/-- A lexer takes the text of a token in one turn. -/
def TakesWord (t : Token) (taken : List Char) (rest : List Char) : Prop :=
  ∃ c cs, taken = c :: cs ∧ isSpace c = false ∧ punctuation? c = none ∧
    scanWord? (taken ++ rest) = some (t, rest)

theorem takesWord_spelling {s : Spelling} (h : s.IsValid) {rest : List Char} (hr : Ends rest) :
    TakesWord (.number s.written.value?) s.chars rest := by
  obtain ⟨c, cs, hc⟩ := List.exists_cons_of_ne_nil (Spelling.chars_ne_nil h)
  have hfirst : c.isDigit ∨ c = '-' := by
    obtain ⟨d, ds, hw⟩ := List.exists_cons_of_ne_nil h.whole_ne
    have hd := h.whole_digits
    rw [hw, List.all_cons, Bool.and_eq_true] at hd
    unfold Spelling.chars Spelling.signChars at hc
    rw [hw] at hc
    split at hc <;> cases hc
    · exact Or.inr rfl
    · exact Or.inl hd.1
  have hscan := Spelling.scan?_chars h hr
  obtain ⟨hp, hs⟩ := punctuation?_eq_none (c := c)
    (hfirst.imp_right fun hm => Or.inr (Or.inl hm))
  refine ⟨c, cs, hc, hs, hp, ?_⟩
  rw [hc, List.cons_append] at hscan ⊢
  rw [scanWord?_of_spellingChar hfirst, hscan]
  rfl

theorem takesWord_null (rest : List Char) : TakesWord .null ['n', 'u', 'l', 'l'] rest :=
  ⟨'n', _, rfl, by decide, by decide, rfl⟩

theorem ends_nil : Ends [] := rfl

theorem Number.reread_of_spelling {n : Number} {s : Spelling} (hs : s.IsValid)
    (ht : n.text = s.chars) : n.reread = .number s.written.value? := by
  have hscan := Spelling.scan?_chars hs ends_nil
  rw [List.append_nil] at hscan
  rw [reread, ht, hscan]

theorem Number.text_of_not_isFinite {x : Binary64} (h : ¬ x.isFinite) :
    (float x).text = ['n', 'u', 'l', 'l'] := by
  cases x with
  | nan => rfl
  | signed negative m =>
    have hm : m = Magnitude.infinity := by simpa [Binary64.isFinite] using h
    rw [text, Layout.text, if_pos hm]
    rfl

theorem Number.reread_of_not_isFinite {x : Binary64} (h : ¬ x.isFinite) :
    (float x).reread = .null := by
  rw [reread, text_of_not_isFinite h]
  rfl

theorem takesWord_number (n : Number) {rest : List Char} (hr : Ends rest) :
    TakesWord n.reread n.text rest := by
  have hspelled : ∀ s : Spelling, s.IsValid → n.text = s.chars → TakesWord n.reread n.text rest := by
    intro s hs ht
    rw [Number.reread_of_spelling hs ht, ht]
    exact takesWord_spelling hs hr
  cases n with
  | integer i =>
    obtain ⟨s, hs, ht⟩ := exists_spelling_integer i
    exact hspelled s hs ht
  | float x =>
    by_cases hx : x.isFinite
    · obtain ⟨s, hs, ht⟩ := exists_spelling_float hx
      exact hspelled s hs ht
    · rw [Number.reread_of_not_isFinite hx, Number.text_of_not_isFinite hx]
      exact takesWord_null rest

theorem lexUpTo_of_takesWord {t : Token} {taken rest : List Char} (h : TakesWord t taken rest)
    {fuel : Nat} (hf : (taken ++ rest).length ≤ fuel) :
    ∃ fuel', rest.length ≤ fuel' ∧ lexUpTo fuel (taken ++ rest) = t :: lexUpTo fuel' rest := by
  obtain ⟨c, cs, rfl, hs, hp, hw⟩ := h
  cases fuel with
  | zero =>
    simp only [List.cons_append, List.length_cons] at hf
    omega
  | succ fuel =>
    refine ⟨fuel, ?_, ?_⟩
    · simp only [List.cons_append, List.length_cons, List.length_append] at hf
      omega
    · rw [List.cons_append] at hw ⊢
      rw [lexUpTo, if_neg (by simp [hs]), hp]
      simp only [hw]

theorem lexUpTo_punctuation {c : Char} {t : Token} (hc : punctuation? c = some t)
    {rest : List Char} {fuel : Nat} (hf : ([c] ++ rest).length ≤ fuel) :
    ∃ fuel', rest.length ≤ fuel' ∧ lexUpTo fuel ([c] ++ rest) = t :: lexUpTo fuel' rest := by
  have hs : isSpace c = false := by
    cases hsp : isSpace c with
    | false => rfl
    | true =>
      simp only [isSpace, Bool.or_eq_true, decide_eq_true_eq] at hsp
      rcases hsp with ((rfl | rfl) | rfl) | rfl <;> cases hc
  cases fuel with
  | zero =>
    simp only [List.cons_append, List.length_cons] at hf
    omega
  | succ fuel =>
    refine ⟨fuel, ?_, ?_⟩
    · simp only [List.cons_append, List.nil_append, List.length_cons] at hf
      omega
    · rw [List.cons_append, List.nil_append, lexUpTo, if_neg (by simp [hs]), hc]

theorem lexUpTo_token {t : Token} {rest : List Char} (h : t.Printable rest) {fuel : Nat}
    (hf : (t.text ++ rest).length ≤ fuel) :
    ∃ fuel', rest.length ≤ fuel' ∧
      lexUpTo fuel (t.text ++ rest) = t.reread :: lexUpTo fuel' rest := by
  cases t with
  | openBrace => exact lexUpTo_punctuation rfl hf
  | closeBrace => exact lexUpTo_punctuation rfl hf
  | openBracket => exact lexUpTo_punctuation rfl hf
  | closeBracket => exact lexUpTo_punctuation rfl hf
  | comma => exact lexUpTo_punctuation rfl hf
  | colon => exact lexUpTo_punctuation rfl hf
  | null => exact lexUpTo_of_takesWord (takesWord_null rest) hf
  | boolean b =>
    cases b with
    | true => exact lexUpTo_of_takesWord ⟨'t', _, rfl, by decide, by decide, rfl⟩ hf
    | false => exact lexUpTo_of_takesWord ⟨'f', _, rfl, by decide, by decide, rfl⟩ hf
  | number n =>
    obtain ⟨hn, hr⟩ := h
    obtain ⟨n, rfl⟩ := Option.isSome_iff_exists.1 hn
    exact lexUpTo_of_takesWord (takesWord_number n hr) hf
  | string s =>
    obtain ⟨s, rfl⟩ := Option.isSome_iff_exists.1 h
    exact lexUpTo_of_takesWord ⟨'"', _, rfl, by decide, by decide, scanWord?_quote s rest⟩ hf
  | malformed => exact h.elim

/-! ### Token lists -/

/-- Tokens whose texts stay apart: no text of a token can go on into the next. -/
def Apart : List Token → Prop
  | [] => True
  | t :: ts => t.Printable (ts.flatMap Token.text) ∧ Apart ts

theorem lexUpTo_apart {ts : List Token} (h : Apart ts) {fuel : Nat}
    (hf : (ts.flatMap Token.text).length ≤ fuel) :
    lexUpTo fuel (ts.flatMap Token.text) = ts.map Token.reread := by
  induction ts generalizing fuel with
  | nil => cases fuel <;> rfl
  | cons t ts ih =>
    rw [List.flatMap_cons] at hf ⊢
    obtain ⟨fuel', hf', hlex⟩ := lexUpTo_token h.1 hf
    rw [hlex, ih h.2 hf', List.map_cons]

theorem lex_apart {ts : List Token} (h : Apart ts) :
    lex (ts.flatMap Token.text) = ts.map Token.reread := lexUpTo_apart h (Nat.le_refl _)

/-- Tokens that may follow a value: none, or first a comma or a closing bracket. -/
def Follows (ts : List Token) : Prop :=
  ∀ t, ts.head? = some t → t = .comma ∨ t = .closeBracket ∨ t = .closeBrace

theorem Follows.ends {ts : List Token} (h : Follows ts) : Ends (ts.flatMap Token.text) := by
  cases ts with
  | nil => rfl
  | cons t ts => rcases h t rfl with rfl | rfl | rfl <;> rfl

mutual

theorem apart_tokens : ∀ (j : Json) {ts : List Token}, Apart ts → Follows ts → Apart (j.tokens ++ ts)
  | null, _, h, _ => ⟨trivial, h⟩
  | boolean _, _, h, _ => ⟨trivial, h⟩
  | number _, _, h, hf => ⟨⟨rfl, hf.ends⟩, h⟩
  | string _, _, h, _ => ⟨rfl, h⟩
  | array items, ts, h, _ => by
    rw [tokens, List.cons_append, List.append_assoc]
    exact ⟨trivial, apart_items items true ⟨trivial, h⟩ fun t ht => by cases ht; simp⟩
  | object members, ts, h, _ => by
    rw [tokens, List.cons_append, List.append_assoc]
    exact ⟨trivial, apart_members members true ⟨trivial, h⟩ fun t ht => by cases ht; simp⟩

theorem apart_items : ∀ (items : List Json) (first : Bool) {ts : List Token}, Apart ts →
    Follows ts → Apart (itemTokens first items ++ ts)
  | [], _, _, h, _ => h
  | j :: items, first, ts, h, hf => by
    have hrest := apart_items items false h hf
    have hfollows : Follows (itemTokens false items ++ ts) := by
      cases items with
      | nil => exact hf
      | cons i items => exact fun t ht => by simp [itemTokens] at ht; exact Or.inl ht.symm
    have hj := apart_tokens j hrest hfollows
    rw [itemTokens, List.append_assoc, List.append_assoc]
    cases first with
    | true => exact hj
    | false => exact ⟨trivial, hj⟩

theorem apart_members : ∀ (members : List (String × Json)) (first : Bool) {ts : List Token},
    Apart ts → Follows ts → Apart (memberTokens first members ++ ts)
  | [], _, _, h, _ => h
  | (name, j) :: members, first, ts, h, hf => by
    have hrest := apart_members members false h hf
    have hfollows : Follows (memberTokens false members ++ ts) := by
      cases members with
      | nil => exact hf
      | cons m members => exact fun t ht => by simp [memberTokens] at ht; exact Or.inl ht.symm
    have hj := apart_tokens j hrest hfollows
    rw [memberTokens, List.append_assoc, List.append_assoc, List.append_assoc]
    cases first with
    | true => exact ⟨rfl, trivial, hj⟩
    | false => exact ⟨trivial, rfl, trivial, hj⟩

end

/-- Reading the text of a value gives its tokens, with the numbers as their texts spell them. -/
theorem lex_text (j : Json) : lex j.text = j.tokens.map Token.reread := by
  have h : Apart (j.tokens ++ []) := apart_tokens j trivial fun t ht => by cases ht
  rw [List.append_nil] at h
  exact lex_apart h

end Rulebook.Json
