import Rulebook.Json.Nesting
import Rulebook.Proofs.Json.Printing

/-!
# The nesting of printed text

A scan of brackets goes over the text of a value and finds as many open at once as containers of the
value are nested (`nesting_text`): it passes over strings whatever they hold, and no other token but a
bracket has a bracket in it.
-/

namespace Rulebook.Json

/-- A scan between tokens. -/
def between (opened deepest : Nat) : Scan := ⟨.outside, opened, deepest⟩

/-- A scan inside a string. -/
def inside (opened deepest : Nat) : Scan := ⟨.quotes, opened, deepest⟩

variable {opened deepest : Nat}

theorem step_inside {c : Char} (hq : c ≠ '"') (hb : c ≠ '\\') :
    (inside opened deepest).step c = inside opened deepest := by
  simp [inside, Scan.step, hq, hb]

theorem foldl_escapeChar (c : Char) :
    (escapeChar c).foldl Scan.step (inside opened deepest) = inside opened deepest := by
  rcases escapeChar_cases c with ⟨x, he, -, -⟩ | ⟨hc, he⟩ | ⟨he, hq, hb, -⟩
  · rw [he]
    rfl
  · have hdigit : ∀ n < 16, n.digitChar ≠ '"' ∧ n.digitChar ≠ '\\' := by decide
    obtain ⟨hq₁, hb₁⟩ := hdigit (c.toNat / 16) (by omega)
    obtain ⟨hq₂, hb₂⟩ := hdigit (c.toNat % 16) (by omega)
    have hstart : ['\\', 'u', '0', '0'].foldl Scan.step (inside opened deepest) =
        inside opened deepest := rfl
    rw [he, show ['\\', 'u', '0', '0', (c.toNat / 16).digitChar, (c.toNat % 16).digitChar] =
      ['\\', 'u', '0', '0'] ++ [(c.toNat / 16).digitChar, (c.toNat % 16).digitChar] from rfl,
      List.foldl_append, hstart, List.foldl_cons, step_inside hq₁ hb₁, List.foldl_cons,
      step_inside hq₂ hb₂, List.foldl_nil]
  · rw [he, List.foldl_cons, step_inside hq hb, List.foldl_nil]

theorem foldl_quote (cs : List Char) :
    (quote cs).foldl Scan.step (between opened deepest) = between opened deepest := by
  have hcontent : (cs.flatMap escapeChar).foldl Scan.step (inside opened deepest) =
      inside opened deepest := by
    induction cs with
    | nil => rfl
    | cons c cs ih => rw [List.flatMap_cons, List.foldl_append, foldl_escapeChar, ih]
  have hopen : (between opened deepest).step '"' = inside opened deepest := rfl
  rw [quote, List.foldl_cons, hopen, List.foldl_append, hcontent]
  rfl

/-- Characters that are no quotation marks and no brackets leave a scan where it is. -/
def isPlain (c : Char) : Bool :=
  !(c = '"' || c = '{' || c = '[' || c = '}' || c = ']')

theorem foldl_plain {cs : List Char} (h : cs.all isPlain) :
    cs.foldl Scan.step (between opened deepest) = between opened deepest := by
  induction cs with
  | nil => rfl
  | cons c cs ih =>
    rw [List.all_cons, Bool.and_eq_true] at h
    have hstep : (between opened deepest).step c = between opened deepest := by
      have hc := h.1
      simp only [isPlain, Bool.not_eq_true', Bool.or_eq_false_iff, decide_eq_false_iff_not] at hc
      simp [between, Scan.step, hc]
    rw [List.foldl_cons, hstep, ih h.2]

theorem isPlain_of_isSpellingChar {c : Char} (h : Spelling.isSpellingChar c) : isPlain c := by
  simp only [isPlain, Bool.not_eq_true', Bool.or_eq_false_iff, decide_eq_false_iff_not]
  refine ⟨⟨⟨⟨?_, ?_⟩, ?_⟩, ?_⟩, ?_⟩ <;> (rintro rfl; exact absurd h (by decide))

theorem Number.all_isPlain_text (n : Number) : n.text.all isPlain := by
  have hspelled : ∀ s : Spelling, s.IsValid → n.text = s.chars → n.text.all isPlain := by
    intro s hs ht
    rw [ht, List.all_eq_true]
    intro c hc
    exact isPlain_of_isSpellingChar (List.all_eq_true.1 (Spelling.all_isSpellingChar hs) c hc)
  cases n with
  | integer i =>
    obtain ⟨s, hs, ht⟩ := exists_spelling_integer i
    exact hspelled s hs ht
  | float x =>
    by_cases hx : x.isFinite
    · obtain ⟨s, hs, ht⟩ := exists_spelling_float hx
      exact hspelled s hs ht
    · rw [Number.text_of_not_isFinite hx]
      decide

theorem between_scalar {j : Json} (hj : j.depth = 0) (h : opened ≤ deepest) :
    between opened (max deepest (opened + j.depth)) = between opened deepest := by
  rw [hj, Nat.add_zero, Nat.max_eq_left h]

mutual

theorem foldl_tokens : ∀ (j : Json) {opened deepest : Nat}, opened ≤ deepest →
    (j.tokens.flatMap Token.text).foldl Scan.step (between opened deepest) =
      between opened (max deepest (opened + j.depth))
  | null, opened, deepest, h => by
    rw [between_scalar rfl h]
    rfl
  | boolean b, opened, deepest, h => by
    rw [between_scalar rfl h]
    cases b <;> rfl
  | number n, opened, deepest, h => by
    have htext : (tokens (number n)).flatMap Token.text = n.text := List.append_nil _
    rw [between_scalar rfl h, htext, foldl_plain n.all_isPlain_text]
  | string s, opened, deepest, h => by
    have htext : (tokens (string s)).flatMap Token.text = quote s.toList := List.append_nil _
    rw [between_scalar rfl h, htext, foldl_quote]
  | array items, opened, deepest, h => by
    -- between the brackets one more container is open than around them
    have hopen : (between opened deepest).step '[' =
        between (opened + 1) (max deepest (opened + 1)) := rfl
    have htext : (tokens (array items)).flatMap Token.text =
        '[' :: ((itemTokens true items).flatMap Token.text ++ [']']) := by
      simp [tokens, Token.text]
    rw [htext, List.foldl_cons, hopen, List.foldl_append,
      foldl_items items true (Nat.le_max_right _ _)]
    have hclose : ∀ d, [']'].foldl Scan.step (between (opened + 1) d) = between opened d :=
      fun _ => rfl
    rw [hclose, depth]
    congr 1
    omega
  | object members, opened, deepest, h => by
    have hopen : (between opened deepest).step '{' =
        between (opened + 1) (max deepest (opened + 1)) := rfl
    have htext : (tokens (object members)).flatMap Token.text =
        '{' :: ((memberTokens true members).flatMap Token.text ++ ['}']) := by
      simp [tokens, Token.text]
    rw [htext, List.foldl_cons, hopen, List.foldl_append,
      foldl_members members true (Nat.le_max_right _ _)]
    have hclose : ∀ d, ['}'].foldl Scan.step (between (opened + 1) d) = between opened d :=
      fun _ => rfl
    rw [hclose, depth]
    congr 1
    omega

theorem foldl_items : ∀ (items : List Json) (first : Bool) {opened deepest : Nat},
    opened ≤ deepest →
    ((itemTokens first items).flatMap Token.text).foldl Scan.step (between opened deepest) =
      between opened (max deepest (opened + depthOfItems items))
  | [], first, opened, deepest, h => by
    rw [depthOfItems, Nat.add_zero, Nat.max_eq_left h]
    rfl
  | j :: items, first, opened, deepest, h => by
    have hcomma : ((if first then [] else [Token.comma]).flatMap Token.text).foldl Scan.step
        (between opened deepest) = between opened deepest := by
      cases first <;> rfl
    rw [itemTokens, List.flatMap_append, List.flatMap_append, List.foldl_append, List.foldl_append,
      hcomma, foldl_tokens j h, foldl_items items false (by omega), depthOfItems]
    congr 1
    omega

theorem foldl_members : ∀ (members : List (String × Json)) (first : Bool) {opened deepest : Nat},
    opened ≤ deepest →
    ((memberTokens first members).flatMap Token.text).foldl Scan.step (between opened deepest) =
      between opened (max deepest (opened + depthOfMembers members))
  | [], first, opened, deepest, h => by
    rw [depthOfMembers, Nat.add_zero, Nat.max_eq_left h]
    rfl
  | (name, j) :: members, first, opened, deepest, h => by
    have hcomma : ((if first then [] else [Token.comma]).flatMap Token.text).foldl Scan.step
        (between opened deepest) = between opened deepest := by
      cases first <;> rfl
    have hname : ([Token.string (some name), .colon].flatMap Token.text).foldl Scan.step
        (between opened deepest) = between opened deepest := by
      have htext : [Token.string (some name), .colon].flatMap Token.text =
          quote name.toList ++ [':'] := by simp [Token.text]
      rw [htext, List.foldl_append, foldl_quote]
      rfl
    rw [memberTokens, List.flatMap_append, List.flatMap_append, List.flatMap_append,
      List.foldl_append, List.foldl_append, List.foldl_append, hcomma, hname, foldl_tokens j h,
      foldl_members members false (by omega), depthOfMembers]
    congr 1
    omega

end

/-- The nesting of the text of a value is the nesting of its containers. -/
theorem nesting_text (j : Json) : nesting j.text = j.depth := by
  have h := foldl_tokens j (Nat.le_refl 0)
  unfold nesting
  rw [text, show ({} : Scan) = between 0 0 from rfl, h]
  show max 0 (0 + j.depth) = j.depth
  omega

end Rulebook.Json
