import Rulebook.Entry.Identifier

/-!
# Identifiers read back

The text of an identifier spells the identifier: its hexadecimal digits name its number, and taking
the hyphens out undoes putting them in.
-/

namespace Rulebook

theorem Hexadecimal.digit?_digitChar {d : Nat} (h : d < 16) :
    digit? d.digitChar = some d ∧ d.digitChar ≠ '-' := by
  have hall : ∀ n < 16, digit? n.digitChar = some n ∧ n.digitChar ≠ '-' := by decide
  exact hall d h

theorem Hexadecimal.read?_append {cs : List Char} {c : Char} {n d : Nat} (hn : read? cs = some n)
    (hd : digit? c = some d) : read? (cs ++ [c]) = some (16 * n + d) := by
  simp only [read?, Option.map_eq_some_iff] at hn
  obtain ⟨values, hvalues, rfl⟩ := hn
  have happend : (cs ++ [c]).mapM digit? = some (values ++ [d]) := by
    rw [List.mapM_append, hvalues]
    simp [hd]
  rw [read?, happend, Option.map_some, List.foldl_append]
  rfl

namespace Identifier

theorem read?_lastDigits (width n : Nat) :
    Hexadecimal.read? (lastDigits width n) = some (n % Nat.pow 16 width) := by
  induction width generalizing n with
  | zero =>
    rw [show Nat.pow 16 0 = 1 from rfl, Nat.mod_one]
    rfl
  | succ width ih =>
    have hd := (Hexadecimal.digit?_digitChar (Nat.mod_lt n (by decide : 0 < 16))).1
    have hpow : Nat.pow 16 (width + 1) = 16 * Nat.pow 16 width := Nat.mul_comm _ _
    rw [lastDigits, Hexadecimal.read?_append (ih (n / 16)) hd, hpow, Nat.mod_mul, Nat.add_comm]

theorem length_lastDigits (width n : Nat) : (lastDigits width n).length = width := by
  induction width generalizing n with
  | zero => rfl
  | succ width ih => rw [lastDigits, List.length_append, ih, List.length_singleton]

theorem ne_hyphen_of_mem_lastDigits {width n : Nat} {c : Char} (h : c ∈ lastDigits width n) :
    c ≠ '-' := by
  induction width generalizing n with
  | zero => cases h
  | succ width ih =>
    rw [lastDigits, List.mem_append, List.mem_singleton] at h
    rcases h with h | rfl
    · exact ih h
    · exact (Hexadecimal.digit?_digitChar (Nat.mod_lt n (by decide))).2

theorem ofDigits?_digits (i : Identifier) : ofDigits? i.digits = some i := by
  have hlt : i.number.toNat < Nat.pow 16 32 := i.number.isLt
  have hlen : i.digits.length = 32 := length_lastDigits _ _
  rw [ofDigits?, if_pos hlen, digits, read?_lastDigits, Nat.mod_eq_of_lt hlt, Option.map_some,
    BitVec.ofNat_toNat, BitVec.setWidth_eq]

theorem filter_hyphenate {cs : List Char} (h : ∀ c ∈ cs, c ≠ '-') :
    (hyphenate cs).filter (· ≠ '-') = cs := by
  have hkeep : ∀ ds : List Char, ds.Sublist cs → ds.filter (· ≠ '-') = ds := by
    intro ds hds
    rw [List.filter_eq_self]
    intro c hc
    simpa using h c (hds.subset hc)
  have hmark : ∀ ds : List Char, ('-' :: ds).filter (· ≠ '-') = ds.filter (· ≠ '-') :=
    fun ds => rfl
  have htake : ∀ n, ((cs.drop n).take 4).Sublist cs :=
    fun n => (List.take_sublist _ _).trans (List.drop_sublist _ _)
  rw [hyphenate, List.filter_append, hmark, List.filter_append, hmark, List.filter_append, hmark,
    List.filter_append, hmark, hkeep _ (List.take_sublist _ _), hkeep _ (htake 8),
    hkeep _ (htake 12), hkeep _ (htake 16), hkeep _ (List.drop_sublist _ _)]
  have h₁ : cs.drop 20 = (cs.drop 16).drop 4 := by rw [List.drop_drop]
  have h₂ : cs.drop 16 = (cs.drop 12).drop 4 := by rw [List.drop_drop]
  have h₃ : cs.drop 12 = (cs.drop 8).drop 4 := by rw [List.drop_drop]
  rw [h₁, List.take_append_drop, h₂, List.take_append_drop, h₃, List.take_append_drop,
    List.take_append_drop]

theorem length_hyphenate {cs : List Char} (h : cs.length = 32) : (hyphenate cs).length = 36 := by
  simp [hyphenate, h]

theorem ofChars?_text (i : Identifier) : ofChars? i.text.toList = some i := by
  have hlen : (hyphenate i.digits).length = 36 := length_hyphenate (length_lastDigits _ _)
  have hfilter : (hyphenate i.digits).filter (· ≠ '-') = i.digits :=
    filter_hyphenate fun c hc => ne_hyphen_of_mem_lastDigits hc
  have hun : unhyphenate? (hyphenate i.digits) = some i.digits := by
    rw [unhyphenate?, hfilter, if_pos rfl]
  rw [text, String.toList_ofList, ofChars?, hlen]
  show ofHyphenated? _ = _
  rw [ofHyphenated?, hun, Option.bind_some, ofDigits?_digits]

/-! ### The usual form -/

/-- The usual form of an identifier: groups of 8, 4, 4, 4 and 12 hexadecimal digits in small letters,
with hyphens between the groups. -/
def IsHyphenated (cs : List Char) : Prop :=
  ∃ groups : List (List Char), groups.map List.length = [8, 4, 4, 4, 12] ∧
    (∀ group ∈ groups, ∀ c ∈ group, c ∈ "0123456789abcdef".toList) ∧ cs = ['-'].intercalate groups

theorem mem_smallDigits_of_mem_lastDigits {width n : Nat} {c : Char} (h : c ∈ lastDigits width n) :
    c ∈ "0123456789abcdef".toList := by
  have hall : ∀ d < 16, d.digitChar ∈ "0123456789abcdef".toList := by decide
  induction width generalizing n with
  | zero => cases h
  | succ width ih =>
    rw [lastDigits, List.mem_append, List.mem_singleton] at h
    rcases h with h | rfl
    · exact ih h
    · exact hall _ (Nat.mod_lt n (by decide))

theorem isHyphenated_text (i : Identifier) : IsHyphenated i.text.toList := by
  have hlen : i.digits.length = 32 := length_lastDigits _ _
  have hdigits : ∀ c ∈ i.digits, c ∈ "0123456789abcdef".toList := fun _ =>
    mem_smallDigits_of_mem_lastDigits
  refine ⟨[i.digits.take 8, (i.digits.drop 8).take 4, (i.digits.drop 12).take 4,
    (i.digits.drop 16).take 4, i.digits.drop 20], by simp [hlen], ?_, ?_⟩
  · simp only [List.forall_mem_cons, List.not_mem_nil, false_imp_iff, implies_true, and_true]
    exact ⟨fun c hc => hdigits c (List.mem_of_mem_take hc),
      fun c hc => hdigits c (List.mem_of_mem_drop (List.mem_of_mem_take hc)),
      fun c hc => hdigits c (List.mem_of_mem_drop (List.mem_of_mem_take hc)),
      fun c hc => hdigits c (List.mem_of_mem_drop (List.mem_of_mem_take hc)),
      fun c hc => hdigits c (List.mem_of_mem_drop hc)⟩
  · rw [text, String.toList_ofList, hyphenate]
    simp [List.intercalate_cons_cons]

end Identifier

end Rulebook
