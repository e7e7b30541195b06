import Rulebook.Fault
import Rulebook.Proofs.Json.Depth
import Rulebook.Proofs.Rule.Comparisons
import Rulebook.Proofs.Rule.Taking

/-!
# Decoding an encoded rule

The text of an encoded rule reads as the tokens of the rule, but for the numbers in it: a number comes
back as what its own text spells. `Rule.reread` is the value that those tokens spell, and decoding it
gives the rule that was encoded exactly if its fields have names and its numbers read back.
-/

namespace Rulebook

open Json (Token Shows)

/-- A number that reads back equal from its own JSON text. -/
def Binary64.ReadsBack (x : Binary64) : Prop :=
  ∃ n, Json.ofText (String.ofList (Layout.json.text x)) = .ok (.number n) ∧ n.toBinary64.same x

/-- A value whose number, if it is one, reads back equal from its own JSON text. -/
def Value.ReadsBack : Value → Prop
  | number x => x.ReadsBack
  | text _ => True

/-- A rule whose fields have names and whose numbers read back. -/
def Rule.IsEncodable (r : Rule) : Prop := r.ForAll fun _ field value => field ≠ "" ∧ value.ReadsBack

/-! ### Whole texts -/

theorem decodeNested_eq_ok {α : Type} {limit : Nat} {read : Json.Reader α} {text : String} {a : α} :
    decodeNested limit read text = .ok a ↔
      Json.nesting text.toList ≤ limit ∧ read (Json.lex text.toList) = .ok (a, []) := by
  unfold decodeNested
  simp only
  split
  · next h =>
    constructor
    · intro ha
      cases ha
    · rintro ⟨hle, -⟩
      omega
  · next h =>
    rw [Outcome.mapError_eq_ok, Json.whole_eq_ok]
    exact ⟨fun ha => ⟨by omega, ha⟩, fun ha => ha.2⟩

/-- Decoding the compact text of a value reads its tokens, with the numbers as their texts spell
them. -/
theorem decodeNested_compact {α : Type} {limit : Nat} {read : Json.Reader α} {j : Json} {a : α} :
    decodeNested limit read j.compact = .ok a ↔
      j.depth ≤ limit ∧ read (j.tokens.map Token.reread) = .ok (a, []) := by
  rw [decodeNested_eq_ok, Json.compact, String.toList_ofList, Json.nesting_text, Json.lex_text]

/-! ### Numbers -/

theorem Json.Number.reread_cases (n : Number) :
    (∃ m, n.reread = .number m) ∨ n.reread = .null := by
  unfold reread
  split
  · exact Or.inl ⟨_, rfl⟩
  · exact Or.inr rfl

theorem Binary64.readsBack_iff {x : Binary64} :
    x.ReadsBack ↔
      ∃ n, (Json.Number.float x).reread = .number (some n) ∧ n.toBinary64.same x := by
  have htext : Json.lex (Layout.json.text x) = [(Json.Number.float x).reread] := by
    have h := Json.lex_text (.number (.float x))
    rwa [Json.text, Json.tokens, List.flatMap_cons, List.flatMap_nil, List.append_nil] at h
  have hread : ∀ n, Json.ofText (String.ofList (Layout.json.text x)) = .ok (.number n) ↔
      (Json.Number.float x).reread = .number (some n) := by
    intro n
    rw [Json.ofText, Json.whole_eq_ok, String.toList_ofList, htext, Json.value_strict_eq_ok,
      Json.tokens]
    constructor
    · rintro ⟨h, -⟩
      exact (List.cons.inj h).1
    · intro h
      exact ⟨by rw [h]; rfl, Nat.zero_le _⟩
  unfold ReadsBack
  simp only [hread]

theorem Binary64.isFinite_of_readsBack {x : Binary64} (h : x.ReadsBack) : x.isFinite := by
  obtain ⟨n, hn, -⟩ := readsBack_iff.1 h
  by_contra hx
  rw [Json.Number.reread_of_not_isFinite hx] at hn
  cases hn

/-! ### What an encoded rule reads as -/

/-- What the JSON of a value reads as. A number that denotes nothing may stand for any. -/
def Value.reread : Value → Json
  | number x =>
    match (Json.Number.float x).reread with
    | .number n => .number (n.getD (.integer 0))
    | _ => .null
  | text s => .string s

/-- What the JSON of a rule reads as. -/
def Rule.reread : Rule → Json
  | comparison c field value => .object [
      ("type", .string Tag.comparison.word),
      ("operator", .string c.symbol),
      ("field", .string field),
      ("value", value.reread)]
  | join c left right => .object [
      ("type", .string Tag.join.word),
      ("operator", .string c.symbol),
      ("left", left.reread),
      ("right", right.reread)]

/-- The tokens of an encoded rule as they are read. -/
def Rule.readTokens (r : Rule) : List Token := r.toJson.tokens.map Token.reread

/-- The tokens of an encoded comparison before its value. -/
def Rule.beforeValue (c : Comparison) (field : String) : List Token :=
  [.openBrace, .string (some "type"), .colon, .string (some Tag.comparison.word), .comma,
    .string (some "operator"), .colon, .string (some c.symbol), .comma,
    .string (some "field"), .colon, .string (some field), .comma, .string (some "value"), .colon]

/-- The tokens of an encoded joined rule before its left side. -/
def Rule.beforeLeft (c : Connective) : List Token :=
  [.openBrace, .string (some "type"), .colon, .string (some Tag.join.word), .comma,
    .string (some "operator"), .colon, .string (some c.symbol), .comma,
    .string (some "left"), .colon]

/-- The tokens between the sides of an encoded joined rule. -/
def Rule.beforeRight : List Token := [.comma, .string (some "right"), .colon]

theorem Rule.readTokens_comparison (c : Comparison) (f : String) (v : Value) :
    (comparison c f v).readTokens =
      beforeValue c f ++ (v.toJson.tokens.map Token.reread ++ [Token.closeBrace]) := by
  simp [readTokens, toJson, Json.tokens, Json.memberTokens, Token.reread, beforeValue]

theorem Rule.readTokens_join (c : Connective) (l r : Rule) :
    (join c l r).readTokens =
      beforeLeft c ++ (l.readTokens ++ (beforeRight ++ (r.readTokens ++ [Token.closeBrace]))) := by
  simp [readTokens, toJson, Json.tokens, Json.memberTokens, Token.reread, beforeLeft, beforeRight]

theorem Rule.tokens_reread_comparison (c : Comparison) (f : String) (v : Value) :
    (comparison c f v).reread.tokens =
      beforeValue c f ++ (v.reread.tokens ++ [Token.closeBrace]) := by
  simp [reread, Json.tokens, Json.memberTokens, beforeValue]

theorem Rule.tokens_reread_join (c : Connective) (l r : Rule) :
    (join c l r).reread.tokens =
      beforeLeft c ++
        (l.reread.tokens ++ (beforeRight ++ (r.reread.tokens ++ [Token.closeBrace]))) := by
  simp [reread, Json.tokens, Json.memberTokens, beforeLeft, beforeRight]

theorem Value.shows_reread (v : Value) :
    Shows Json.Grade.loose (v.toJson.tokens.map Token.reread) v.reread.tokens := by
  cases v with
  | text s => rfl
  | number x =>
    have htokens : (number x).toJson.tokens.map Token.reread = [(Json.Number.float x).reread] := rfl
    rw [htokens, reread]
    rcases (Json.Number.float x).reread_cases with ⟨n, hn⟩ | hn <;> rw [hn] <;> rfl

/-- A loose reader sees in the tokens of an encoded rule what they read as. -/
theorem Rule.shows_reread (r : Rule) : Shows Json.Grade.loose r.readTokens r.reread.tokens := by
  induction r with
  | comparison c f v =>
    have hv := v.shows_reread
    unfold Shows at hv ⊢
    rw [readTokens_comparison, tokens_reread_comparison, List.map_append, List.map_append, hv]
    rfl
  | join c l r ihl ihr =>
    unfold Shows at ihl ihr ⊢
    rw [readTokens_join, tokens_reread_join, List.map_append, List.map_append, List.map_append,
      List.map_append, ihl, ihr]
    rfl

/-- If every number denotes something, the tokens are those of the value they read as. -/
theorem Rule.readTokens_eq {r : Rule} (h : ∀ t ∈ r.readTokens, t ≠ .number none) :
    r.readTokens = r.reread.tokens := by
  induction r with
  | comparison c f v =>
    rw [readTokens_comparison] at h ⊢
    rw [tokens_reread_comparison]
    congr 2
    cases v with
    | text s => rfl
    | number x =>
      have hx := h (Json.Number.float x).reread (by simp [Value.toJson, Json.tokens, Token.reread])
      have htokens : (Value.number x).toJson.tokens.map Token.reread =
        [(Json.Number.float x).reread] := rfl
      rw [htokens, Value.reread]
      rcases (Json.Number.float x).reread_cases with ⟨n, hn⟩ | hn
      · rw [hn] at hx ⊢
        cases n with
        | none => exact absurd rfl hx
        | some n => rfl
      · rw [hn]
        rfl
  | join c l r ihl ihr =>
    rw [readTokens_join] at h ⊢
    rw [tokens_reread_join, ihl fun t ht => h t (by simp [ht]), ihr fun t ht => h t (by simp [ht])]

theorem Rule.take_readTokens {r m : Rule} {rest rest' : List Token} :
    take (r.readTokens ++ rest) = .ok (m, rest') ↔
      rest' = rest ∧ (∀ t ∈ r.readTokens, t ≠ .number none) ∧ decodeValue false r.reread = .ok m := by
  rw [take_eq_ok]
  constructor
  · rintro ⟨j, htokens, hm⟩
    obtain ⟨rfl, htaken, rfl⟩ :=
      Json.shows_append_inj r.shows_reread (Json.shows_loose_self j) htokens
    refine ⟨rfl, fun t ht => ?_, hm⟩
    -- the tokens are those of a value, and each of them denotes something
    rw [htaken] at ht
    rintro rfl
    exact Bool.false_ne_true (Json.denotes_of_mem_tokens ht)
  · rintro ⟨rfl, hd, hm⟩
    exact ⟨r.reread, by rw [readTokens_eq hd], hm⟩

/-! ### Decoding what an encoded rule reads as -/

/-- The value that a value reads as is the same exactly if it reads back. -/
theorem Value.same_reread_iff (v : Value) :
    (∀ t ∈ v.toJson.tokens.map Token.reread, t ≠ .number none) ∧
        (∃ w, Rule.valuePart v.reread = .ok w ∧ w.same v) ↔ v.ReadsBack := by
  cases v with
  | text s =>
    refine ⟨fun _ => trivial, fun _ => ⟨fun t ht => ?_, text s, rfl, Value.same_text.2 rfl⟩⟩
    rw [List.mem_singleton.1 ht]
    exact Token.noConfusion
  | number x =>
    have htokens : (number x).toJson.tokens.map Token.reread = [(Json.Number.float x).reread] := rfl
    rw [htokens, ReadsBack, Binary64.readsBack_iff, reread]
    simp only [List.mem_singleton, forall_eq]
    rcases (Json.Number.float x).reread_cases with ⟨n, hn⟩ | hn
    · rw [hn]
      cases n with
      | none =>
        refine ⟨fun h => absurd rfl h.1, ?_⟩
        rintro ⟨m, hm, -⟩
        cases hm
      | some n =>
        constructor
        · rintro ⟨-, w, hw, hsame⟩
          cases hw
          obtain ⟨y, hy, hxy⟩ := Value.same_number.1 hsame
          cases hy
          exact ⟨n, rfl, hxy⟩
        · rintro ⟨m, hm, hsame⟩
          cases hm
          exact ⟨by simp, number n.toBinary64, rfl, Value.same_number.2 ⟨x, rfl, hsame⟩⟩
    · rw [hn]
      constructor
      · rintro ⟨-, w, hw, -⟩
        cases hw
      · rintro ⟨m, hm, -⟩
        cases hm

namespace Rule

theorem comparisonPart_symbol (c : Comparison) : comparisonPart (.string c.symbol) = .ok c := by
  cases c <;> rfl

theorem connectivePart_symbol (c : Connective) : connectivePart (.string c.symbol) = .ok c := by
  cases c <;> rfl

theorem fieldPart_eq_ok {f g : String} : fieldPart (.string f) = .ok g ↔ f ≠ "" ∧ g = f := by
  rw [fieldPart]
  split
  · next h =>
    rw [String.isEmpty_iff] at h
    constructor
    · intro hg
      cases hg
    · rintro ⟨hne, -⟩
      exact absurd h hne
  · next h =>
    rw [String.isEmpty_iff] at h
    constructor
    · intro hg
      cases hg
      exact ⟨h, rfl⟩
    · rintro ⟨-, rfl⟩
      rfl

theorem decodeValue_reread_comparison (inside : Bool) (c : Comparison) (f : String) (v : Value) :
    decodeValue inside (comparison c f v).reread = (do
      let field ← fieldPart (.string f)
      let value ← valuePart v.reread
      return .comparison c field value) := by
  have hmembers : decodeValue inside (comparison c f v).reread =
      comparisonOfMembers {} [("operator", .string c.symbol), ("field", .string f),
        ("value", v.reread)] := by
    rw [reread, decodeValue]
    rfl
  rw [hmembers]
  simp only [comparisonOfMembers, ComparisonParts.add, comparisonPart_symbol]
  cases fieldPart (.string f) with
  | error e => rfl
  | ok field =>
    cases valuePart v.reread with
    | error e => rfl
    | ok value => rfl

theorem decodeValue_reread_join (inside : Bool) (c : Connective) (l r : Rule) :
    decodeValue inside (join c l r).reread = (do
      let left ← decodeValue true l.reread
      let right ← decodeValue true r.reread
      return .join c left right) := by
  have hmembers : decodeValue inside (join c l r).reread =
      joinOfMembers {} [("operator", .string c.symbol), ("left", l.reread),
        ("right", r.reread)] := by
    rw [reread, decodeValue, ← joinOfMembers_parts]
    rfl
  rw [hmembers]
  simp only [joinOfMembers, connectivePart_symbol, if_true]
  cases decodeValue true l.reread with
  | error e => rfl
  | ok left =>
    cases decodeValue true r.reread with
    | error e => rfl
    | ok right => rfl

theorem decodeValue_reread_comparison_eq_ok {inside : Bool} {c : Comparison} {f : String}
    {v : Value} {m : Rule} :
    decodeValue inside (comparison c f v).reread = .ok m ↔
      f ≠ "" ∧ ∃ w, valuePart v.reread = .ok w ∧ m = comparison c f w := by
  simp only [decodeValue_reread_comparison, Outcome.bind_eq_ok, fieldPart_eq_ok]
  constructor
  · rintro ⟨g, ⟨hf, rfl⟩, w, hw, hm⟩
    cases hm
    exact ⟨hf, w, hw, rfl⟩
  · rintro ⟨hf, w, hw, rfl⟩
    exact ⟨f, ⟨hf, rfl⟩, w, hw, rfl⟩

theorem decodeValue_reread_join_eq_ok {inside : Bool} {c : Connective} {l r m : Rule} :
    decodeValue inside (join c l r).reread = .ok m ↔
      ∃ l' r', decodeValue true l.reread = .ok l' ∧ decodeValue true r.reread = .ok r' ∧
        m = join c l' r' := by
  simp only [decodeValue_reread_join, Outcome.bind_eq_ok]
  constructor
  · rintro ⟨l', hl, r', hr, hm⟩
    cases hm
    exact ⟨l', r', hl, hr, rfl⟩
  · rintro ⟨l', r', hl, hr, rfl⟩
    exact ⟨l', hl, r', hr, rfl⟩

/-- What an encoded rule reads as decodes to the same rule exactly if the rule is encodable. -/
theorem same_reread_iff (r : Rule) (inside : Bool) :
    (∀ t ∈ r.readTokens, t ≠ .number none) ∧
        (∃ m, decodeValue inside r.reread = .ok m ∧ m.same r) ↔ r.IsEncodable := by
  -- the sides of a joined rule are decoded inside it, so `inside` changes on the way down
  induction r generalizing inside with
  | comparison c f v =>
    have hv := v.same_reread_iff
    have hbefore : ∀ t ∈ beforeValue c f, t ≠ .number none := by simp [beforeValue]
    rw [IsEncodable, ForAll, ← hv, readTokens_comparison]
    simp only [List.forall_mem_append, List.forall_mem_singleton, decodeValue_reread_comparison_eq_ok]
    constructor
    · rintro ⟨⟨-, ht, -⟩, m, ⟨hf, w, hw, rfl⟩, hsame⟩
      obtain ⟨u, hu, hwv⟩ := same_comparison.1 hsame
      cases hu
      exact ⟨hf, ht, w, hw, hwv⟩
    · rintro ⟨hf, ht, w, hw, hwv⟩
      exact ⟨⟨hbefore, ht, Token.noConfusion⟩, _, ⟨hf, w, hw, rfl⟩, same_comparison.2 ⟨v, rfl, hwv⟩⟩
  | join c l r ihl ihr =>
    have hbefore : ∀ t ∈ beforeLeft c, t ≠ .number none := by simp [beforeLeft]
    have hbetween : ∀ t ∈ beforeRight, t ≠ .number none := by simp [beforeRight]
    have hall : (join c l r).IsEncodable ↔ l.IsEncodable ∧ r.IsEncodable := Iff.rfl
    rw [hall, ← ihl true, ← ihr true, readTokens_join]
    simp only [List.forall_mem_append, List.forall_mem_singleton, decodeValue_reread_join_eq_ok]
    constructor
    · rintro ⟨⟨-, hl, -, hr, -⟩, m, ⟨l', r', hl', hr', rfl⟩, hsame⟩
      obtain ⟨d, e, he, hsl, hsr⟩ := same_join.1 hsame
      cases he
      exact ⟨⟨hl, l', hl', hsl⟩, hr, r', hr', hsr⟩
    · rintro ⟨⟨hl, l', hl', hsl⟩, hr, r', hr', hsr⟩
      exact ⟨⟨hbefore, hl, hbetween, hr, Token.noConfusion⟩, _, ⟨l', r', hl', hr', rfl⟩,
        same_join.2 ⟨l, r, rfl, hsl, hsr⟩⟩

theorem take_same_iff (r : Rule) (rest : List Token) :
    (∃ m rest', take (r.readTokens ++ rest) = .ok (m, rest') ∧ m.same r) ↔ r.IsEncodable := by
  rw [← same_reread_iff r false]
  simp only [take_readTokens]
  constructor
  · rintro ⟨m, rest', ⟨-, hd, hm⟩, hsame⟩
    exact ⟨hd, m, hm, hsame⟩
  · rintro ⟨hd, m, hm, hsame⟩
    exact ⟨m, rest, ⟨rfl, hd, hm⟩, hsame⟩

theorem depth_toJson (r : Rule) : r.toJson.depth = r.depth := by
  induction r with
  | comparison c f v =>
    have hv : v.toJson.depth = 0 := by cases v <;> rfl
    simp [toJson, Json.depth, Json.depthOfMembers, hv, depth]
  | join c l r ihl ihr =>
    simp [toJson, Json.depth, Json.depthOfMembers, ihl, ihr, depth]

theorem load_eq_ok {r : Rule} {text : String} : load text = .ok r ↔ decode text = .ok r :=
  Outcome.mapError_eq_ok

theorem load_encode_same (r : Rule) :
    (∃ m, load r.encode = .ok m ∧ m.same r) ↔ r.IsEncodable ∧ r.depth ≤ greatestDepth := by
  have htokens : r.toJson.tokens.map Token.reread = r.readTokens ++ [] := by
    rw [List.append_nil, readTokens]
  simp only [load_eq_ok, decode, encode, decodeNested_compact, htokens, depth_toJson]
  rw [← take_same_iff r []]
  constructor
  · rintro ⟨m, ⟨hdepth, hm⟩, hs⟩
    exact ⟨⟨m, [], hm, hs⟩, hdepth⟩
  · rintro ⟨⟨m, rest, hm, hs⟩, hdepth⟩
    obtain ⟨rfl, -⟩ := take_readTokens.1 hm
    exact ⟨m, ⟨hdepth, hm⟩, hs⟩

end Rule

end Rulebook
