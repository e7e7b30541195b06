import Rulebook.Fault
import Rulebook.Proofs.Json.Containers
import Rulebook.Proofs.Rule.Encoded
import Rulebook.Proofs.Rule.Parts

/-!
# Texts of joined rules

The text of a joined rule stands around the texts of its sides, and is decoded to the join of what they
are decoded to inside another rule (`SpellsJoin.load_eq_ok_iff`). That is what they are decoded to on
their own (`load_spellsJoin`), except that a side may give its type by a number and a text on its own may
not: inside another rule the numbers 0 and 1 are accepted for the types (`load_numbered_side`).
-/

namespace Rulebook

open Json (Complaint Grade MemberText Padded Readable Shows arrayText lex nesting objectText)

/-! ### Values of joined rules -/

namespace Rule

/-- How a connective stands in an encoded rule: by its symbol, or as the name of the only member of an
object, with nothing for its value. -/
inductive SpellsConnective (c : Connective) : Json → Prop
  | symbol : SpellsConnective c (.string c.symbol)
  | null : SpellsConnective c (.object [(c.symbol, .null)])
  | empty : SpellsConnective c (.object [(c.symbol, .object [])])

theorem SpellsConnective.connectivePart_eq {c : Connective} {j : Json} (h : SpellsConnective c j) :
    connectivePart j = .ok c := by
  cases h <;> cases c <;> rfl

/-- The parts of a value are those of a joined rule with these sides. -/
structure HasJoinParts (c : Connective) (left right j : Json) : Prop where
  type : j.HasPart 0 "type" (.string Tag.join.word)
  operator : ∃ part, SpellsConnective c part ∧ j.HasPart 1 "operator" part
  left : j.HasPart 2 "left" left
  right : j.HasPart 3 "right" right

variable {c : Connective} {left right j : Json} {r : Rule}

theorem HasJoinParts.decodeValue_eq_ok {inside : Bool} (h : HasJoinParts c left right j) :
    decodeValue inside j = .ok r ↔ ∃ a b, r = .join c a b ∧ decodeValue true left = .ok a ∧
      decodeValue true right = .ok b := by
  obtain ⟨part, hc, hpart⟩ := h.operator
  rw [Rule.decodeValue_eq_ok]
  cases r with
  | comparison d f v =>
    rw [HasParts, h.type.readsPart_iff]
    constructor
    · rintro ⟨htag, -⟩
      cases htag
    · rintro ⟨a, b, hr, -⟩
      cases hr
  | join d a b =>
    rw [HasParts, h.type.readsPart_iff, hpart.readsPart_iff, h.left.readsPart_iff,
      h.right.readsPart_iff, hc.connectivePart_eq]
    constructor
    · rintro ⟨-, hd, ha, hb⟩
      cases hd
      exact ⟨a, b, rfl, ha, hb⟩
    · rintro ⟨a', b', hr, ha, hb⟩
      cases hr
      exact ⟨rfl, rfl, ha, hb⟩

/-- The members of a joined rule, in whatever order they stand. -/
theorem hasJoinParts_of_perm {part : Json} (hc : SpellsConnective c part)
    {members others : List (String × Json)}
    (hothers : ∀ m ∈ others, m.1 ∉ ["type", "operator", "left", "right"])
    (hperm : members.Perm (("type", .string Tag.join.word) :: ("operator", part) :: ("left", left) ::
      ("right", right) :: others)) : HasJoinParts c left right (.object members) := by
  have hnone : ∀ name ∈ ["type", "operator", "left", "right"],
      others.filter (fun m => m.1 = name) = [] := by
    intro name hname
    rw [List.filter_eq_nil_iff]
    intro m hm hsame
    exact hothers m hm (of_decide_eq_true hsame ▸ hname)
  have htype := hnone "type" (by decide)
  have hoperator := hnone "operator" (by decide)
  have hleft := hnone "left" (by decide)
  have hright := hnone "right" (by decide)
  refine ⟨Json.hasPart_of_perm hperm ?_, ⟨part, hc, Json.hasPart_of_perm hperm ?_⟩,
    Json.hasPart_of_perm hperm ?_, Json.hasPart_of_perm hperm ?_⟩
  · simp [Json.HasPart, Json.HasMember, htype]
  · simp [Json.HasPart, Json.HasMember, hoperator]
  · simp [Json.HasPart, Json.HasMember, hleft]
  · simp [Json.HasPart, Json.HasMember, hright]

theorem hasJoinParts_array {part : Json} (hc : SpellsConnective c part) :
    HasJoinParts c left right (.array [.string Tag.join.word, part, left, right]) :=
  ⟨⟨rfl, rfl⟩, ⟨part, hc, rfl, rfl⟩, ⟨rfl, rfl⟩, ⟨rfl, rfl⟩⟩

/-! ### Inside and on its own -/

/-- The type of a rule is given by a number that stands for one. -/
def IsNumbered (j : Json) : Prop :=
  ∃ i : Int, (i = 0 ∨ i = 1) ∧ j.HasPart 0 "type" (.number (.integer i))

theorem Tag.ofGlimpse_inside {g : Json.Glimpse} {tag : Tag}
    (h : ∀ i : Int, i = 0 ∨ i = 1 → g ≠ .integer i) :
    ofGlimpse true g = .ok tag ↔ ofGlimpse false g = .ok tag := by
  cases g with
  | integer i =>
    have hi : i ≠ 0 ∧ i ≠ 1 := ⟨fun hi => h i (Or.inl hi) rfl, fun hi => h i (Or.inr hi) rfl⟩
    have hfalse : ofGlimpse false (.integer i) ≠ .ok tag := by simp [ofGlimpse]
    have htrue : ofGlimpse true (.integer i) ≠ .ok tag := by
      simp only [ofGlimpse, hi.1, hi.2, if_false]
      split <;> simp
    exact iff_of_false htrue hfalse
  | _ => exact Iff.rfl

theorem glimpse_eq_integer {i : Int} : j.glimpse = .integer i ↔ j = .number (.integer i) := by
  cases j with
  | number n => cases n <;> simp [Json.glimpse, Json.Number.glimpse]
  | _ => simp [Json.glimpse]

/-- A rule is decoded inside another one as on its own, unless its type is given by a number. -/
theorem decodeValue_inside (h : ¬ IsNumbered j) :
    decodeValue true j = .ok r ↔ decodeValue false j = .ok r := by
  have htag : ∀ tag : Tag, j.ReadsPart 0 "type" (fun t => Tag.ofGlimpse true t.glimpse) tag ↔
      j.ReadsPart 0 "type" (fun t => Tag.ofGlimpse false t.glimpse) tag := by
    refine fun tag => exists_congr fun part => and_congr_right fun hpart => ?_
    refine Tag.ofGlimpse_inside fun i hi hglimpse => h ⟨i, hi, ?_⟩
    rwa [← glimpse_eq_integer.1 hglimpse]
  rw [decodeValue_eq_ok, decodeValue_eq_ok]
  cases r with
  | comparison c f v => exact and_congr_left fun _ => htag _
  | join c l r => exact and_congr_left fun _ => htag _

/-! ### Texts -/

/-- A text that has the lexical form of one value. -/
def IsValueText (cs : List Char) : Prop := ∃ j : Json, Shows Grade.loose (lex cs) j.tokens

/-- A text of a rule whose type is given by a number. -/
def IsNumberedText (cs : List Char) : Prop := ∃ j : Json, lex cs = j.tokens ∧ IsNumbered j

/-- The texts of the parts of a joined rule: its type, its connective, and the texts of its sides with
white space around them. -/
structure PartTexts (c : Connective) (l r type operator left right : List Char) : Prop where
  type : lex type = (Json.string Tag.join.word).tokens
  operator : ∃ j, SpellsConnective c j ∧ lex operator = j.tokens
  left : Padded l left
  right : Padded r right

/-- The text of a member that is no part of a joined rule. -/
def OtherMemberText (member : List Char) : Prop :=
  ∃ name value, name ∉ ["type", "operator", "left", "right"] ∧ MemberText name value member ∧
    ∃ j : Json, lex value = j.tokens

/-- A text of a joined rule around the texts of its sides: an object that has its parts for members, in
any order and among others, or an array of its parts. -/
inductive SpellsJoin (c : Connective) (l r whole : List Char) : Prop
  | object {type operator left right t o a b : List Char} {others members : List (List Char)} :
    PartTexts c l r type operator left right → MemberText "type" type t →
    MemberText "operator" operator o → MemberText "left" left a → MemberText "right" right b →
    (∀ m ∈ others, OtherMemberText m) → members.Perm (t :: o :: a :: b :: others) →
    Padded (objectText members) whole → SpellsJoin c l r whole
  | array {type operator left right : List Char} : PartTexts c l r type operator left right →
    Padded (arrayText [type, operator, left, right]) whole → SpellsJoin c l r whole

/-- The text of a member shows the member. -/
def ShowsMember (member : List Char) (m : String × Json) : Prop :=
  Shows Grade.loose (lex member) (Json.memberTokens true [m])

theorem exists_others {others : List (List Char)} (h : ∀ m ∈ others, OtherMemberText m) :
    ∃ ms, List.Forall₂ ShowsMember others ms ∧
      (∀ m ∈ ms, m.1 ∉ ["type", "operator", "left", "right"]) ∧ ∀ m ∈ others, Readable m := by
  induction others with
  | nil => exact ⟨[], .nil, fun _ h => absurd h List.not_mem_nil, fun _ h => absurd h List.not_mem_nil⟩
  | cons m others ih =>
    rw [List.forall_mem_cons] at h
    obtain ⟨⟨name, value, hname, hm, j, hj⟩, hothers⟩ := h
    obtain ⟨ms, hms, hnames, hreadable⟩ := ih hothers
    exact ⟨(name, j) :: ms, .cons (hm.shows (Json.shows_of_lex hj)) hms,
      List.forall_mem_cons.2 ⟨hname, hnames⟩,
      List.forall_mem_cons.2 ⟨hm.readable_iff.2 (Json.readable_of_lex hj), hreadable⟩⟩

/-- A text with parts of a joined rule spells a value with these parts, and can be read if the texts of
the sides can be. -/
structure SpellsParts (c : Connective) (l r : List Char) (left right : Json) (whole : List Char)
    (j : Json) : Prop where
  shows : Shows Grade.loose (lex whole) j.tokens
  parts : HasJoinParts c left right j
  readable_iff : Readable whole ↔ Readable l ∧ Readable r

theorem SpellsParts.padded {l r inner whole : List Char} (h : SpellsParts c l r left right inner j)
    (hwhole : Padded inner whole) : SpellsParts c l r left right whole j := by
  have hlex := hwhole.lex_eq (Json.malformed_notMem_of_shows h.shows)
  refine ⟨hlex ▸ h.shows, h.parts, ?_⟩
  rw [Readable, hlex]
  exact h.readable_iff

theorem SpellsJoin.exists_spellsParts {l r whole : List Char} (h : SpellsJoin c l r whole)
    (hl : Shows Grade.loose (lex l) left.tokens) (hr : Shows Grade.loose (lex r) right.tokens) :
    ∃ j, SpellsParts c l r left right whole j := by
  cases h with
  | @object type operator a b tm om lm rm others members hparts ht ho ha hb hothers hperm hwhole =>
    obtain ⟨part, hc, hpart⟩ := hparts.operator
    have hleft := hparts.left.lex_eq (Json.malformed_notMem_of_shows hl)
    have hright := hparts.right.lex_eq (Json.malformed_notMem_of_shows hr)
    obtain ⟨ms, hms, hnames, hreadable⟩ := exists_others hothers
    have hshows : List.Forall₂ ShowsMember (tm :: om :: lm :: rm :: others)
        (("type", .string Tag.join.word) :: ("operator", part) :: ("left", left) :: ("right", right) ::
          ms) :=
      .cons (ht.shows (Json.shows_of_lex hparts.type)) <| .cons (ho.shows (Json.shows_of_lex hpart)) <|
        .cons (ha.shows (hleft ▸ hl)) <| .cons (hb.shows (hright ▸ hr)) hms
    obtain ⟨members', hmembers, hperm'⟩ := List.perm_comp_forall₂ hperm hshows
    refine ⟨.object members', SpellsParts.padded ⟨Json.shows_objectText hmembers,
      hasJoinParts_of_perm hc hnames hperm', ?_⟩ hwhole⟩
    have hfree := Json.forall_malformed_notMem Json.malformed_notMem_member hmembers
    rw [Json.readable_objectText hfree]
    simp only [hperm.mem_iff, List.forall_mem_cons, ht.readable_iff, ho.readable_iff, ha.readable_iff,
      hb.readable_iff, Json.readable_of_lex hparts.type, Json.readable_of_lex hpart, true_and]
    rw [Readable, hleft, Readable, hright]
    exact and_congr_right fun _ => and_iff_left hreadable
  | @array type operator a b hparts hwhole =>
    obtain ⟨part, hc, hpart⟩ := hparts.operator
    have hleft := hparts.left.lex_eq (Json.malformed_notMem_of_shows hl)
    have hright := hparts.right.lex_eq (Json.malformed_notMem_of_shows hr)
    have hitems : List.Forall₂ (fun item j => Shows Grade.loose (lex item) (Json.tokens j))
        [type, operator, a, b] [.string Tag.join.word, part, left, right] :=
      .cons (Json.shows_of_lex hparts.type) <| .cons (Json.shows_of_lex hpart) <|
        .cons (hleft ▸ hl) <| .cons (hright ▸ hr) .nil
    refine ⟨_, SpellsParts.padded ⟨Json.shows_arrayText hitems, hasJoinParts_array hc, ?_⟩ hwhole⟩
    have hfree := Json.forall_malformed_notMem Json.malformed_notMem_tokens hitems
    rw [Json.readable_arrayText hfree]
    simp only [List.forall_mem_cons, Json.readable_of_lex hparts.type, Json.readable_of_lex hpart,
      true_and]
    rw [Readable, hleft, Readable, hright]
    exact and_congr_right fun _ => and_iff_left fun _ h => absurd h List.not_mem_nil

/-! ### Decoding -/

/-- A text spells a value that is decoded to a rule inside another one. -/
def DecodesInside (cs : List Char) (r : Rule) : Prop :=
  ∃ j : Json, lex cs = j.tokens ∧ decodeValue true j = .ok r

theorem load_eq_ok_iff_spells {text : String} :
    load text = .ok r ↔ nesting text.toList ≤ greatestDepth ∧
      ∃ j : Json, lex text.toList = j.tokens ∧ decodeValue false j = .ok r := by
  rw [load_eq_ok, decode, decodeNested_eq_ok, take_eq_ok]
  simp only [List.append_nil]

/-- A text is decoded on its own as inside another rule, unless it gives its type by a number. -/
theorem decodesInside_iff_load {text : String} (hdepth : nesting text.toList ≤ greatestDepth)
    (hnumber : ¬ IsNumberedText text.toList) :
    DecodesInside text.toList r ↔ load text = .ok r := by
  rw [load_eq_ok_iff_spells, and_iff_right hdepth]
  refine exists_congr fun j => and_congr_right fun hj => decodeValue_inside fun hj' => ?_
  exact hnumber ⟨j, hj, hj'⟩

section

variable {l r whole : String} (h : SpellsJoin c l.toList r.toList whole.toList)
  (hl : IsValueText l.toList) (hr : IsValueText r.toList)

include h hl hr

theorem SpellsJoin.nesting_lt :
    nesting l.toList < nesting whole.toList ∧ nesting r.toList < nesting whole.toList := by
  obtain ⟨left, hleft⟩ := hl
  obtain ⟨right, hright⟩ := hr
  obtain ⟨j, hj⟩ := h.exists_spellsParts hleft hright
  rw [Json.nesting_of_shows hj.shows, Json.nesting_of_shows hleft, Json.nesting_of_shows hright]
  exact ⟨hj.parts.left.depth_lt, hj.parts.right.depth_lt⟩

/-- A text of a joined rule is decoded to the join of what the texts of its sides are decoded to inside
another rule. -/
theorem SpellsJoin.load_eq_ok_iff (hdepth : nesting whole.toList ≤ greatestDepth) {n : Rule} :
    load whole = .ok n ↔
      ∃ a b, n = .join c a b ∧ DecodesInside l.toList a ∧ DecodesInside r.toList b := by
  obtain ⟨left, hleft⟩ := hl
  obtain ⟨right, hright⟩ := hr
  obtain ⟨j, hj⟩ := h.exists_spellsParts hleft hright
  rw [load_eq_ok_iff_spells, and_iff_right hdepth, Json.exists_tokens_iff hj.shows, hj.readable_iff,
    hj.parts.decodeValue_eq_ok]
  simp only [DecodesInside, Json.exists_tokens_iff hleft, Json.exists_tokens_iff hright]
  constructor
  · rintro ⟨⟨hlread, hrread⟩, a, b, rfl, ha, hb⟩
    exact ⟨a, b, rfl, ⟨hlread, ha⟩, hrread, hb⟩
  · rintro ⟨a, b, rfl, ⟨hlread, ha⟩, hrread, hb⟩
    exact ⟨⟨hlread, hrread⟩, a, b, rfl, ha, hb⟩

end

/-- A text of a joined rule is decoded to the join of what the texts of its sides are decoded to on
their own, and to nothing if one of them is not decoded, unless a side gives its type by a number. -/
theorem load_spellsJoin {l r whole : String} (h : SpellsJoin c l.toList r.toList whole.toList)
    (hl : IsValueText l.toList) (hr : IsValueText r.toList)
    (hdepth : nesting whole.toList ≤ greatestDepth) (hnl : ¬ IsNumberedText l.toList)
    (hnr : ¬ IsNumberedText r.toList) :
    (∀ a b, load whole = .ok (.join c a b) ↔ load l = .ok a ∧ load r = .ok b) ∧
    ((∀ a, load l ≠ .ok a) ∨ (∀ b, load r ≠ .ok b) → ∀ n, load whole ≠ .ok n) := by
  obtain ⟨hldepth, hrdepth⟩ := h.nesting_lt hl hr
  have hwhole : ∀ n, load whole = .ok n ↔ ∃ a b, n = .join c a b ∧ load l = .ok a ∧ load r = .ok b := by
    intro n
    rw [h.load_eq_ok_iff hl hr hdepth]
    simp only [decodesInside_iff_load (hldepth.le.trans hdepth) hnl,
      decodesInside_iff_load (hrdepth.le.trans hdepth) hnr]
  refine ⟨fun a b => ?_, fun hside n hn => ?_⟩
  · rw [hwhole]
    constructor
    · rintro ⟨a', b', hsame, ha, hb⟩
      cases hsame
      exact ⟨ha, hb⟩
    · rintro ⟨ha, hb⟩
      exact ⟨a, b, rfl, ha, hb⟩
  · obtain ⟨a, b, -, ha, hb⟩ := (hwhole n).1 hn
    rcases hside with hside | hside
    · exact hside a ha
    · exact hside b hb

/-- A text whose type is given by a word gives it by no number. -/
theorem not_isNumberedText {cs : List Char} {word : String} (h : lex cs = j.tokens)
    (htype : j.HasPart 0 "type" (.string word)) : ¬ IsNumberedText cs := by
  rintro ⟨k, hk, i, -, hnumber⟩
  have hsame : j.tokens ++ [] = k.tokens ++ [] := congrArg (· ++ []) (h.symm.trans hk)
  obtain ⟨rfl, -⟩ := Json.tokens_append_inj hsame
  cases htype.unique hnumber

/-- The type stands at the end, a member that is no part at the front, one side is an array, and the
connective is an object. -/
theorem load_spellsJoin_mixed :
    let l := "\x7b\"type\":\"operand\",\"operator\":\"=\",\"field\":\"a\",\"value\":\"x\"\x7d"
    let r := "[\"operand\",\">\",\"b\",1.5]"
    let whole := " \x7b\"note\":[1e5],\"right\": " ++ r ++ " ,\"operator\":\x7b\"OR\":\x7b\x7d\x7d," ++
      "\"left\":" ++ l ++ ",\"type\":\"operator\"\x7d"
    let a := comparison .equal "a" (.text "x")
    let b := comparison .greater "b" (.number (.signed false (Magnitude.nearest 3 2)))
    SpellsJoin .or l.toList r.toList whole.toList ∧ load l = .ok a ∧ load r = .ok b ∧
      load whole = .ok (.join .or a b) := by
  intro l r whole a b
  let connective := "\x7b\"OR\":\x7b\x7d\x7d".toList
  let member (name : String) (value : List Char) := Json.quote name.toList ++ ':' :: value
  let t := member "type" "\"operator\"".toList
  let o := member "operator" connective
  let m := member "left" l.toList
  let n := member "right" (" " ++ r ++ " ").toList
  let note := member "note" "[1e5]".toList
  have hparts : PartTexts .or l.toList r.toList "\"operator\"".toList connective l.toList
      (" " ++ r ++ " ").toList :=
    ⟨by decide +kernel, ⟨_, .empty, by decide +kernel⟩, ⟨[], [], rfl, rfl, (List.append_nil _).symm⟩,
      ⟨[' '], [' '], rfl, rfl, by simp⟩⟩
  have hnote : OtherMemberText note := ⟨"note", _, by decide, Json.memberText_quote _ _,
    .array [.number (.float (.signed false (Magnitude.nearest 100000 1)))], by decide +kernel⟩
  have hpadded : Padded (objectText [note, n, o, m, t]) whole.toList := by
    refine ⟨[' '], [], rfl, rfl, ?_⟩
    simp [whole, objectText, t, o, m, n, note, member, connective, Json.quote, Json.escapeChar,
      List.intercalate_cons_cons]
  have hperm : [note, n, o, m, t].Perm [t, o, m, n, note] := by
    refine (List.reverse_perm [t, m, o, n, note]).trans (.cons t ?_)
    exact .swap o m [n, note]
  have hwhole : SpellsJoin .or l.toList r.toList whole.toList :=
    .object hparts (Json.memberText_quote _ _) (Json.memberText_quote _ _) (Json.memberText_quote _ _)
      (Json.memberText_quote _ _) (List.forall_mem_singleton.2 hnote) hperm hpadded
  have hl : lex l.toList = (Json.object [("type", .string "operand"), ("operator", .string "="),
    ("field", .string "a"), ("value", .string "x")]).tokens := by decide +kernel
  have hr : lex r.toList = (Json.array [.string "operand", .string ">", .string "b",
    .number (.float (.signed false (Magnitude.nearest 3 2)))]).tokens := by decide +kernel
  have hdepth : nesting whole.toList ≤ greatestDepth := by
    simp only [whole, String.toList_append, String.reduceToList]
    decide +kernel
  have ha : load l = .ok a := toOption_eq_some.1 (by decide +kernel)
  have hb : load r = .ok b := toOption_eq_some.1 (by decide +kernel)
  obtain ⟨hjoin, -⟩ := load_spellsJoin hwhole ⟨_, Json.shows_of_lex hl⟩ ⟨_, Json.shows_of_lex hr⟩ hdepth
    (not_isNumberedText hl rfl) (not_isNumberedText hr ⟨rfl, rfl⟩)
  exact ⟨hwhole, ha, hb, (hjoin a b).2 ⟨ha, hb⟩⟩

/-- A side that gives its type by a number is refused on its own and decoded inside. -/
theorem load_numbered_side :
    let l := "\x7b\"type\":1,\"operator\":\"<\",\"field\":\"a\",\"value\":2\x7d"
    let r := "\x7b\"type\":\"operand\",\"operator\":\"=\",\"field\":\"a\",\"value\":1\x7d"
    let whole := "\x7b\"type\":\"operator\",\"operator\":\"AND\",\"left\":" ++ l ++ ",\"right\":" ++ r ++
      "\x7d"
    let a := comparison .less "a" (.number (Json.Number.integer 2).toBinary64)
    let b := comparison .equal "a" (.number (Json.Number.integer 1).toBinary64)
    SpellsJoin .and l.toList r.toList whole.toList ∧ IsValueText l.toList ∧ IsValueText r.toList ∧
      nesting whole.toList ≤ greatestDepth ∧ load whole = .ok (.join .and a b) ∧ load r = .ok b ∧
      load l = .error (.undecodable (.complaint (.wrongType (.integer 1) .tag))) := by
  intro l r whole a b
  let member (name : String) (value : List Char) := Json.quote name.toList ++ ':' :: value
  let members := [member "type" "\"operator\"".toList, member "operator" "\"AND\"".toList,
    member "left" l.toList, member "right" r.toList]
  have hparts : PartTexts .and l.toList r.toList "\"operator\"".toList "\"AND\"".toList l.toList
      r.toList :=
    ⟨by decide +kernel, ⟨_, .symbol, by decide +kernel⟩, ⟨[], [], rfl, rfl, (List.append_nil _).symm⟩,
      ⟨[], [], rfl, rfl, (List.append_nil _).symm⟩⟩
  have hpadded : Padded (objectText members) whole.toList := by
    refine ⟨[], [], rfl, rfl, ?_⟩
    simp [whole, objectText, members, member, Json.quote, Json.escapeChar, List.intercalate_cons_cons]
  have hwhole : SpellsJoin .and l.toList r.toList whole.toList :=
    .object hparts (Json.memberText_quote _ _) (Json.memberText_quote _ _) (Json.memberText_quote _ _)
      (Json.memberText_quote _ _) (fun _ h => absurd h List.not_mem_nil) (.refl members) hpadded
  have hl : lex l.toList = (Json.object [("type", .number (.integer 1)), ("operator", .string "<"),
    ("field", .string "a"), ("value", .number (.integer 2))]).tokens := by decide +kernel
  have hr : lex r.toList = (Json.object [("type", .string "operand"), ("operator", .string "="),
    ("field", .string "a"), ("value", .number (.integer 1))]).tokens := by decide +kernel
  have hdepth : nesting whole.toList ≤ greatestDepth := by
    simp only [whole, String.toList_append, String.reduceToList]
    decide +kernel
  have htake : (take (lex whole.toList)).toOption = some (.join .and a b, []) := by
    simp only [whole, String.toList_append, String.reduceToList]
    decide +kernel
  have hload : load whole = .ok (.join .and a b) :=
    load_eq_ok.2 (decodeNested_eq_ok.2 ⟨hdepth, toOption_eq_some.1 htake⟩)
  have hrefused : decode l = .error (.complaint (.wrongType (.integer 1) .tag)) := by decide +kernel
  refine ⟨hwhole, ⟨_, Json.shows_of_lex hl⟩, ⟨_, Json.shows_of_lex hr⟩, hdepth, hload,
    toOption_eq_some.1 (by decide +kernel), ?_⟩
  rw [load, hrefused]
  rfl

end Rule

end Rulebook
