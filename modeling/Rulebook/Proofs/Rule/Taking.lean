import Rulebook.Proofs.Json.Values
import Rulebook.Rule.Decoding

/-!
# Taking a rule from tokens

The reader of rules decodes the type of a rule where it stands and collects the other parts as it
meets them. It takes exactly the tokens of the JSON values that encode a rule (`Rule.take_eq_ok`), so
reading a rule from text is decoding the value that the text spells.
-/

namespace Rulebook.Rule

open Json (Reader Token Shows foldMembers foldItems)

/-! ### Types -/

theorem required_eq_ok {α : Type} {name : String} {part : Option α} {a : α} :
    required name part = .ok a ↔ part = some a := by
  cases part with
  | none =>
    constructor <;> intro h <;> cases h
  | some b =>
    constructor <;> intro h <;> cases h <;> rfl

theorem Tag.ofGlimpse_eq_ok {g : Json.Glimpse} {tag : Tag} :
    ofGlimpse false g = .ok tag ↔ g = .string tag.word := by
  constructor
  · intro h
    cases g with
    | string s =>
      simp only [ofGlimpse] at h
      split at h
      · next hj =>
        cases h
        rw [hj]
      · split at h
        · next hc =>
          cases h
          rw [hc]
        · cases h
    | integer i => cases h
    | _ => cases h
  · rintro rfl
    cases tag <;> rfl

theorem glimpseFirst_eq_ok {tokens rest : List Token} {g : Json.Glimpse} :
    Json.glimpseFirst tokens = .ok (g, rest) ↔ ∃ t, tokens = t :: rest ∧ t.glimpse? = some g := by
  cases tokens with
  | nil =>
    constructor
    · intro h
      cases h
    · rintro ⟨t, ht, -⟩
      cases ht
  | cons t tokens =>
    constructor
    · intro h
      simp only [Json.glimpseFirst] at h
      split at h
      · next g' hg =>
        cases h
        exact ⟨t, rfl, hg⟩
      · cases h
    · rintro ⟨u, hu, hg⟩
      cases hu
      simp only [Json.glimpseFirst, hg]

theorem glimpse?_eq_string {t : Token} {s : String} :
    t.glimpse? = some (.string s) ↔ t = .string (some s) := by
  cases t with
  | number n => cases n with
    | none => simp [Token.glimpse?]
    | some n => cases n <;> simp [Token.glimpse?, Json.Number.glimpse]
  | string s' => cases s' <;> simp [Token.glimpse?]
  | _ => simp [Token.glimpse?]

theorem glimpse?_eq_null {t : Token} : t.glimpse? = some .null ↔ t = .null := by
  cases t with
  | number n => cases n with
    | none => simp [Token.glimpse?]
    | some n => cases n <;> simp [Token.glimpse?, Json.Number.glimpse]
  | string s' => cases s' <;> simp [Token.glimpse?]
  | _ => simp [Token.glimpse?]

theorem takeTag_eq_ok {tokens rest : List Token} {tag : Tag} :
    takeTag tokens = .ok (tag, rest) ↔ tokens = .string (some tag.word) :: rest := by
  simp only [takeTag, Outcome.bind_eq_ok, Prod.exists, glimpseFirst_eq_ok]
  constructor
  · rintro ⟨g, rest', ⟨t, rfl, hg⟩, tag', htag, h⟩
    cases h
    rw [Tag.ofGlimpse_eq_ok] at htag
    subst htag
    rw [glimpse?_eq_string.1 hg]
  · rintro rfl
    exact ⟨_, rest, ⟨_, rfl, rfl⟩, tag, Tag.ofGlimpse_eq_ok.2 rfl, rfl⟩

/-- The kind of rule that a value tells at the root. -/
def tagOf? (j : Json) : Option Tag := (Tag.ofGlimpse false j.glimpse).toOption

theorem glimpse_eq_string {j : Json} {s : String} : j.glimpse = .string s ↔ j = .string s := by
  cases j with
  | number n => cases n <;> simp [Json.glimpse, Json.Number.glimpse]
  | _ => simp [Json.glimpse]

theorem toOption_eq_some {ε α : Type} {x : Except ε α} {a : α} :
    x.toOption = some a ↔ x = .ok a := by
  cases x with
  | error e => constructor <;> intro h <;> cases h
  | ok b => exact ⟨fun h => by cases h; rfl, fun h => by cases h; rfl⟩

theorem tagOf?_eq_some {j : Json} {tag : Tag} : tagOf? j = some tag ↔ j = .string tag.word := by
  rw [tagOf?, toOption_eq_some, Tag.ofGlimpse_eq_ok, glimpse_eq_string]

/-! ### Members -/

/-- Reads one more member of an encoded rule: its type, or a part. -/
def takeMember (seen : Option Tag × List (String × Json)) (name : String) :
    Reader (Option Tag × List (String × Json)) := fun tokens => do
  if name = "type" then
    if seen.1.isSome then .error (.repeatedField name)
    else
      let (tag, tokens) ← takeTag (← Json.afterColon tokens)
      return ((some tag, seen.2), tokens)
  else
    let (j, tokens) ← Json.anyValue (← Json.afterColon tokens)
    return ((seen.1, (name, j) :: seen.2), tokens)

/-- Notes the type of an encoded rule, or collects a part. -/
def noteMember (seen : Option Tag × List (String × Json)) (name : String) (j : Json) :
    Option (Option Tag × List (String × Json)) :=
  if name = "type" then
    if seen.1.isSome then none else (tagOf? j).map fun tag => (some tag, seen.2)
  else some (seen.1, (name, j) :: seen.2)

theorem takes_members : Json.TakesMember Json.Grade.strict takeMember noteMember := by
  intro seen name tokens seen' rest
  unfold takeMember noteMember
  simp only [Json.shows_strict]
  by_cases hname : name = "type"
  · simp only [if_pos hname]
    by_cases hseen : seen.1.isSome
    · simp only [if_pos hseen]
      constructor
      · intro h
        cases h
      · rintro ⟨_, _, -, -, h⟩
        cases h
    · simp only [if_neg hseen, Outcome.bind_eq_ok, Json.afterColon_eq_ok, Prod.exists,
        takeTag_eq_ok, Option.map_eq_some_iff, tagOf?_eq_some]
      constructor
      · rintro ⟨_, rfl, tag, rest', rfl, h⟩
        cases h
        exact ⟨_, _, rfl, rfl, tag, rfl, rfl⟩
      · rintro ⟨_, _, rfl, rfl, tag, rfl, rfl⟩
        exact ⟨_, rfl, tag, rest, rfl, rfl⟩
  · simp only [if_neg hname, Outcome.bind_eq_ok, Json.afterColon_eq_ok, Prod.exists,
      Json.anyValue_eq_ok]
    constructor
    · rintro ⟨_, rfl, j, rest', rfl, h⟩
      cases h
      exact ⟨_, j, rfl, rfl, rfl⟩
    · rintro ⟨_, j, rfl, rfl, h⟩
      cases h
      exact ⟨_, rfl, j, rest, rfl, rfl⟩

/-- The members of an encoded rule other than its type. -/
def parts (members : List (String × Json)) : List (String × Json) :=
  members.filter fun m => m.1 ≠ "type"

theorem parts_cons_type (j : Json) (members : List (String × Json)) :
    parts (("type", j) :: members) = parts members := rfl

theorem parts_cons {name : String} (h : name ≠ "type") (j : Json) (members : List (String × Json)) :
    parts ((name, j) :: members) = (name, j) :: parts members := by
  simp [parts, h]

theorem foldMembers_note {seen : Option Tag} {acc acc' members : List (String × Json)} {tag : Tag} :
    foldMembers noteMember (seen, acc) members = some (some tag, acc') ↔
      tagOfMembers false seen members = .ok tag ∧ acc' = (parts members).reverse ++ acc := by
  induction members generalizing seen acc with
  | nil =>
    rw [foldMembers, tagOfMembers, required_eq_ok, Option.some.injEq, Prod.mk.injEq]
    exact and_congr_right fun _ => eq_comm
  | cons m members ih =>
    obtain ⟨name, j⟩ := m
    rw [foldMembers, tagOfMembers]
    by_cases hname : name = "type"
    · subst hname
      rw [noteMember, if_pos rfl, if_pos rfl, parts_cons_type]
      cases seen with
      | some old =>
        constructor
        · intro h
          cases h
        · rintro ⟨h, -⟩
          cases h
      | none =>
        simp only [Option.isSome_none, Bool.false_eq_true, if_false, onlyOnce, tagOf?]
        cases Tag.ofGlimpse false j.glimpse with
        | error e =>
          constructor
          · intro h
            cases h
          · rintro ⟨h, -⟩
            cases h
        | ok t => exact ih
    · rw [noteMember, if_neg hname, if_neg hname, parts_cons hname, Option.bind_some, ih,
        List.reverse_cons, List.append_assoc]
      rfl

theorem comparisonOfMembers_parts (c : ComparisonParts) (members : List (String × Json)) :
    comparisonOfMembers c (parts members) = comparisonOfMembers c members := by
  induction members generalizing c with
  | nil => rfl
  | cons m members ih =>
    obtain ⟨name, j⟩ := m
    by_cases hname : name = "type"
    · subst hname
      rw [parts_cons_type, ih]
      rfl
    · rw [parts_cons hname, comparisonOfMembers, comparisonOfMembers]
      simp only [ih]

theorem joinOfMembers_parts (p : JoinParts) (members : List (String × Json)) :
    joinOfMembers p (parts members) = joinOfMembers p members := by
  induction members generalizing p with
  | nil => rfl
  | cons m members ih =>
    obtain ⟨name, j⟩ := m
    by_cases hname : name = "type"
    · subst hname
      rw [parts_cons_type, ih, joinOfMembers]
      simp
    · rw [parts_cons hname, joinOfMembers, joinOfMembers]
      simp only [ih]

/-! ### Elements -/

/-- Reads one more element of an encoded rule: first its type, then the parts. -/
def takeItem (seen : Option Tag × List Json) : Reader (Option Tag × List Json) := fun tokens => do
  if seen.1.isNone then
    let (tag, tokens) ← takeTag tokens
    return ((some tag, seen.2), tokens)
  else
    let (j, tokens) ← Json.anyValue tokens
    return ((seen.1, j :: seen.2), tokens)

/-- Notes the type of an encoded rule, or collects a part. -/
def noteItem (seen : Option Tag × List Json) (j : Json) : Option (Option Tag × List Json) :=
  if seen.1.isNone then (tagOf? j).map fun tag => (some tag, seen.2)
  else some (seen.1, j :: seen.2)

theorem takes_items : Json.TakesItem Json.Grade.strict takeItem noteItem := by
  intro seen tokens seen' rest
  unfold takeItem noteItem
  simp only [Json.shows_strict]
  by_cases hseen : seen.1.isNone
  · simp only [if_pos hseen, Outcome.bind_eq_ok, Prod.exists, takeTag_eq_ok,
      Option.map_eq_some_iff, tagOf?_eq_some]
    constructor
    · rintro ⟨tag, rest', rfl, h⟩
      cases h
      exact ⟨_, _, rfl, rfl, tag, rfl, rfl⟩
    · rintro ⟨_, _, rfl, rfl, tag, rfl, rfl⟩
      exact ⟨tag, rest, rfl, rfl⟩
  · simp only [if_neg hseen, Outcome.bind_eq_ok, Prod.exists, Json.anyValue_eq_ok]
    constructor
    · rintro ⟨j, rest', rfl, h⟩
      cases h
      exact ⟨_, j, rfl, rfl, rfl⟩
    · rintro ⟨_, j, rfl, rfl, h⟩
      cases h
      exact ⟨j, rest, rfl, rfl⟩

theorem foldItems_note_some {tag : Tag} {acc items : List Json} :
    foldItems noteItem (some tag, acc) items = some (some tag, items.reverse ++ acc) := by
  induction items generalizing acc with
  | nil => rfl
  | cons j items ih =>
    rw [foldItems, noteItem, if_neg (by simp), Option.bind_some, ih, List.reverse_cons,
      List.append_assoc]
    rfl

theorem foldItems_note {acc items : List Json} {tag : Tag} :
    foldItems noteItem (none, []) items = some (some tag, acc) ↔
      ∃ t more, items = t :: more ∧ Tag.ofGlimpse false t.glimpse = .ok tag ∧
        acc = more.reverse := by
  cases items with
  | nil =>
    constructor
    · intro h
      cases h
    · rintro ⟨t, more, h, -⟩
      cases h
  | cons t more =>
    have hnote : noteItem (none, []) t = (tagOf? t).map fun tag => (some tag, []) := rfl
    rw [foldItems, hnote, Option.bind_eq_some_iff]
    constructor
    · rintro ⟨seen, hseen, hfold⟩
      obtain ⟨tag', htag, rfl⟩ := Option.map_eq_some_iff.1 hseen
      rw [foldItems_note_some, List.append_nil] at hfold
      cases hfold
      exact ⟨t, more, rfl, toOption_eq_some.1 htag, rfl⟩
    · rintro ⟨t', more', h, htag, rfl⟩
      cases h
      refine ⟨(some tag, []), Option.map_eq_some_iff.2 ⟨tag, toOption_eq_some.2 htag, rfl⟩, ?_⟩
      rw [foldItems_note_some, List.append_nil]

/-! ### Rules -/

theorem finish_eq_ok {tag : Tag} {x y : Except Json.Complaint Rule} {tokens rest : List Token}
    {r : Rule} :
    (match tag with
      | .comparison => do return (← x, tokens)
      | .join => do return (← y, tokens)) = Except.ok (r, rest) ↔
      tokens = rest ∧ (match tag with
        | .comparison => x
        | .join => y) = .ok r := by
  cases tag with
  | comparison => cases x <;> simp [bind, Except.bind, pure, Except.pure, and_comm]
  | join => cases y <;> simp [bind, Except.bind, pure, Except.pure, and_comm]

theorem take_openBrace (tokens : List Token) :
    take (.openBrace :: tokens) = (do
      let ((tag, members), tokens) ← Json.members Json.Grade.strict takeMember (none, []) tokens
      match ← required "type" tag with
      | .comparison => return (← comparisonOfMembers {} members.reverse, tokens)
      | .join => return (← joinOfMembers {} members.reverse, tokens)) := rfl

theorem take_openBracket (tokens : List Token) :
    take (.openBracket :: tokens) = (do
      let ((tag, items), tokens) ← Json.elements takeItem (none, []) tokens
      match ← required "type" tag with
      | .comparison => return (← comparisonOfItems items.reverse, tokens)
      | .join => return (← joinOfItems items.reverse, tokens)) := rfl

theorem decodeValue_object_eq_ok {inside : Bool} {members : List (String × Json)} {r : Rule} :
    decodeValue inside (.object members) = .ok r ↔
      ∃ tag, tagOfMembers inside none members = .ok tag ∧
        (match tag with
        | .comparison => comparisonOfMembers {} members
        | .join => joinOfMembers {} members) = .ok r := by
  unfold decodeValue
  refine Outcome.bind_eq_ok.trans (exists_congr fun tag => and_congr_right fun _ => ?_)
  cases tag <;> rfl

theorem take_openBrace_eq_ok {tokens rest : List Token} {r : Rule} :
    take (.openBrace :: tokens) = .ok (r, rest) ↔
      ∃ members, tokens = Json.memberTokens true members ++ .closeBrace :: rest ∧
        decodeValue false (.object members) = .ok r := by
  rw [take_openBrace, Outcome.bind_eq_ok]
  simp only [decodeValue_object_eq_ok, Prod.exists]
  constructor
  · rintro ⟨seen, acc, rest', hm, h⟩
    obtain ⟨tag, htag, h⟩ := Outcome.bind_eq_ok.1 h
    rw [required_eq_ok] at htag
    subst htag
    obtain ⟨taken, members, rfl, hshows, hfold⟩ := (Json.members_eq_ok takes_members).1 hm
    obtain ⟨htag, rfl⟩ := foldMembers_note.1 hfold
    rw [Json.shows_strict] at hshows
    subst hshows
    rw [List.append_nil, List.reverse_reverse, comparisonOfMembers_parts, joinOfMembers_parts] at h
    obtain ⟨rfl, hr⟩ := finish_eq_ok.1 h
    exact ⟨members, rfl, tag, htag, hr⟩
  · rintro ⟨members, rfl, tag, htag, hr⟩
    refine ⟨some tag, (parts members).reverse ++ [], rest, ?_, ?_⟩
    · exact (Json.members_eq_ok takes_members).2
        ⟨_, members, rfl, Json.shows_strict.2 rfl, foldMembers_note.2 ⟨htag, rfl⟩⟩
    · rw [List.append_nil, List.reverse_reverse, comparisonOfMembers_parts, joinOfMembers_parts]
      exact Outcome.bind_eq_ok.2 ⟨tag, rfl, finish_eq_ok.2 ⟨rfl, hr⟩⟩

theorem decodeValue_array_eq_ok {inside : Bool} {items : List Json} {r : Rule} :
    decodeValue inside (.array items) = .ok r ↔
      ∃ t more tag, items = t :: more ∧ Tag.ofGlimpse inside t.glimpse = .ok tag ∧
        (match tag with
        | .comparison => comparisonOfItems more
        | .join => joinOfItems more) = .ok r := by
  cases items with
  | nil =>
    rw [decodeValue]
    constructor
    · intro h
      cases h
    · rintro ⟨t, more, tag, h, -⟩
      cases h
  | cons t more =>
    rw [decodeValue, Outcome.bind_eq_ok]
    constructor
    · rintro ⟨tag, htag, h⟩
      refine ⟨t, more, tag, rfl, htag, ?_⟩
      cases tag <;> exact h
    · rintro ⟨t', more', tag, h, htag, hr⟩
      cases h
      refine ⟨tag, htag, ?_⟩
      cases tag <;> exact hr

theorem take_openBracket_eq_ok {tokens rest : List Token} {r : Rule} :
    take (.openBracket :: tokens) = .ok (r, rest) ↔
      ∃ items, tokens = Json.itemTokens true items ++ .closeBracket :: rest ∧
        decodeValue false (.array items) = .ok r := by
  rw [take_openBracket, Outcome.bind_eq_ok]
  simp only [decodeValue_array_eq_ok, Prod.exists]
  constructor
  · rintro ⟨seen, acc, rest', hm, h⟩
    obtain ⟨tag, htag, h⟩ := Outcome.bind_eq_ok.1 h
    rw [required_eq_ok] at htag
    subst htag
    obtain ⟨taken, items, rfl, hshows, hfold⟩ := (Json.elements_eq_ok takes_items).1 hm
    obtain ⟨t, more, rfl, htag, rfl⟩ := foldItems_note.1 hfold
    rw [Json.shows_strict] at hshows
    subst hshows
    rw [List.reverse_reverse] at h
    obtain ⟨rfl, hr⟩ := finish_eq_ok.1 h
    exact ⟨t :: more, rfl, t, more, tag, rfl, htag, hr⟩
  · rintro ⟨items, rfl, t, more, tag, rfl, htag, hr⟩
    refine ⟨some tag, more.reverse, rest, ?_, ?_⟩
    · exact (Json.elements_eq_ok takes_items).2
        ⟨_, _, rfl, Json.shows_strict.2 rfl, foldItems_note.2 ⟨t, more, rfl, htag, rfl⟩⟩
    · rw [List.reverse_reverse]
      exact Outcome.bind_eq_ok.2 ⟨tag, rfl, finish_eq_ok.2 ⟨rfl, hr⟩⟩

theorem take_ne_ok_of_ne_open {tokens : List Token}
    (h : ∀ t, tokens.head? = some t → t ≠ .openBrace ∧ t ≠ .openBracket) (r : Rule)
    (rest : List Token) : take tokens ≠ .ok (r, rest) := by
  intro hr
  have herror : take tokens =
      (Json.glimpseFirst tokens >>= fun g => .error (.wrongType g.1 .rule)) := by
    cases tokens with
    | nil => rfl
    | cons t tokens =>
      have hne := h t rfl
      cases t <;> first | rfl | exact absurd rfl hne.1 | exact absurd rfl hne.2
  rw [herror] at hr
  obtain ⟨_, -, h⟩ := Outcome.bind_eq_ok.1 hr
  cases h

/-- Taking a rule takes the tokens of a value that encodes it. -/
theorem take_eq_ok {tokens rest : List Token} {r : Rule} :
    take tokens = .ok (r, rest) ↔
      ∃ j : Json, tokens = j.tokens ++ rest ∧ decodeValue false j = .ok r := by
  constructor
  · intro h
    cases tokens with
    | nil => exact absurd h (take_ne_ok_of_ne_open (fun t ht => by cases ht) r rest)
    | cons t ts =>
      by_cases hbrace : t = .openBrace
      · subst hbrace
        obtain ⟨members, rfl, hr⟩ := take_openBrace_eq_ok.1 h
        exact ⟨.object members, by simp [Json.tokens], hr⟩
      · by_cases hbracket : t = .openBracket
        · subst hbracket
          obtain ⟨items, rfl, hr⟩ := take_openBracket_eq_ok.1 h
          exact ⟨.array items, by simp [Json.tokens], hr⟩
        · refine absurd h (take_ne_ok_of_ne_open (fun u hu => ?_) r rest)
          cases hu
          exact ⟨hbrace, hbracket⟩
  · rintro ⟨j, rfl, hr⟩
    cases j with
    | object members =>
      rw [Json.tokens, List.cons_append, List.append_assoc]
      exact take_openBrace_eq_ok.2 ⟨members, rfl, hr⟩
    | array items =>
      rw [Json.tokens, List.cons_append, List.append_assoc]
      exact take_openBracket_eq_ok.2 ⟨items, rfl, hr⟩
    | _ => simp [decodeValue] at hr

end Rulebook.Rule
