import Rulebook.Entry
import Rulebook.Proofs.Entry.Identifier
import Rulebook.Proofs.Rule.Encoded

/-!
# Decoding an encoded entry

The reader of entries goes over the members of an encoded entry one by one. Identifier, name and
description always come back; what comes back of the rule is what reading the rule alone gives. So
rules and entries are decoded to what was encoded under the same condition (`load_encode_same_iff`).
-/

namespace Rulebook

open Json (Token Reader MembersRun)

/-- An instant that reads back from its text. -/
def Instant.ReadsBack (t : Instant) : Prop := read? t.text = some t

/-! ### One member after another -/

namespace Json

variable {σ : Type} {member : σ → String → Reader σ} {state state₁ state' : σ} {key : String}
  {tokens tokens₁ rest : List Token}

theorem membersRun_of_comma (h : member state key tokens = .ok (state₁, .comma :: tokens₁)) :
    MembersRun Grade.strict member state (.string (some key) :: tokens) state' rest ↔
      MembersRun Grade.strict member state₁ tokens₁ state' rest := by
  constructor
  · intro hrun
    cases hrun with
    | last hs hread =>
      cases hs
      rw [h] at hread
      cases hread
    | more hs hread hrun =>
      cases hs
      rw [h] at hread
      cases hread
      exact hrun
  · exact fun hrun => .more rfl h hrun

theorem membersRun_of_closeBrace
    (h : member state key tokens = .ok (state₁, .closeBrace :: tokens₁)) :
    MembersRun Grade.strict member state (.string (some key) :: tokens) state' rest ↔
      state' = state₁ ∧ rest = tokens₁ := by
  constructor
  · intro hrun
    cases hrun with
    | last hs hread =>
      cases hs
      rw [h] at hread
      cases hread
      exact ⟨rfl, rfl⟩
    | more hs hread _ =>
      cases hs
      rw [h] at hread
      cases hread
  · rintro ⟨rfl, rfl⟩
    exact .last rfl h

end Json

namespace Entry

/-- Reads one more member of an encoded entry. -/
def takeMember (parts : Parts) (key : String) : Reader Parts := fun tokens => do
  match Field.all.find? fun field => field.key = key with
  | some field =>
    if parts.has field then .error (.repeatedField key)
    else parts.take field (← Json.afterColon tokens)
  | none =>
    let ((), tokens) ← Json.skip (← Json.afterColon tokens)
    return (parts, tokens)

theorem take_openBrace (tokens : List Token) :
    take (.openBrace :: tokens) = (do
      let (parts, tokens) ← Json.members Json.Grade.strict takeMember {} tokens
      return (← parts.finish fun field => .missingField field.key, tokens)) := rfl

/-- Reads one more element of an encoded entry. -/
def takeItem (state : Parts × List Field) : Reader (Parts × List Field) := fun tokens => do
  match state with
  | (_, []) => .error .malformed
  | (parts, field :: fields) =>
    let (parts, tokens) ← parts.take field tokens
    return ((parts, fields), tokens)

theorem take_openBracket (tokens : List Token) :
    take (.openBracket :: tokens) = (do
      let ((parts, _), tokens) ← Json.elements takeItem ({}, Field.all) tokens
      return (← parts.finish fun field => .wrongLength (Field.all.idxOf field) .entry, tokens)) := rfl

theorem takeMember_key (parts : Parts) {field : Field} (h : parts.has field = false)
    (tokens : List Token) :
    takeMember parts field.key (.colon :: tokens) = parts.take field tokens := by
  have hfind : (Field.all.find? fun f => f.key = field.key) = some field := by
    cases field <;> rfl
  rw [takeMember, hfind]
  simp only [h]
  rfl

/-! ### Members -/

theorem takeText_eq_ok {tokens rest : List Token} {s : String} :
    takeText tokens = .ok (s, rest) ↔ tokens = .string (some s) :: rest := by
  simp only [takeText, Outcome.bind_eq_ok, Prod.exists, Rule.glimpseFirst_eq_ok]
  constructor
  · rintro ⟨g, rest', ⟨t, rfl, hg⟩, h⟩
    cases g with
    | string s' =>
      cases h
      rw [Rule.glimpse?_eq_string.1 hg]
    | _ => cases h
  · rintro rfl
    exact ⟨.string s, rest, ⟨_, rfl, rfl⟩, rfl⟩

theorem takeIdentifier_eq_ok {tokens rest : List Token} {i : Identifier} :
    takeIdentifier tokens = .ok (i, rest) ↔
      ∃ s, tokens = .string (some s) :: rest ∧ Identifier.ofChars? s.toList = some i := by
  simp only [takeIdentifier, Outcome.bind_eq_ok, Prod.exists, Rule.glimpseFirst_eq_ok]
  constructor
  · rintro ⟨g, rest', ⟨t, rfl, hg⟩, h⟩
    cases g with
    | string s =>
      simp only at h
      split at h
      · next j hj =>
        cases h
        exact ⟨s, by rw [Rule.glimpse?_eq_string.1 hg], hj⟩
      · cases h
    | _ => cases h
  · rintro ⟨s, rfl, hs⟩
    exact ⟨.string s, rest, ⟨_, rfl, rfl⟩, by simp only [hs]; rfl⟩

theorem takeInstant_eq_ok {tokens rest : List Token} {t : Instant} :
    takeInstant tokens = .ok (t, rest) ↔
      ∃ s, tokens = .string (some s) :: rest ∧ Instant.read? s = some t := by
  simp only [takeInstant, Outcome.bind_eq_ok, Prod.exists, Rule.glimpseFirst_eq_ok]
  constructor
  · rintro ⟨g, rest', ⟨u, rfl, hg⟩, h⟩
    cases g with
    | string s =>
      simp only at h
      split at h
      · next v hv =>
        cases h
        exact ⟨s, by rw [Rule.glimpse?_eq_string.1 hg], hv⟩
      · cases h
    | _ => cases h
  · rintro ⟨s, rfl, hs⟩
    exact ⟨.string s, rest, ⟨_, rfl, rfl⟩, by simp only [hs]; rfl⟩

/-! ### Every part takes a value -/

/-- A reader that takes the tokens of a value, as far as their lexical form goes. -/
def TakesValue {α : Type} (read : Reader α) : Prop :=
  ∀ tokens a rest, read tokens = .ok (a, rest) →
    ∃ (taken : List Token) (j : Json), tokens = taken ++ rest ∧
      Json.Shows Json.Grade.loose taken j.tokens

theorem TakesValue.bind {α β : Type} {read : Reader α} (h : TakesValue read) (put : α → β) :
    TakesValue fun tokens => read tokens >>= fun p => .ok (put p.1, p.2) := by
  intro tokens b rest hb
  obtain ⟨⟨a, rest'⟩, ha, hb⟩ := Outcome.bind_eq_ok.1 hb
  cases hb
  exact h tokens a rest' ha

theorem takesValue_takeText : TakesValue takeText := by
  intro tokens s rest h
  obtain rfl := takeText_eq_ok.1 h
  exact ⟨_, .string s, rfl, Json.shows_loose_self _⟩

theorem takesValue_takeIdentifier : TakesValue takeIdentifier := by
  intro tokens i rest h
  obtain ⟨s, rfl, -⟩ := takeIdentifier_eq_ok.1 h
  exact ⟨_, .string s, rfl, Json.shows_loose_self _⟩

theorem takesValue_takeInstant : TakesValue takeInstant := by
  intro tokens t rest h
  obtain ⟨s, rfl, -⟩ := takeInstant_eq_ok.1 h
  exact ⟨_, .string s, rfl, Json.shows_loose_self _⟩

theorem takesValue_takeDescription : TakesValue takeDescription := by
  intro tokens d rest h
  obtain ⟨⟨g, rest'⟩, hg, h⟩ := Outcome.bind_eq_ok.1 h
  obtain ⟨t, rfl, ht⟩ := Rule.glimpseFirst_eq_ok.1 hg
  cases g with
  | null =>
    cases h
    rw [Rule.glimpse?_eq_null.1 ht]
    exact ⟨_, .null, rfl, Json.shows_loose_self _⟩
  | string s =>
    cases h
    rw [Rule.glimpse?_eq_string.1 ht]
    exact ⟨_, .string s, rfl, Json.shows_loose_self _⟩
  | _ => cases h

theorem takesValue_takeRule : TakesValue Rule.take := by
  intro tokens r rest h
  obtain ⟨j, rfl, -⟩ := Rule.take_eq_ok.1 h
  exact ⟨_, j, rfl, Json.shows_loose_self j⟩

theorem takesValue_skip : TakesValue Json.skip := by
  intro tokens u rest h
  obtain ⟨⟨j, rest'⟩, hv, h⟩ := Outcome.bind_eq_ok.1 h
  cases h
  obtain ⟨taken, rfl, hshows, -⟩ := Json.value_eq_ok.1 hv
  exact ⟨taken, j, rfl, hshows⟩

theorem takesValue_take (parts : Parts) (field : Field) : TakesValue (parts.take field) := by
  cases field with
  | id => exact takesValue_takeIdentifier.bind fun i => { parts with id := some i }
  | name => exact takesValue_takeText.bind fun s => { parts with name := some s }
  | description => exact takesValue_takeDescription.bind fun d => { parts with description := some d }
  | rule => exact takesValue_takeRule.bind fun r => { parts with rule := some r }
  | createdAt => exact takesValue_takeInstant.bind fun t => { parts with createdAt := some t }
  | updatedAt => exact takesValue_takeInstant.bind fun t => { parts with updatedAt := some t }

theorem part_of_takeMember {parts parts' : Parts} {key : String} {tokens rest : List Token}
    (h : takeMember parts key tokens = .ok (parts', rest)) :
    ∃ tokens', tokens = .colon :: tokens' ∧
      ((∃ field, parts.take field tokens' = .ok (parts', rest)) ∨
        (Json.skip tokens' = .ok ((), rest) ∧ parts' = parts)) := by
  unfold takeMember at h
  split at h
  · next field _ =>
    split at h
    · cases h
    · obtain ⟨tokens', hcolon, h⟩ := Outcome.bind_eq_ok.1 h
      exact ⟨tokens', Json.afterColon_eq_ok.1 hcolon, .inl ⟨field, h⟩⟩
  · simp only [Outcome.bind_eq_ok, Json.afterColon_eq_ok, Prod.exists] at h
    obtain ⟨tokens', rfl, u, rest', hskip, h⟩ := h
    cases h
    exact ⟨tokens', rfl, .inr ⟨hskip, rfl⟩⟩

theorem value_of_takeMember {parts parts' : Parts} {key : String} {tokens rest : List Token}
    (h : takeMember parts key tokens = .ok (parts', rest)) :
    ∃ (taken : List Token) (j : Json), tokens = .colon :: (taken ++ rest) ∧
      Json.Shows Json.Grade.loose taken j.tokens := by
  obtain ⟨tokens', rfl, ⟨field, hpart⟩ | ⟨hskip, -⟩⟩ := part_of_takeMember h
  · obtain ⟨taken, j, rfl, hshows⟩ := takesValue_take parts field _ _ _ hpart
    exact ⟨taken, j, rfl, hshows⟩
  · obtain ⟨taken, j, rfl, hshows⟩ := takesValue_skip _ _ _ hskip
    exact ⟨taken, j, rfl, hshows⟩

theorem shrinks_takeMember : Json.Shrinks takeMember := by
  intro parts key tokens parts' rest h
  obtain ⟨taken, j, rfl, -⟩ := value_of_takeMember h
  rw [List.length_cons, List.length_append]
  omega

/-! ### Encoded entries -/

/-- The tokens of a description, before the rule. -/
def descriptionTokens (e : Entry) : List Token :=
  match e.description with
  | some d => [.string (some "description"), .colon, .string (some d), .comma]
  | none => []

/-- The tokens of an encoded entry after its opening brace. -/
def readTokens (e : Entry) : List Token :=
  [.string (some "id"), .colon, .string (some e.id.text), .comma,
    .string (some "name"), .colon, .string (some e.name), .comma] ++
  (e.descriptionTokens ++ ([.string (some "ast"), .colon] ++ (e.rule.readTokens ++
    [.comma, .string (some "createdAt"), .colon, .string (some e.createdAt.text), .comma,
      .string (some "updatedAt"), .colon, .string (some e.updatedAt.text), .closeBrace])))

theorem tokens_toJson (e : Entry) : e.toJson.tokens.map Token.reread = .openBrace :: e.readTokens := by
  cases hd : e.description <;>
    simp [toJson, descriptionMembers, hd, Json.tokens, Json.memberTokens, Token.reread, readTokens,
      descriptionTokens, Rule.readTokens]

/-- The parts that have been read before the rule. -/
def partsBefore (e : Entry) : Parts where
  id := some e.id
  name := some e.name
  description := e.description.map some

theorem takeMember_id (e : Entry) (rest : List Token) :
    takeMember {} "id" (.colon :: .string (some e.id.text) :: rest) =
      .ok ({ id := some e.id }, rest) := by
  have hid := takeIdentifier_eq_ok.2 ⟨e.id.text, Eq.refl (.string (some e.id.text) :: rest),
    Identifier.ofChars?_text e.id⟩
  rw [show "id" = Field.key .id from rfl, takeMember_key _ rfl, Parts.take, hid]
  rfl

theorem membersRun_readTokens {e : Entry} {parts : Parts} {tokens rest : List Token} :
    MembersRun Json.Grade.strict takeMember {}
      ([.string (some "id"), .colon, .string (some e.id.text), .comma,
        .string (some "name"), .colon, .string (some e.name), .comma] ++
        (e.descriptionTokens ++ tokens)) parts rest ↔
      MembersRun Json.Grade.strict takeMember e.partsBefore tokens parts rest := by
  have hname : takeMember { id := some e.id } "name" (.colon :: .string (some e.name) :: .comma ::
      (e.descriptionTokens ++ tokens)) =
      .ok ({ id := some e.id, name := some e.name }, .comma :: (e.descriptionTokens ++ tokens)) := rfl
  simp only [List.cons_append, List.nil_append]
  rw [Json.membersRun_of_comma (takeMember_id e _), Json.membersRun_of_comma hname]
  cases hd : e.description with
  | none =>
    rw [descriptionTokens, hd, partsBefore, hd]
    rfl
  | some d =>
    rw [descriptionTokens, hd, partsBefore, hd]
    exact Json.membersRun_of_comma rfl

/-- The parts of an entry with some rule that have been read up to the rule. -/
def partsWith (e : Entry) (m : Rule) : Parts := { e.partsBefore with rule := some m }

theorem takeMember_rule {e : Entry} {parts : Parts} {tokens rest : List Token} :
    takeMember e.partsBefore "ast" (.colon :: tokens) = .ok (parts, rest) ↔
      ∃ m, Rule.take tokens = .ok (m, rest) ∧ parts = e.partsWith m := by
  rw [show "ast" = Field.key .rule from rfl, takeMember_key _ rfl, Parts.take]
  simp only [Outcome.bind_eq_ok, Prod.exists]
  constructor
  · rintro ⟨m, rest', hm, h⟩
    cases h
    exact ⟨m, hm, rfl⟩
  · rintro ⟨m, hm, rfl⟩
    exact ⟨m, rest, hm, rfl⟩

/-- The tokens of an encoded entry after its rule. -/
def tokensAfter (e : Entry) : List Token :=
  [.string (some "createdAt"), .colon, .string (some e.createdAt.text), .comma,
    .string (some "updatedAt"), .colon, .string (some e.updatedAt.text), .closeBrace]

theorem membersRun_tokensAfter {e : Entry} (hc : e.createdAt.ReadsBack) (hu : e.updatedAt.ReadsBack)
    {m : Rule} {parts : Parts} {rest : List Token} :
    MembersRun Json.Grade.strict takeMember (e.partsWith m) e.tokensAfter parts rest ↔
      parts = { e.partsWith m with
        createdAt := some e.createdAt, updatedAt := some e.updatedAt } ∧ rest = [] := by
  have hcreated : takeMember (e.partsWith m) "createdAt" (.colon ::
      .string (some e.createdAt.text) :: .comma :: e.tokensAfter.drop 4) =
      .ok ({ e.partsWith m with createdAt := some e.createdAt },
        .comma :: e.tokensAfter.drop 4) := by
    have ht := takeInstant_eq_ok.2 ⟨e.createdAt.text,
      Eq.refl (.string (some e.createdAt.text) :: .comma :: e.tokensAfter.drop 4), hc⟩
    rw [show "createdAt" = Field.key .createdAt from rfl, takeMember_key _ rfl, Parts.take, ht]
    rfl
  have hupdated : takeMember { e.partsWith m with createdAt := some e.createdAt } "updatedAt"
      [.colon, .string (some e.updatedAt.text), .closeBrace] =
      .ok ({ e.partsWith m with
        createdAt := some e.createdAt, updatedAt := some e.updatedAt }, [.closeBrace]) := by
    have ht := takeInstant_eq_ok.2 ⟨e.updatedAt.text,
      Eq.refl ([.string (some e.updatedAt.text), .closeBrace] : List Token), hu⟩
    rw [show "updatedAt" = Field.key .updatedAt from rfl, takeMember_key _ rfl, Parts.take, ht]
    rfl
  have hsplit : e.tokensAfter = .string (some "createdAt") :: .colon ::
      .string (some e.createdAt.text) :: .comma :: e.tokensAfter.drop 4 := rfl
  have hrest : e.tokensAfter.drop 4 = [.string (some "updatedAt"), .colon,
      .string (some e.updatedAt.text), .closeBrace] := rfl
  rw [hsplit, Json.membersRun_of_comma hcreated, hrest, Json.membersRun_of_closeBrace hupdated]

/-- The parts of an encoded entry are those of the entry, with some reading of its rule. -/
theorem members_readTokens {e : Entry} (hc : e.createdAt.ReadsBack) (hu : e.updatedAt.ReadsBack)
    {parts : Parts} {rest : List Token} :
    Json.members Json.Grade.strict takeMember {} e.readTokens = .ok (parts, rest) ↔
      ∃ m, Rule.take (e.rule.readTokens ++ .comma :: e.tokensAfter) =
        .ok (m, .comma :: e.tokensAfter) ∧ rest = [] ∧ parts = { e.partsWith m with
          createdAt := some e.createdAt, updatedAt := some e.updatedAt } := by
  have hsplit : e.readTokens = [.string (some "id"), .colon, .string (some e.id.text), .comma,
      .string (some "name"), .colon, .string (some e.name), .comma] ++ (e.descriptionTokens ++
      (.string (some "ast") :: .colon :: (e.rule.readTokens ++ .comma :: e.tokensAfter))) := rfl
  have hne : ¬ (e.readTokens = .closeBrace :: rest ∧ parts = {}) := by
    rintro ⟨h, -⟩
    cases h
  rw [Json.members_run shrinks_takeMember, or_iff_right hne, hsplit, membersRun_readTokens]
  constructor
  · intro hrun
    cases hrun with
    | last hs hread =>
      -- a comma comes after the rule, so it is not the last member
      cases hs
      obtain ⟨m, hm, -⟩ := takeMember_rule.1 hread
      obtain ⟨hend, -⟩ := Rule.take_readTokens.1 hm
      cases hend
    | more hs hread hrun =>
      cases hs
      obtain ⟨m, hm, rfl⟩ := takeMember_rule.1 hread
      obtain ⟨hend, -⟩ := Rule.take_readTokens.1 hm
      obtain rfl := (List.cons.inj hend).2
      obtain ⟨hparts, hrest⟩ := (membersRun_tokensAfter hc hu).1 hrun
      exact ⟨m, hm, hrest, hparts⟩
  · rintro ⟨m, hm, rfl, rfl⟩
    have hrule : takeMember e.partsBefore "ast" (.colon :: (e.rule.readTokens ++
        .comma :: e.tokensAfter)) = .ok (e.partsWith m, .comma :: e.tokensAfter) :=
      takeMember_rule.2 ⟨m, hm, rfl⟩
    exact (Json.membersRun_of_comma hrule).2 ((membersRun_tokensAfter hc hu).2 ⟨rfl, rfl⟩)

/-- Reading an encoded entry reads its rule as if it stood alone. -/
theorem take_readTokens {e e' : Entry} {rest : List Token} (hc : e.createdAt.ReadsBack)
    (hu : e.updatedAt.ReadsBack) :
    take (.openBrace :: e.readTokens) = .ok (e', rest) ↔
      ∃ m, Rule.take (e.rule.readTokens ++ .comma :: e.tokensAfter) =
        .ok (m, .comma :: e.tokensAfter) ∧ rest = [] ∧ e' = { e with rule := m } := by
  have hfinish : ∀ m, Parts.finish { e.partsWith m with
      createdAt := some e.createdAt, updatedAt := some e.updatedAt }
      (fun field => .missingField field.key) = .ok { e with rule := m } := by
    intro m
    obtain ⟨i, n, d, r, c, u⟩ := e
    cases d <;> rfl
  rw [take_openBrace]
  simp only [Outcome.bind_eq_ok, Prod.exists, members_readTokens hc hu]
  constructor
  · rintro ⟨parts, rest', ⟨m, hm, rfl, rfl⟩, e₁, he₁, h⟩
    rw [hfinish] at he₁
    cases he₁
    cases h
    exact ⟨m, hm, rfl, rfl⟩
  · rintro ⟨m, hm, rfl, rfl⟩
    exact ⟨_, [], ⟨m, hm, rfl, rfl⟩, _, hfinish m, rfl⟩

theorem take_same_iff {e : Entry} (hc : e.createdAt.ReadsBack) (hu : e.updatedAt.ReadsBack) :
    (∃ e', take (.openBrace :: e.readTokens) = .ok (e', []) ∧ e'.same e) ↔
      e.rule.IsEncodable := by
  rw [← Rule.take_same_iff e.rule (.comma :: e.tokensAfter)]
  have hsame : ∀ m, ({ e with rule := m } : Entry).same e = m.same e.rule := by
    intro m
    simp [same, summary]
  constructor
  · rintro ⟨e', he, hs⟩
    obtain ⟨m, hm, -, rfl⟩ := (take_readTokens hc hu).1 he
    rw [hsame] at hs
    exact ⟨m, _, hm, hs⟩
  · rintro ⟨m, rest', hm, hs⟩
    obtain ⟨rfl, -⟩ := Rule.take_readTokens.1 hm
    exact ⟨_, (take_readTokens hc hu).2 ⟨m, hm, rfl, rfl⟩, (hsame m).trans hs⟩

theorem depth_toJson (e : Entry) : e.toJson.depth = e.rule.depth + 1 := by
  cases hd : e.description <;>
    simp [toJson, descriptionMembers, hd, Json.depth, Json.depthOfMembers, Rule.depth_toJson]

theorem load_eq_ok {e : Entry} {text : String} : load text = .ok e ↔ decode text = .ok e :=
  Outcome.mapError_eq_ok

theorem load_encode_same {e : Entry} (hc : e.createdAt.ReadsBack) (hu : e.updatedAt.ReadsBack) :
    (∃ e', load e.encode = .ok e' ∧ e'.same e) ↔
      e.rule.IsEncodable ∧ e.rule.depth ≤ greatestDepth := by
  simp only [load_eq_ok, decode, encode, decodeNested_compact, tokens_toJson, depth_toJson,
    Nat.add_le_add_iff_right]
  rw [← take_same_iff hc hu]
  constructor
  · rintro ⟨e', ⟨hdepth, he⟩, hs⟩
    exact ⟨⟨e', he, hs⟩, hdepth⟩
  · rintro ⟨⟨e', he, hs⟩, hdepth⟩
    exact ⟨e', ⟨hdepth, he⟩, hs⟩

end Entry

/-- Rules and entries are loaded from what they are encoded as exactly if the fields of the rule have
names, its numbers read back, and it is nested at most so deeply as a rule may be. -/
theorem load_encode_same_iff :
    (∀ r : Rule, (∃ m, Rule.load r.encode = .ok m ∧ m.same r) ↔
      r.IsEncodable ∧ r.depth ≤ greatestDepth) ∧
    (∀ x : Binary64, x.ReadsBack → x.isFinite) ∧
    (∀ e : Entry, e.createdAt.ReadsBack → e.updatedAt.ReadsBack →
      ((∃ e', Entry.load e.encode = .ok e' ∧ e'.same e) ↔
        e.rule.IsEncodable ∧ e.rule.depth ≤ greatestDepth)) := by
  refine ⟨Rule.load_encode_same, fun x => Binary64.isFinite_of_readsBack, ?_⟩
  intro e hc hu
  exact Entry.load_encode_same hc hu

theorem load_encode_same_iff_newYear :
    ∃ e : Entry, e.createdAt.ReadsBack ∧ e.updatedAt.ReadsBack ∧
      e.rule = .comparison .equal "name" (.text "\"[\n") ∧
      ∃ e', Entry.load e.encode = .ok e' ∧ e'.same e := by
  have hday : (Instant.mk ⟨2024, 1, 1⟩ 45296 500000000).ReadsBack := by
    unfold Instant.ReadsBack
    decide +kernel
  let e : Entry := {
    id := ⟨0⟩
    name := ""
    description := some ""
    rule := .comparison .equal "name" (.text "\"[\n")
    createdAt := ⟨⟨2024, 1, 1⟩, 45296, 500000000⟩
    updatedAt := ⟨⟨2024, 1, 1⟩, 45296, 500000000⟩ }
  have hname : "name" ≠ "" := by decide
  have hdepth : 1 ≤ greatestDepth := by decide
  exact ⟨e, hday, hday, rfl, (load_encode_same_iff.2.2 e hday hday).2 ⟨⟨hname, trivial⟩, hdepth⟩⟩

end Rulebook
