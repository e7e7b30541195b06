import Rulebook.Proofs.Json.Peak
import Rulebook.Proofs.Rule.Encoded
import Rulebook.Proofs.Rule.Parts
import Rulebook.Rule.Judgement

/-!
# Two readings of an encoded rule

An encoded rule is judged as a text, which is decoded from left to right, or as a value that was read
before, which is decoded as a dictionary. For a text without repeated names both ways come to one rule
or to none (`Rule.judgeText_agrees`). Between them stands the value that the text spells: the reader of
rules takes its tokens (`Rule.decode_eq_ok`), and it has the parts of its canonical form.
-/

namespace Rulebook

open Json (ofText)

variable {text : String} {j : Json}

/-! ### Texts and values -/

theorem Json.ofText_compact {k : Json} :
    ofText j.compact = .ok k ↔ j.tokens.map Token.reread = k.tokens ∧ k.depth ≤ usualRoom := by
  rw [ofText_eq_ok, compact, String.toList_ofList, lex_text]

/-- A text that reads as a value is no deeper than encoded rules may be. -/
theorem Json.nesting_le_of_ofText (h : ofText text = .ok j) : nesting text.toList ≤ greatestDepth := by
  obtain ⟨hlex, hdepth⟩ := Json.ofText_eq_ok.1 h
  rw [Json.nesting_of_shows (Json.shows_strict.2 hlex)]
  exact hdepth.trans (by decide)

namespace Rule

/-- The rule of a text is the rule of the value that the text spells. -/
theorem decode_eq_ok (h : ofText text = .ok j) {r : Rule} :
    decode text = .ok r ↔ decodeValue false j = .ok r := by
  obtain ⟨hlex, -⟩ := Json.ofText_eq_ok.1 h
  rw [decode, decodeNested_eq_ok, and_iff_right (Json.nesting_le_of_ofText h), take_eq_ok, hlex]
  simp only [List.append_nil]
  constructor
  · rintro ⟨k, htokens, hk⟩
    have happend : j.tokens ++ [] = k.tokens ++ [] := congrArg (· ++ []) htokens
    obtain ⟨rfl, -⟩ := Json.tokens_append_inj happend
    exact hk
  · intro hj
    exact ⟨j, rfl, hj⟩

/-- Without repeated names the rule of a text is the rule of its value as a dictionary. -/
theorem decode_eq_ok_iff_ofJson (h : ofText text = .ok j) (hj : j.NamesOnce) {r : Rule} :
    decode text = .ok r ↔ ofJson j = .ok r := by
  rw [decode_eq_ok h, ofJson, decodeValue_canonical hj]

/-! ### Judgements -/

/-- Two outcomes of judging agree: they are the same truth, or faults that lie in the judgement. -/
inductive Agree : Except Fault Bool → Except Fault Bool → Prop where
  | truth (b : Bool) : Agree (.ok b) (.ok b)
  | fault {f g : Fault} : f.kind = .judgement → g.kind = .judgement → Agree (.error f) (.error g)

/-- Every fault lies in the judgement. -/
def FaultsInJudgement (outcome : Except Fault Bool) : Prop :=
  ∀ f, outcome = .error f → f.kind = .judgement

theorem agree_of_ok_iff {x y : Except Fault Bool} (hx : FaultsInJudgement x)
    (hy : FaultsInJudgement y) (h : ∀ b, x = .ok b ↔ y = .ok b) : Agree x y := by
  cases x with
  | ok b =>
    rw [(h b).1 rfl]
    exact .truth b
  | error f =>
    cases y with
    | ok b => cases (h b).2 rfl
    | error g => exact .fault (hx f rfl) (hy g rfl)

theorem faultsInJudgement_bind {α : Type} {x : Except Fault α} {judge : α → Except Fault Bool}
    (hx : ∀ f, x = .error f → f.kind = .judgement) (hjudge : ∀ a, FaultsInJudgement (judge a)) :
    FaultsInJudgement (x >>= judge) := by
  intro f hf
  cases x with
  | error g =>
    cases hf
    exact hx f rfl
  | ok a => exact hjudge a f hf

theorem faultsInJudgement_judge (facts : Facts) (r : Rule) : FaultsInJudgement (r.judge facts) := by
  induction r with
  | comparison c field wanted =>
    intro f hf
    rw [judge] at hf
    split at hf
    · cases hf
    · cases hf
      rfl
  | join c left right ihl ihr =>
    rw [judge]
    refine faultsInJudgement_bind ihl fun l => ?_
    refine faultsInJudgement_bind ihr fun r f hf => ?_
    cases hf

theorem kind_of_mapError {ε α : Type} {x : Except ε α} {problem : ε → DecodingProblem} {f : Fault}
    (h : (x.mapError fun e => Fault.unjudgeable (problem e)) = .error f) : f.kind = .judgement := by
  cases x with
  | ok a => cases h
  | error e =>
    cases h
    rfl

theorem faultsInJudgement_judgeText (facts : Facts) (text : String) :
    FaultsInJudgement (judgeText facts text) :=
  faultsInJudgement_bind (fun _ => kind_of_mapError) (faultsInJudgement_judge facts)

theorem faultsInJudgement_judgeEncoded (facts : Facts) (j : Json) :
    FaultsInJudgement (judgeEncoded facts j) :=
  faultsInJudgement_bind (fun _ => kind_of_mapError) (faultsInJudgement_judge facts)

theorem judgeText_eq_ok {facts : Facts} {b : Bool} :
    judgeText facts text = .ok b ↔ ∃ r, decode text = .ok r ∧ r.judge facts = .ok b := by
  simp only [judgeText, Outcome.bind_eq_ok, Outcome.mapError_eq_ok]

theorem judgeEncoded_eq_ok {facts : Facts} {b : Bool} :
    judgeEncoded facts j = .ok b ↔ ∃ r, ofJson j = .ok r ∧ r.judge facts = .ok b := by
  simp only [judgeEncoded, Outcome.bind_eq_ok, Outcome.mapError_eq_ok]

theorem judgeText_of_decode {r : Rule} (h : decode text = .ok r) (facts : Facts) :
    judgeText facts text = r.judge facts := by
  rw [judgeText, h]
  rfl

theorem judgeEncoded_of_ofJson {r : Rule} (h : ofJson j = .ok r) (facts : Facts) :
    judgeEncoded facts j = r.judge facts := by
  rw [judgeEncoded, h]
  rfl

theorem agree_of_decode {text text' : String} (h : ∀ r, decode text = .ok r ↔ decode text' = .ok r)
    (facts : Facts) : Agree (judgeText facts text) (judgeText facts text') := by
  refine agree_of_ok_iff (faultsInJudgement_judgeText facts _)
    (faultsInJudgement_judgeText facts _) fun b => ?_
  simp only [judgeText_eq_ok, h]

/-- A text that spells a value without repeated names is judged as the value is: both have the same
truth or are refused, both are judged by the same rule if there is one, and any other order of the
members makes no difference. -/
theorem judgeText_agrees (h : ofText text = .ok j) (hj : j.NamesOnce) :
    (∀ facts, Agree (judgeText facts text) (judgeEncoded facts j)) ∧
    (∀ r, (decode text = .ok r ↔ ofJson j = .ok r) ∧
      (decode text = .ok r → ∀ facts, judgeText facts text = r.judge facts ∧
        judgeEncoded facts j = r.judge facts)) ∧
    ∀ text' j', ofText text' = .ok j' → j.Reorders j' →
      (∀ r, decode text = .ok r ↔ decode text' = .ok r) ∧
      ∀ facts, Agree (judgeText facts text) (judgeText facts text') ∧
        judgeEncoded facts j = judgeEncoded facts j' := by
  have hdecode : ∀ r, decode text = .ok r ↔ ofJson j = .ok r := fun r =>
    decode_eq_ok_iff_ofJson h hj
  refine ⟨fun facts => ?_, fun r => ⟨hdecode r, fun hr facts => ?_⟩, fun text' j' h' hreorders => ?_⟩
  · refine agree_of_ok_iff (faultsInJudgement_judgeText facts _)
      (faultsInJudgement_judgeEncoded facts _) fun b => ?_
    simp only [judgeText_eq_ok, judgeEncoded_eq_ok, hdecode]
  · exact ⟨judgeText_of_decode hr facts, judgeEncoded_of_ofJson ((hdecode r).1 hr) facts⟩
  · obtain ⟨hj', hcanonical⟩ := hreorders.canonical_eq hj
    have hofJson : ofJson j = ofJson j' := congrArg (decodeValue false) hcanonical
    have hdecode' : ∀ r, decode text = .ok r ↔ decode text' = .ok r := fun r => by
      rw [hdecode, hofJson, decode_eq_ok_iff_ofJson h' hj']
    refine ⟨hdecode', fun facts => ⟨agree_of_decode hdecode' facts, ?_⟩⟩
    rw [judgeEncoded, judgeEncoded, hofJson]

/-- The type stands at the end, one side is an array with a number for its type, and a member that is
no part holds an object; in the other text the type stands first. -/
theorem judgeText_agrees_unordered :
    ∃ (j j' : Json) (r : Rule) (facts : Facts),
      ofText j.compact = .ok j ∧ j.NamesOnce ∧ ofText j'.compact = .ok j' ∧ j.Reorders j' ∧
      j ≠ j' ∧ ofJson j = .ok r ∧ decode j'.compact = .ok r ∧
      judgeText facts j.compact = .ok true ∧
      Agree (judgeText facts j.compact) (judgeEncoded facts j) := by
  let left : String × Json := ("left", .array [.number (.integer 1), .object [("=", .null)],
    .string "name", .string "Ada"])
  let right : String × Json := ("right", .object [("value", .number (.integer 30)),
    ("operator", .string ">"), ("type", .string "operand"), ("field", .string "age")])
  let note : String × Json := ("note", .object [("b", .array []), ("a", .null)])
  let note' : String × Json := ("note", .object [("a", .null), ("b", .array [])])
  let connective : String × Json := ("operator", .string "OR")
  let type : String × Json := ("type", .string "operator")
  let j : Json := .object [right, note, left, connective, type]
  let j' : Json := .object [type, right, note', left, connective]
  let r : Rule := .join .or (.comparison .equal "name" (.text "Ada"))
    (.comparison .greater "age" (.number (Json.Number.integer 30).toBinary64))
  let facts : Facts := Table.ofPairs [("age", .number (Json.Number.integer 20).toBinary64),
    ("name", .text "Ada")]
  have h : ofText j.compact = .ok j := Json.ofText_compact.2 ⟨by decide +kernel, by decide⟩
  have h' : ofText j'.compact = .ok j' := Json.ofText_compact.2 ⟨by decide +kernel, by decide⟩
  have hj : j.NamesOnce := by
    simp [j, left, right, note, connective, type, Json.NamesOnce, Json.MembersNamedOnce,
      Json.ItemsNamedOnce]
  have hnote : Json.Reorders note.2 note'.2 := .perm (.swap _ _ _)
  have hreorders : j.Reorders j' :=
    .trans (.member [right] "note" [left, connective, type] hnote)
      (.perm (List.perm_append_singleton type [right, note', left, connective]))
  have hne : j ≠ j' := by simp [j, j', right, type]
  have hdecode : decode j.compact = .ok r :=
    (decode_eq_ok h).2 (toOption_eq_some.1 (by decide +kernel))
  obtain ⟨hagree, hrule, horder⟩ := judgeText_agrees h hj
  have hjudge := ((hrule r).2 hdecode facts).1
  refine ⟨j, j', r, facts, h, hj, h', hreorders, hne, (hrule r).1.1 hdecode,
    ((horder _ j' h' hreorders).1 r).1 hdecode, hjudge.trans ?_, hagree facts⟩
  exact toOption_eq_some.1 (by decide +kernel)

/-- A name that stands twice is refused where it is read, and the last one counts in a dictionary. -/
example :
    let j : Json := .object [("type", .string "operand"), ("operator", .string "="),
      ("field", .string "a"), ("field", .string "b"), ("value", .string "x")]
    take j.tokens = .error (.repeatedField "field") ∧
      ofJson j = .ok (.comparison .equal "b" (.text "x")) :=
  ⟨rfl, rfl⟩

end Rule

end Rulebook
