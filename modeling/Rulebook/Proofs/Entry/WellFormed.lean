import Rulebook.Proofs.Entry.Encoded
import Rulebook.Proofs.Grammar.Reprint
import Rulebook.Proofs.Json.Finite
import Rulebook.Proofs.Json.Peak
import Rulebook.Proofs.Rule.Readings

/-!
# Decoded rules are well formed

Whatever text a rule is decoded from, every comparison in it names a field, every number in it is
finite, and it has no more levels than encoded rules may have: a rule has no more levels than the value
that encodes it has containers (`Rule.wellFormed_of_decodeValue`). The same holds of the rule of a decoded
entry, and a text from which nothing is decoded is refused as an encoded rule (`decoded_wellFormed`).
-/

namespace Rulebook

open Json (Token peak)

namespace Rule

/-! ### Rules of values -/

/-- Every comparison names a field, and every number is finite. -/
def IsWellFormed (r : Rule) : Prop := r.ForAll fun _ field value => field ≠ "" ∧ value.IsFinite

theorem ne_empty_of_fieldPart {part : Json} {field : String} (h : fieldPart part = .ok field) :
    field ≠ "" := by
  cases part with
  | string s =>
    obtain ⟨hne, rfl⟩ := fieldPart_eq_ok.1 h
    exact hne
  | _ => cases h

theorem isFinite_of_valuePart {part : Json} {value : Value} (h : valuePart part = .ok value)
    (hfinite : ∀ t ∈ part.tokens, t.IsFinite) : value.IsFinite := by
  cases part with
  | number n =>
    cases h
    exact hfinite _ (List.mem_singleton_self _)
  | string s =>
    cases h
    trivial
  | _ => cases h

/-- A value without infinite numbers encodes a rule of at most as many levels as it has. -/
theorem wellFormed_of_decodeValue {inside : Bool} {j : Json} {r : Rule}
    (h : decodeValue inside j = .ok r) (hfinite : ∀ t ∈ j.tokens, t.IsFinite) :
    r.IsWellFormed ∧ r.depth ≤ j.depth := by
  induction r generalizing inside j with
  | comparison c field value =>
    obtain ⟨⟨_, htype, -⟩, -, ⟨_, -, hfield⟩, ⟨part, hpart, hvalue⟩⟩ := decodeValue_eq_ok.1 h
    have hpartFinite : ∀ t ∈ part.tokens, t.IsFinite := fun t ht => hfinite t (hpart.mem_tokens ht)
    have hlevel := htype.depth_lt
    exact ⟨⟨ne_empty_of_fieldPart hfield, isFinite_of_valuePart hvalue hpartFinite⟩,
      Nat.succ_le_of_lt (Nat.zero_lt_of_lt hlevel)⟩
  | join c left right ihl ihr =>
    obtain ⟨-, -, ⟨l, hl, hleft⟩, ⟨r, hr, hright⟩⟩ := decodeValue_eq_ok.1 h
    obtain ⟨hleftFormed, hleftDepth⟩ := ihl hleft fun t ht => hfinite t (hl.mem_tokens ht)
    obtain ⟨hrightFormed, hrightDepth⟩ := ihr hright fun t ht => hfinite t (hr.mem_tokens ht)
    have hl' := hl.depth_lt
    have hr' := hr.depth_lt
    refine ⟨⟨hleftFormed, hrightFormed⟩, ?_⟩
    rw [depth]
    omega

/-- A rule that is taken from tokens has no more levels than these open containers. -/
theorem wellFormed_of_take {tokens rest : List Token} {r : Rule} {opened limit : Nat}
    (h : take tokens = .ok (r, rest)) (hfinite : ∀ t ∈ tokens, t.IsFinite)
    (hpeak : peak opened tokens ≤ opened + limit) : r.IsWellFormed ∧ r.depth ≤ limit := by
  obtain ⟨j, rfl, hdecode⟩ := take_eq_ok.1 h
  obtain ⟨hformed, hdepth⟩ :=
    wellFormed_of_decodeValue hdecode fun t ht => hfinite t (List.mem_append_left _ ht)
  rw [Json.peak_shows (Json.shows_loose_self j)] at hpeak
  exact ⟨hformed, by omega⟩

end Rule

/-! ### Rules of entries -/

namespace Entry

/-- What stays true while an entry is read: the numbers of the tokens that are left are finite, these
open no more containers than the limit, and the rule that has been read, if any, is well formed. -/
structure Sound (limit : Nat) (parts : Parts) (tokens : List Token) : Prop where
  isFinite : ∀ t ∈ tokens, t.IsFinite
  peak_le : peak 1 tokens ≤ 1 + limit
  rule : ∀ r, parts.rule = some r → r.IsWellFormed ∧ r.depth ≤ limit

variable {limit : Nat} {parts parts' : Parts} {tokens rest : List Token}

theorem Sound.tail {t : Token} (h : Sound limit parts (t :: tokens)) (ht : t.openAfter 1 = 1) :
    Sound limit parts tokens where
  isFinite u hu := h.isFinite u (List.mem_cons_of_mem _ hu)
  peak_le := by
    have hpeak := h.peak_le
    rw [Json.peak_cons, ht] at hpeak
    exact (Nat.le_max_right _ _).trans hpeak
  rule := h.rule

theorem rule_of_take {field : Field} (h : parts.take field tokens = .ok (parts', rest)) {r : Rule}
    (hr : parts'.rule = some r) : parts.rule = some r ∨ Rule.take tokens = .ok (r, rest) := by
  cases field with
  | rule =>
    obtain ⟨⟨r', rest'⟩, hrule, h⟩ := Outcome.bind_eq_ok.1 h
    cases h
    cases hr
    exact Or.inr hrule
  | _ =>
    obtain ⟨⟨a, rest'⟩, -, h⟩ := Outcome.bind_eq_ok.1 h
    cases h
    exact Or.inl hr

theorem Sound.after {taken : List Token} {j : Json} (h : Sound limit parts (taken ++ rest))
    (hshows : Json.Shows Json.Grade.loose taken j.tokens)
    (hrule : ∀ r, parts'.rule = some r →
      parts.rule = some r ∨ Rule.take (taken ++ rest) = .ok (r, rest)) :
    Sound limit parts' rest where
  isFinite t ht := h.isFinite t (List.mem_append_right _ ht)
  peak_le := by
    have hpeak := h.peak_le
    rw [Json.peak_shows hshows] at hpeak
    exact (Nat.le_max_right _ _).trans hpeak
  rule r hr := by
    obtain hold | hnew := hrule r hr
    · exact h.rule r hold
    · exact Rule.wellFormed_of_take hnew h.isFinite h.peak_le

theorem Sound.take {field : Field} (h : Sound limit parts tokens)
    (htake : parts.take field tokens = .ok (parts', rest)) : Sound limit parts' rest := by
  obtain ⟨taken, j, rfl, hshows⟩ := takesValue_take parts field _ _ _ htake
  exact h.after hshows fun r hr => rule_of_take htake hr

theorem kept_takeMember : Json.KeptByMembers (Sound limit) takeMember where
  name h := h.tail rfl
  member h hread := by
    obtain ⟨tokens', rfl, ⟨field, htake⟩ | ⟨hskip, rfl⟩⟩ := part_of_takeMember hread
    · exact (h.tail rfl).take htake
    · obtain ⟨taken, j, rfl, hshows⟩ := takesValue_skip _ _ _ hskip
      exact (h.tail rfl).after hshows fun r hr => Or.inl hr
  comma h := h.tail rfl

theorem kept_takeItem :
    Json.KeptByElements (fun state tokens => Sound limit state.1 tokens) takeItem where
  element {state} _ _ _ h hread := by
    obtain ⟨parts, _ | ⟨field, fields⟩⟩ := state
    · cases hread
    · obtain ⟨⟨parts', rest'⟩, htake, hread⟩ := Outcome.bind_eq_ok.1 hread
      cases hread
      exact h.take htake
  comma h := h.tail rfl

theorem rule_of_finish {missing : Field → Json.Complaint} {e : Entry}
    (h : parts.finish missing = .ok e) : parts.rule = some e.rule := by
  obtain ⟨id, -, h⟩ := Outcome.bind_eq_ok.1 h
  obtain ⟨name, -, h⟩ := Outcome.bind_eq_ok.1 h
  obtain ⟨r, hr, h⟩ := Outcome.bind_eq_ok.1 h
  obtain ⟨createdAt, -, h⟩ := Outcome.bind_eq_ok.1 h
  obtain ⟨updatedAt, -, h⟩ := Outcome.bind_eq_ok.1 h
  cases h
  simp only at hr
  split at hr
  · next hsome =>
    cases hr
    exact hsome
  · cases hr

/-- The rule of an entry that is taken from tokens stands one level below it. -/
theorem wellFormed_of_take {e : Entry} (h : take tokens = .ok (e, rest))
    (hfinite : ∀ t ∈ tokens, t.IsFinite) (hpeak : peak 0 tokens ≤ limit + 1) :
    e.rule.IsWellFormed ∧ e.rule.depth ≤ limit := by
  have hsound : ∀ {t ts}, tokens = t :: ts → t.openAfter 0 = 1 → Sound limit {} ts := by
    rintro t ts rfl ht
    refine ⟨fun u hu => hfinite u (List.mem_cons_of_mem _ hu), ?_, fun r hr => by cases hr⟩
    rw [Json.peak_cons, ht] at hpeak
    omega
  unfold take at h
  split at h
  · obtain ⟨⟨parts, rest'⟩, hmembers, h⟩ := Outcome.bind_eq_ok.1 h
    obtain ⟨e', hfinish, h⟩ := Outcome.bind_eq_ok.1 h
    cases h
    exact (kept_takeMember.of_members (hsound rfl rfl) hmembers).rule _ (rule_of_finish hfinish)
  · obtain ⟨⟨⟨parts, fields⟩, rest'⟩, helements, h⟩ := Outcome.bind_eq_ok.1 h
    obtain ⟨e', hfinish, h⟩ := Outcome.bind_eq_ok.1 h
    cases h
    exact (kept_takeItem.of_elements (hsound rfl rfl) helements).rule _ (rule_of_finish hfinish)
  · obtain ⟨g, -, h⟩ := Outcome.bind_eq_ok.1 h
    cases h

end Entry

/-! ### Rules of texts -/

theorem Rule.wellFormed_of_load {text : String} {r : Rule} (h : Rule.load text = .ok r) :
    r.IsWellFormed ∧ r.depth ≤ greatestDepth := by
  obtain ⟨hnesting, htake⟩ := decodeNested_eq_ok.1 (Outcome.mapError_eq_ok.1 h)
  have hpeak := Json.peak_lex_le_nesting text.toList
  have hroom : peak 0 (Json.lex text.toList) ≤ 0 + greatestDepth := by omega
  exact Rule.wellFormed_of_take htake (fun t => Json.isFinite_of_mem_lex) hroom

theorem Entry.wellFormed_of_load {text : String} {e : Entry} (h : Entry.load text = .ok e) :
    e.rule.IsWellFormed ∧ e.rule.depth ≤ greatestDepth := by
  obtain ⟨hnesting, htake⟩ := decodeNested_eq_ok.1 (Outcome.mapError_eq_ok.1 h)
  refine Entry.wellFormed_of_take htake (fun t => Json.isFinite_of_mem_lex) ?_
  have hpeak := Json.peak_lex_le_nesting text.toList
  omega

theorem kind_of_undecodable {α : Type} {x : Except DecodingProblem α} {f : Fault}
    (h : x.mapError Fault.undecodable = .error f) : f.kind = .rule := by
  cases x with
  | ok a => cases h
  | error problem =>
    cases h
    rfl

/-- A rule that is decoded from a text, on its own or in an entry, names a field in every comparison,
has only finite numbers and at most as many levels as encoded rules may have. A text that is refused is
an invalid rule, and judging it fails in the judgement if at all. -/
theorem decoded_wellFormed (text : String) :
    (∀ r, Rule.load text = .ok r →
      r.ForAll (fun _ field value => field ≠ "" ∧ value.IsFinite) ∧ r.depth ≤ greatestDepth) ∧
    (∀ e, Entry.load text = .ok e →
      e.rule.ForAll (fun _ field value => field ≠ "" ∧ value.IsFinite) ∧
        e.rule.depth ≤ greatestDepth) ∧
    (∀ f, Rule.load text = .error f ∨ Entry.load text = .error f → f.kind = .rule) ∧
    ∀ facts f, Rule.judgeText facts text = .error f → f.kind = .judgement := by
  refine ⟨fun r => Rule.wellFormed_of_load, fun e => Entry.wellFormed_of_load, ?_, fun facts => ?_⟩
  · rintro f (h | h)
    · exact kind_of_undecodable h
    · exact kind_of_undecodable h
  · exact Rule.faultsInJudgement_judgeText facts text

/-- One side is an array with a number for its type and a value just below infinity. -/
theorem decoded_wellFormed_mixed :
    ∃ r, Rule.load ("\x7b\"left\":[1,\">\",\"a\",1e308],\"x\":[[\"]\"]],\"operator\":\"OR\",\"right\":" ++
        "[\"operand\",\"=\",\"b\",\"\"],\"type\":\"operator\"\x7d") = .ok r ∧
      r.ForAll (fun _ field value => field ≠ "" ∧ value.IsFinite) ∧ r.depth ≤ greatestDepth := by
  let text := "\x7b\"left\":[1,\">\",\"a\",1e308],\"x\":[[\"]\"]],\"operator\":\"OR\",\"right\":" ++
    "[\"operand\",\"=\",\"b\",\"\"],\"type\":\"operator\"\x7d"
  have h : (Rule.load text).toOption.isSome := by decide +kernel
  obtain ⟨r, hr⟩ := Option.isSome_iff_exists.1 h
  have hload := Rule.toOption_eq_some.1 hr
  exact ⟨r, hload, (decoded_wellFormed text).1 r hload⟩

end Rulebook
