import Mathlib.Data.List.Basic
import Rulebook.Proofs.Outcome
import Rulebook.Proofs.Rule.Ordering

/-!
# The truth of a rule

What a rule comes to can be said without judging it step by step. If the facts know all its fields, it
comes to its truth: the truths of its comparisons, joined along the tree (`Rule.truth`). Otherwise the
first unknown field from the left is reported, whatever the rest of the rule comes to. Judging gives
just that (`Rule.judge_eq_verdict`), so it looks at nothing but the fields that the rule names.
-/

namespace Rulebook

/-! ### What facts say -/

namespace Facts

/-- The facts say something about a field. -/
def Knows (facts : Facts) (field : String) : Prop := (facts.find? field).isSome

instance (facts : Facts) (field : String) : Decidable (facts.Knows field) :=
  inferInstanceAs (Decidable (_ = true))

/-- The facts bear a comparison out. -/
def confirms (facts : Facts) (c : Comparison) (field : String) (wanted : Value) : Bool :=
  (facts.find? field).any fun actual => c.holds actual wanted

/-- Two collections of facts say the same about a field: nothing, one value, or equal numbers. -/
def AgreeOn (a b : Facts) (field : String) : Prop :=
  a.find? field = b.find? field ∨
    ∃ v w, a.find? field = some v ∧ b.find? field = some w ∧ v.same w

variable {a b : Facts} {field : String}

theorem AgreeOn.knows_iff (h : AgreeOn a b field) : a.Knows field ↔ b.Knows field := by
  obtain heq | ⟨v, w, hv, hw, -⟩ := h
  · rw [Knows, Knows, heq]
  · simp [Knows, hv, hw]

theorem AgreeOn.confirms_eq (h : AgreeOn a b field) (c : Comparison) (wanted : Value) :
    a.confirms c field wanted = b.confirms c field wanted := by
  obtain heq | ⟨v, w, hv, hw, hsame⟩ := h
  · rw [confirms, confirms, heq]
  · rw [confirms, confirms, hv, hw]
    exact Comparison.holds_of_same hsame wanted

end Facts

namespace Rule

/-! ### Reading a rule from the left -/

/-- The comparisons in a rule, from the left. -/
def comparisons : Rule → List (Comparison × String × Value)
  | comparison c field wanted => [(c, field, wanted)]
  | join _ left right => left.comparisons ++ right.comparisons

/-- The fields that a rule names, from the left. -/
def fields (r : Rule) : List String := r.comparisons.map fun c => c.2.1

theorem fields_join (c : Connective) (left right : Rule) :
    (join c left right).fields = left.fields ++ right.fields := List.map_append

/-- The truths of the comparisons in a rule, joined as the rule joins them. -/
def truth (holds : Comparison → String → Value → Bool) : Rule → Bool
  | comparison c field wanted => holds c field wanted
  | join .and left right => left.truth holds && right.truth holds
  | join .or left right => left.truth holds || right.truth holds

theorem truth_join (holds : Comparison → String → Value → Bool) (c : Connective) (left right : Rule) :
    (join c left right).truth holds = c.apply (left.truth holds) (right.truth holds) := by
  cases c <;> rfl

/-- The first field of a rule, from the left, that the facts do not know. -/
def unknownField? (facts : Facts) (r : Rule) : Option String :=
  r.fields.find? fun field => ¬ facts.Knows field

/-- What a rule should come to: the first unknown field is a fault, and if all fields are known, the
rule has its truth. -/
def verdict (facts : Facts) (r : Rule) : Except Fault Bool :=
  match r.unknownField? facts with
  | some field => .error (.unknownField field)
  | none => .ok (r.truth facts.confirms)

/-! ### Judging -/

variable {facts : Facts} {r : Rule} {field : String}

theorem unknownField?_join (facts : Facts) (c : Connective) (left right : Rule) :
    (join c left right).unknownField? facts =
      (left.unknownField? facts).or (right.unknownField? facts) := by
  rw [unknownField?, fields_join, List.find?_append]
  rfl

theorem unknownField?_eq_none : r.unknownField? facts = none ↔ ∀ field ∈ r.fields, facts.Knows field := by
  simp [unknownField?, List.find?_eq_none]

theorem unknownField?_eq_some : r.unknownField? facts = some field ↔
    ∃ before after, r.fields = before ++ field :: after ∧ (∀ f ∈ before, facts.Knows f) ∧
      ¬ facts.Knows field := by
  rw [unknownField?, List.find?_eq_some_iff_append]
  constructor
  · intro ⟨hfield, before, after, hfields, hbefore⟩
    refine ⟨before, after, hfields, fun f hf => ?_, of_decide_eq_true hfield⟩
    simpa using hbefore f hf
  · intro ⟨before, after, hfields, hbefore, hfield⟩
    refine ⟨decide_eq_true hfield, before, after, hfields, fun f hf => ?_⟩
    simpa using hbefore f hf

theorem judge_eq_verdict (facts : Facts) (r : Rule) : r.judge facts = r.verdict facts := by
  induction r with
  | comparison c field wanted =>
    rw [judge]
    cases hfind : facts.find? field with
    | none =>
      have hunknown : unknownField? facts (comparison c field wanted) = some field :=
        List.find?_cons_of_pos (by simp [Facts.Knows, hfind])
      rw [verdict, hunknown]
    | some actual =>
      have hknown : unknownField? facts (comparison c field wanted) = none :=
        unknownField?_eq_none.2 (by simp [fields, comparisons, Facts.Knows, hfind])
      rw [verdict, hknown, truth, Facts.confirms, hfind]
      rfl
  | join c left right ihl ihr =>
    -- the fault of the left side comes first, and that of the right side comes before the truth
    rw [judge, ihl, ihr, verdict, verdict, verdict, unknownField?_join, truth_join]
    cases left.unknownField? facts with
    | some field => rfl
    | none => cases right.unknownField? facts <;> rfl

theorem unknownField?_congr {a b : Facts} (h : ∀ field ∈ r.fields, a.AgreeOn b field) :
    r.unknownField? a = r.unknownField? b := by
  induction r with
  | comparison c field wanted =>
    have hknows := (h field (List.mem_singleton_self _)).knows_iff
    simp only [unknownField?, fields, comparisons, List.map_cons, List.map_nil, List.find?_cons,
      List.find?_nil, hknows]
  | join c left right ihl ihr =>
    rw [fields_join] at h
    rw [unknownField?_join, unknownField?_join, ihl fun f hf => h f (List.mem_append_left _ hf),
      ihr fun f hf => h f (List.mem_append_right _ hf)]

theorem truth_congr {holds holds' : Comparison → String → Value → Bool}
    (h : ∀ c ∈ r.comparisons, holds c.1 c.2.1 c.2.2 = holds' c.1 c.2.1 c.2.2) :
    r.truth holds = r.truth holds' := by
  induction r with
  | comparison c field wanted => exact h _ (List.mem_singleton_self _)
  | join c left right ihl ihr =>
    rw [truth_join, truth_join, ihl fun c hc => h c (List.mem_append_left _ hc),
      ihr fun c hc => h c (List.mem_append_right _ hc)]

theorem verdict_congr {a b : Facts} (h : ∀ field ∈ r.fields, a.AgreeOn b field) :
    r.verdict a = r.verdict b := by
  have htruth : r.truth a.confirms = r.truth b.confirms := by
    apply truth_congr
    intro c hc
    exact (h _ (List.mem_map_of_mem hc)).confirms_eq c.1 c.2.2
  rw [verdict, verdict, unknownField?_congr h, htruth]

/-- A rule whose fields are all known comes to its truth. Otherwise the fault names the first unknown
field from the left, even if the other fields would decide the rule. Facts that agree on the fields of
the rule give the same truth or the same fault. -/
theorem judge_reference (r : Rule) (facts : Facts) :
    ((∀ field ∈ r.fields, facts.Knows field) → r.judge facts = .ok (r.truth facts.confirms)) ∧
    ((¬ ∀ field ∈ r.fields, facts.Knows field) →
      ∃ before field after, r.fields = before ++ field :: after ∧ (∀ f ∈ before, facts.Knows f) ∧
        ¬ facts.Knows field ∧
        ∃ fault, r.judge facts = .error fault ∧ fault.kind = .judgement ∧
          fault.message = "Evaluation error: " ++ ("Field '" ++ field ++ "' not found in data")) ∧
    ∀ others, (∀ field ∈ r.fields, facts.AgreeOn others field) → r.judge facts = r.judge others := by
  simp only [judge_eq_verdict]
  refine ⟨fun h => ?_, fun h => ?_, fun others h => verdict_congr h⟩
  · rw [verdict, unknownField?_eq_none.2 h]
  · rw [← unknownField?_eq_none, Option.eq_none_iff_forall_ne_some] at h
    obtain ⟨field, hfield⟩ := Classical.not_forall_not.1 h
    obtain ⟨before, after, hfields, hbefore, hunknown⟩ := unknownField?_eq_some.1 hfield
    refine ⟨before, field, after, hfields, hbefore, hunknown, .unknownField field, ?_, rfl, rfl⟩
    rw [verdict, hfield]

/-- With all fields known a rule has its truth. Without two of them the left one is reported, though
the comparison in front already decides the rule. -/
theorem judge_reference_two_unknown :
    let r : Rule := .join .or (.comparison .equal "a" (.text "x"))
      (.join .and (.comparison .less "b" (.text "y")) (.comparison .atMost "c" (.text "z")))
    let facts : Facts := Table.ofPairs [("c", .text "c"), ("b", .text "b"), ("a", .text "a")]
    let others : Facts := Table.ofPairs [("a", .text "x")]
    (∀ field ∈ r.fields, facts.Knows field) ∧ r.judge facts = .ok true ∧
      (¬ ∀ field ∈ r.fields, others.Knows field) ∧ r.judge others = .error (.unknownField "b") ∧
      ∃ fault, r.judge others = .error fault ∧ fault.kind = .judgement := by
  intro r facts others
  have hknown : ∀ field ∈ r.fields, facts.Knows field := by decide
  have hunknown : ¬ ∀ field ∈ r.fields, others.Knows field := by decide
  have htruth : r.truth facts.confirms = true := by decide
  obtain ⟨-, -, -, -, -, -, fault, hfault, hkind, -⟩ := (judge_reference r others).2.1 hunknown
  refine ⟨hknown, ?_, hunknown, rfl, fault, hfault, hkind⟩
  rw [(judge_reference r facts).1 hknown, htruth]

end Rule

end Rulebook
