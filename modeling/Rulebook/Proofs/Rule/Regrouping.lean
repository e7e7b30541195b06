import Rulebook.Proofs.Rule.Conjunction
import Rulebook.Proofs.Rule.Truth

/-!
# Judging a conjunction

A conjunction is joined from the left, but it is judged as the list of its parts: the first part that
cannot be judged gives the fault, and otherwise all parts have to hold (`Rule.judge_of_conjunction`).
Only the parts and their order count. So it makes no difference if some of them were joined before
(`Rule.Regroups.judgeAll_eq`).
-/

namespace Rulebook.Rule

variable {facts : Facts} {parts rules : List Rule} {whole : Rule}

/-! ### Judging the parts -/

/-- Whether all of some rules hold. The fault of the first rule that has one comes before all truths. -/
def judgeAll (facts : Facts) : List Rule → Except Fault Bool
  | [] => .ok true
  | r :: rules => do
    let b ← r.judge facts
    let all ← judgeAll facts rules
    return b && all

theorem judgeAll_append (facts : Facts) (rules others : List Rule) :
    judgeAll facts (rules ++ others) = (do
      let a ← judgeAll facts rules
      let b ← judgeAll facts others
      return a && b) := by
  induction rules with
  | nil =>
    rw [List.nil_append]
    cases hothers : judgeAll facts others <;> rfl
  | cons r rules ih =>
    rw [List.cons_append, judgeAll, judgeAll, ih]
    cases r.judge facts with
    | error fault => rfl
    | ok b =>
      cases judgeAll facts rules with
      | error fault => rfl
      | ok a =>
        cases judgeAll facts others with
        | error fault => rfl
        | ok c => exact congrArg Except.ok (Bool.and_assoc b a c).symm

theorem judgeAll_singleton (facts : Facts) (r : Rule) : judgeAll facts [r] = r.judge facts := by
  rw [judgeAll, judgeAll]
  cases r.judge facts with
  | error fault => rfl
  | ok b => exact congrArg Except.ok (Bool.and_true b)

theorem judgeAll_cons_eq_error {r : Rule} {fault : Fault} :
    judgeAll facts (r :: rules) = .error fault ↔
      r.judge facts = .error fault ∨
        ∃ b, r.judge facts = .ok b ∧ judgeAll facts rules = .error fault := by
  rw [judgeAll, Outcome.bind_eq_error]
  refine or_congr_right (exists_congr fun b => and_congr_right fun _ => ?_)
  rw [Outcome.bind_eq_error, or_iff_left]
  intro ⟨all, _, h⟩
  cases h

/-- The fault of some rules is that of the first rule that cannot be judged. -/
theorem judgeAll_eq_error {fault : Fault} : judgeAll facts rules = .error fault ↔
    ∃ before part after, rules = before ++ part :: after ∧
      (∀ r ∈ before, ∃ b, r.judge facts = .ok b) ∧ part.judge facts = .error fault := by
  induction rules with
  | nil => simp [judgeAll]
  | cons r rules ih =>
    rw [judgeAll_cons_eq_error]
    constructor
    · intro h
      obtain h | ⟨b, hb, h⟩ := h
      · exact ⟨[], r, rules, rfl, by simp, h⟩
      · obtain ⟨before, part, after, rfl, hbefore, hpart⟩ := ih.1 h
        exact ⟨r :: before, part, after, rfl, List.forall_mem_cons.2 ⟨⟨b, hb⟩, hbefore⟩, hpart⟩
    · intro ⟨before, part, after, hsplit, hbefore, hpart⟩
      cases before with
      | nil =>
        cases hsplit
        exact Or.inl hpart
      | cons first before =>
        cases hsplit
        obtain ⟨⟨b, hb⟩, hbefore⟩ := List.forall_mem_cons.1 hbefore
        exact Or.inr ⟨b, hb, ih.2 ⟨before, part, after, rfl, hbefore, hpart⟩⟩

theorem truths_of_judgeAll {b : Bool} (h : judgeAll facts rules = .ok b) :
    (∀ r ∈ rules, ∃ t, r.judge facts = .ok t) ∧
      (b = true ↔ ∀ r ∈ rules, r.judge facts = .ok true) := by
  induction rules generalizing b with
  | nil =>
    cases h
    simp
  | cons r rules ih =>
    rw [judgeAll] at h
    obtain ⟨t, ht, h⟩ := Outcome.bind_eq_ok.1 h
    obtain ⟨all, hall, h⟩ := Outcome.bind_eq_ok.1 h
    cases h
    obtain ⟨hrules, htrue⟩ := ih hall
    have hfirst : r.judge facts = .ok true ↔ t = true := by rw [ht, Except.ok.injEq]
    rw [List.forall_mem_cons, List.forall_mem_cons, Bool.and_eq_true, htrue, hfirst]
    exact ⟨⟨⟨t, ht⟩, hrules⟩, Iff.rfl⟩

/-- Some rules have a truth if each of them has one, and it is whether all hold. -/
theorem judgeAll_eq_ok {b : Bool} : judgeAll facts rules = .ok b ↔
    (∀ r ∈ rules, ∃ t, r.judge facts = .ok t) ∧
      (b = true ↔ ∀ r ∈ rules, r.judge facts = .ok true) := by
  refine ⟨truths_of_judgeAll, fun ⟨hrules, hb⟩ => ?_⟩
  cases hall : judgeAll facts rules with
  | error fault =>
    obtain ⟨before, part, after, rfl, -, hpart⟩ := judgeAll_eq_error.1 hall
    obtain ⟨t, ht⟩ := hrules part (by simp)
    cases hpart.symm.trans ht
  | ok c =>
    have hc := (truths_of_judgeAll hall).2
    rw [Bool.eq_iff_iff.2 (hc.trans hb.symm)]

/-! ### Judging the whole -/

theorem judge_foldl (facts : Facts) (rest : List Rule) (first : Rule) :
    (rest.foldl (join .and) first).judge facts = judgeAll facts (first :: rest) := by
  induction rest generalizing first with
  | nil => exact (judgeAll_singleton facts first).symm
  | cons r rest ih =>
    have hjoin : (join .and first r).judge facts = judgeAll facts [first, r] := by
      rw [judgeAll, judgeAll_singleton]
      rfl
    calc (rest.foldl (join .and) (join .and first r)).judge facts
        = judgeAll facts (join .and first r :: rest) := ih _
      _ = judgeAll facts ([first, r] ++ rest) := by rw [judgeAll_append, ← hjoin, judgeAll]

theorem judge_of_conjunction (h : conjunction rules = .ok whole) (facts : Facts) :
    whole.judge facts = judgeAll facts rules := by
  obtain ⟨first, rest, rfl, rfl⟩ := conjunction_eq_ok.1 h
  exact judge_foldl facts rest first

theorem comparisons_foldl (rest : List Rule) (first : Rule) :
    (rest.foldl (join .and) first).comparisons = (first :: rest).flatMap comparisons := by
  induction rest generalizing first with
  | nil => simp
  | cons r rest ih => rw [List.foldl_cons, ih, List.flatMap_cons, List.flatMap_cons, List.flatMap_cons,
      comparisons, List.append_assoc]

/-- Joining some rules within a limit and judging what comes of it. -/
theorem conjunctionWithin_bind_judge (limit : Nat) (rules : List Rule) (facts : Facts) :
    (conjunctionWithin limit rules >>= judge facts) =
      if limit < totalCount rules then .error (.tooManyTerms (totalCount rules) limit)
      else if rules = [] then .error .nothingToJoin
      else judgeAll facts rules := by
  unfold conjunctionWithin
  split
  · rfl
  · cases rules with
    | nil => rfl
    | cons first rest => exact judge_foldl facts rest first

/-! ### Regrouping -/

/-- Some neighbours among the parts were joined, and perhaps what came of it with its neighbours again;
the order stayed. -/
inductive Regroups (parts : List Rule) : List Rule → Prop where
  | refl : Regroups parts parts
  | join {before group after : List Rule} {joined : Rule} :
      Regroups parts (before ++ group ++ after) → conjunction group = .ok joined →
        Regroups parts (before ++ joined :: after)

namespace Regroups

theorem judgeAll_eq (h : Regroups parts rules) (facts : Facts) :
    judgeAll facts rules = judgeAll facts parts := by
  induction h with
  | refl => rfl
  | @join before group after joined _ hjoined ih =>
    have hgroup : judgeAll facts [joined] = judgeAll facts group := by
      rw [judgeAll_singleton, judge_of_conjunction hjoined]
    rw [← ih, List.append_assoc, ← List.singleton_append, judgeAll_append, judgeAll_append,
      judgeAll_append, judgeAll_append, hgroup]

theorem totalCount_eq (h : Regroups parts rules) : totalCount rules = totalCount parts := by
  induction h with
  | refl => rfl
  | @join before group after joined _ hjoined ih =>
    obtain ⟨first, rest, rfl, rfl⟩ := conjunction_eq_ok.1 hjoined
    rw [← ih]
    simp [totalCount_eq_sum, count_foldl, Nat.add_assoc]

theorem eq_nil_iff (h : Regroups parts rules) : rules = [] ↔ parts = [] := by
  induction h with
  | refl => rfl
  | @join before group after joined _ hjoined ih =>
    obtain ⟨first, rest, rfl, rfl⟩ := conjunction_eq_ok.1 hjoined
    rw [← ih]
    simp

theorem judge_eq (h : Regroups parts rules) (limit : Nat) (facts : Facts) :
    (conjunctionWithin limit rules >>= judge facts) =
      (conjunctionWithin limit parts >>= judge facts) := by
  simp only [conjunctionWithin_bind_judge, h.judgeAll_eq facts, h.totalCount_eq, h.eq_nil_iff]

end Regroups

/-- Joining fails if there are no rules or too many comparisons in them. Otherwise it gives the
conjunction, with the comparisons of the rules in their order; the conjunction has the fault of the
first rule that cannot be judged, or else holds exactly if all rules hold. Joining some neighbours
beforehand changes neither the outcome of joining and judging nor its fault. -/
theorem conjunctionWithin_reference (limit : Nat) (rules : List Rule) :
    (rules = [] ∨ limit < (rules.map count).sum →
      ∃ fault, conjunctionWithin limit rules = .error fault ∧ fault.kind = .joining) ∧
    (rules ≠ [] → (rules.map count).sum ≤ limit →
      ∃ whole, conjunctionWithin limit rules = .ok whole ∧ conjunction rules = .ok whole ∧
        whole.comparisons = rules.flatMap comparisons ∧ whole.count = (rules.map count).sum ∧
        ∀ facts,
          (∀ fault, whole.judge facts = .error fault ↔
            ∃ before part after, rules = before ++ part :: after ∧
              (∀ r ∈ before, ∃ b, r.judge facts = .ok b) ∧ part.judge facts = .error fault) ∧
          ∀ b, whole.judge facts = .ok b ↔
            (∀ r ∈ rules, ∃ t, r.judge facts = .ok t) ∧
              (b = true ↔ ∀ r ∈ rules, r.judge facts = .ok true)) ∧
    ∀ regrouped, Regroups rules regrouped → ∀ facts,
      (conjunctionWithin limit regrouped >>= judge facts) =
        (conjunctionWithin limit rules >>= judge facts) := by
  refine ⟨?_, ?_, fun regrouped h facts => h.judge_eq limit facts⟩
  · intro h
    unfold conjunctionWithin
    rw [totalCount_eq_sum]
    split
    · exact ⟨_, rfl, rfl⟩
    · next hle =>
      obtain rfl : rules = [] := h.resolve_right hle
      exact ⟨_, rfl, rfl⟩
  · intro hne hle
    obtain ⟨first, rest, rfl⟩ := List.exists_cons_of_ne_nil hne
    have hwhole : conjunction (first :: rest) = .ok (rest.foldl (join .and) first) := rfl
    rw [← totalCount_eq_sum] at hle ⊢
    refine ⟨_, conjunctionWithin_eq_ok.2 ⟨hle, hwhole⟩, hwhole, comparisons_foldl rest first,
      count_foldl rest first, fun facts => ⟨fun fault => ?_, fun b => ?_⟩⟩
    · rw [judge_of_conjunction hwhole, judgeAll_eq_error]
    · rw [judge_of_conjunction hwhole, judgeAll_eq_ok]

/-- The last two of three rules are joined first. The field of the middle one is unknown, and it is
reported though the first rule fails. -/
theorem conjunctionWithin_reference_three :
    let a : Rule := .comparison .equal "a" (.text "x")
    let b : Rule := .comparison .less "b" (.text "y")
    let c : Rule := .comparison .greater "c" (.text "z")
    let facts : Facts := Table.ofPairs [("a", .text "y"), ("d", .text "z")]
    ∃ joined, conjunction [b, c] = .ok joined ∧ Regroups [a, b, c] [a, joined] ∧
      (conjunctionWithin 3 [a, joined] >>= judge facts) = .error (.unknownField "b") := by
  intro a b c facts
  have hregroups : Regroups [a, b, c] [a, .join .and b c] :=
    @Regroups.join _ [a] [b, c] [] _ .refl rfl
  refine ⟨.join .and b c, rfl, hregroups, ?_⟩
  rw [(conjunctionWithin_reference 3 [a, b, c]).2.2 _ hregroups facts]
  rfl

end Rulebook.Rule
