import Rulebook.Proofs.Catalog.Contents
import Rulebook.Proofs.Entry.Identifier
import Rulebook.Proofs.Rule.Conjunction

/-!
# Combining entries

Entries are combined by the texts of their identifiers. What can be wrong is looked for in three passes:
a text that spells no identifier, identifiers without an entry, and rules that cannot be joined. The
first pass that finds something gives the fault (`Catalog.Refusal`), and a catalog that has no fault to
report makes one entry of all parts, in their order and with repeats (`Catalog.Joins`). There is no other
answer, and each of these is given where it is due (`Catalog.answer_combine`).
-/

namespace Rulebook.Catalog

/-- Texts spell identifiers, one each. -/
def Spells (texts : List String) (ids : List Identifier) : Prop :=
  List.Forall₂ (fun text id => Identifier.read? text = some id) texts ids

/-- Identifiers have entries, one each. -/
def Lists (c : Catalog) (ids : List Identifier) (parts : List Entry) : Prop :=
  List.Forall₂ (fun id part => c.entries.find? id = some part) ids parts

/-- The number of comparisons in the rules of some entries. -/
def terms (parts : List Entry) : Nat := (parts.map fun part => part.rule.count).sum

/-- Why entries are not combined, by the kind of the fault. -/
inductive Refusal (c : Catalog) (texts : List String) : Fault.Kind → Fault → Prop
  /-- A text spells no identifier, and all texts before it spell one. -/
  | malformed {before after : List String} {bad : String} (htexts : texts = before ++ bad :: after)
    (hbefore : ∀ text ∈ before, (Identifier.read? text).isSome)
    (hbad : Identifier.read? bad = none) : Refusal c texts .rule (.notAnIdentifier bad)
  /-- Some identifiers have no entry. They are reported in their order, with repeats. -/
  | unknown {ids missing : List Identifier} (hids : Spells texts ids)
    (hmissing : missing = ids.filter fun id => id ∉ c.entries.keys) (hne : missing ≠ []) :
    Refusal c texts .unknownEntry (.noEntries missing)
  | empty (htexts : texts = []) : Refusal c texts .joining .nothingToJoin
  /-- The entries, counted with repeats, have too many comparisons. -/
  | tooLarge {ids : List Identifier} {parts : List Entry} (hids : Spells texts ids)
    (hparts : c.Lists ids parts) (hterms : c.limits.terms < terms parts) :
    Refusal c texts .joining (.tooManyTerms (terms parts) c.limits.terms)

/-- What entries are combined to. -/
inductive Joins (c : Catalog) (fresh : Identifier) (now : Instant) (texts : List String) : Entry → Prop
  | all {ids : List Identifier} {first : Entry} {rest : List Entry} (hids : Spells texts ids)
    (hparts : c.Lists ids (first :: rest)) (hterms : terms (first :: rest) ≤ c.limits.terms) :
    Joins c fresh now texts {
      id := fresh
      name := "Combined Rule (" ++ String.intercalate ", " ((first :: rest).map Entry.name) ++ ")"
      description := some ("Automatically combined rule from IDs: " ++
        String.intercalate ", " (ids.map Identifier.text))
      rule := (rest.map Entry.rule).foldl (.join .and) first.rule
      createdAt := now
      updatedAt := now }

variable {c : Catalog} {texts : List String} {ids : List Identifier}

/-! ### The passes -/

theorem identifier_eq_ok {text : String} {id : Identifier} :
    identifier text = .ok id ↔ Identifier.read? text = some id := by
  unfold identifier
  cases Identifier.read? text with
  | none => constructor <;> intro h <;> cases h
  | some id' => constructor <;> intro h <;> cases h <;> rfl

theorem identifier_eq_error {text : String} {f : Fault} :
    identifier text = .error f ↔ Identifier.read? text = none ∧ f = .notAnIdentifier text := by
  unfold identifier
  cases Identifier.read? text with
  | none =>
    constructor
    · intro h
      cases h
      exact ⟨rfl, rfl⟩
    · rintro ⟨-, rfl⟩
      rfl
  | some id =>
    constructor
    · intro h
      cases h
    · rintro ⟨h, -⟩
      cases h

theorem mapM_identifier_eq_ok : texts.mapM identifier = .ok ids ↔ Spells texts ids := by
  rw [Outcome.mapM_eq_ok, Spells]
  simp only [identifier_eq_ok]

theorem mapM_identifier_eq_error {f : Fault} :
    texts.mapM identifier = .error f ↔ Refusal c texts .rule f := by
  rw [Outcome.mapM_eq_error]
  constructor
  · rintro ⟨before, bad, after, htexts, hbefore, hbad⟩
    obtain ⟨hread, rfl⟩ := identifier_eq_error.1 hbad
    refine .malformed htexts (fun text htext => ?_) hread
    obtain ⟨id, hid⟩ := hbefore text htext
    exact Option.isSome_iff_exists.2 ⟨id, identifier_eq_ok.1 hid⟩
  · rintro ⟨htexts, hbefore, hbad⟩
    refine ⟨_, _, _, htexts, fun text htext => ?_, identifier_eq_error.2 ⟨hbad, rfl⟩⟩
    obtain ⟨id, hid⟩ := Option.isSome_iff_exists.1 (hbefore text htext)
    exact ⟨id, identifier_eq_ok.2 hid⟩

theorem entriesOf_eq_error {f : Fault} : c.entriesOf ids = .error f ↔
    ids.filter (fun id => id ∉ c.entries.keys) ≠ [] ∧
      f = .noEntries (ids.filter fun id => id ∉ c.entries.keys) := by
  have hmissing : (ids.filter fun id => (c.entries.find? id).isNone) =
      ids.filter fun id => id ∉ c.entries.keys := by
    apply List.filter_congr
    intro id _
    rw [← Option.not_isSome, Bool.eq_iff_iff, Bool.not_eq_true', decide_eq_true_iff,
      Table.mem_keys_iff, Bool.not_eq_true]
  unfold entriesOf
  simp only [hmissing, List.isEmpty_iff]
  split
  · next hnone =>
    constructor
    · intro h
      cases h
    · rintro ⟨hne, -⟩
      exact absurd hnone hne
  · next hne =>
    constructor
    · intro h
      cases h
      exact ⟨hne, rfl⟩
    · rintro ⟨-, rfl⟩
      rfl

theorem lists_nil_iff (hids : Spells texts ids) {parts : List Entry} (hparts : c.Lists ids parts) :
    parts = [] ↔ texts = [] := by
  rw [← List.length_eq_zero_iff, ← List.length_eq_zero_iff, hids.length_eq, hparts.length_eq]

theorem totalCount_map_rule (parts : List Entry) :
    Rule.totalCount (parts.map Entry.rule) = terms parts := by
  rw [Rule.totalCount_eq_sum, List.map_map]
  rfl

/-! ### New entries -/

variable {fresh : Identifier} {now : Instant}

theorem combinedEntry_eq_error {f : Fault} :
    c.combinedEntry fresh now texts = .error f ↔ ∃ kind, Refusal c texts kind f := by
  unfold combinedEntry
  constructor
  · intro h
    obtain h | ⟨ids, hids, h⟩ := Outcome.bind_eq_error.1 h
    · exact ⟨_, mapM_identifier_eq_error.1 h⟩
    have hids := mapM_identifier_eq_ok.1 hids
    obtain h | ⟨parts, hparts, h⟩ := Outcome.bind_eq_error.1 h
    · obtain ⟨hne, rfl⟩ := entriesOf_eq_error.1 h
      exact ⟨_, .unknown hids rfl hne⟩
    have hparts : c.Lists ids parts := entriesOf_eq_ok.1 hparts
    obtain h | ⟨rule, -, h⟩ := Outcome.bind_eq_error.1 h
    · obtain ⟨hterms, rfl⟩ | ⟨hnil, rfl⟩ := Rule.conjunctionWithin_eq_error.1 h
      · rw [totalCount_map_rule] at hterms ⊢
        exact ⟨_, .tooLarge hids hparts hterms⟩
      · exact ⟨_, .empty ((lists_nil_iff hids hparts).1 (List.map_eq_nil_iff.1 hnil))⟩
    · cases h
  · rintro ⟨kind, h⟩
    cases h with
    | malformed htexts hbefore hbad =>
      exact Outcome.bind_eq_error.2
        (Or.inl (mapM_identifier_eq_error.2 (Refusal.malformed (c := c) htexts hbefore hbad)))
    | unknown hids hmissing hne =>
      subst hmissing
      refine Outcome.bind_eq_error.2 (Or.inr ⟨_, mapM_identifier_eq_ok.2 hids, ?_⟩)
      exact Outcome.bind_eq_error.2 (Or.inl (entriesOf_eq_error.2 ⟨hne, rfl⟩))
    | empty htexts =>
      subst htexts
      have hrule : Rule.conjunctionWithin c.limits.terms [] = .error .nothingToJoin :=
        Rule.conjunctionWithin_eq_error.2 (Or.inr ⟨rfl, rfl⟩)
      refine Outcome.bind_eq_error.2 (Or.inr ⟨[], rfl, ?_⟩)
      refine Outcome.bind_eq_error.2 (Or.inr ⟨[], rfl, ?_⟩)
      exact Outcome.bind_eq_error.2 (Or.inl hrule)
    | @tooLarge ids parts hids hparts hterms =>
      rw [← totalCount_map_rule] at hterms ⊢
      refine Outcome.bind_eq_error.2 (Or.inr ⟨ids, mapM_identifier_eq_ok.2 hids, ?_⟩)
      refine Outcome.bind_eq_error.2 (Or.inr ⟨parts, entriesOf_eq_ok.2 hparts, ?_⟩)
      exact Outcome.bind_eq_error.2
        (Or.inl (Rule.conjunctionWithin_eq_error.2 (Or.inl ⟨hterms, rfl⟩)))

theorem combinedEntry_eq_ok {e : Entry} :
    c.combinedEntry fresh now texts = .ok e ↔ Joins c fresh now texts e := by
  unfold combinedEntry
  constructor
  · intro h
    obtain ⟨ids, hids, h⟩ := Outcome.bind_eq_ok.1 h
    obtain ⟨parts, hparts, h⟩ := Outcome.bind_eq_ok.1 h
    obtain ⟨rule, hrule, h⟩ := Outcome.bind_eq_ok.1 h
    cases h
    obtain ⟨hterms, hrule⟩ := Rule.conjunctionWithin_eq_ok.1 hrule
    cases parts with
    | nil => cases hrule
    | cons first rest =>
      cases hrule
      rw [totalCount_map_rule] at hterms
      exact .all (mapM_identifier_eq_ok.1 hids) (entriesOf_eq_ok.1 hparts) hterms
  · intro h
    obtain @⟨ids, first, rest, hids, hparts, hterms⟩ := h
    rw [← totalCount_map_rule] at hterms
    refine Outcome.bind_eq_ok.2 ⟨ids, mapM_identifier_eq_ok.2 hids, ?_⟩
    refine Outcome.bind_eq_ok.2 ⟨first :: rest, entriesOf_eq_ok.2 hparts, ?_⟩
    exact Outcome.bind_eq_ok.2 ⟨_, Rule.conjunctionWithin_eq_ok.2 ⟨hterms, rfl⟩, rfl⟩

theorem Refusal.kind_eq {kind : Fault.Kind} {f : Fault} (h : Refusal c texts kind f) :
    f.kind = kind := by
  cases h <;> rfl

/-! ### Answers -/

theorem summaries_add (c : Catalog) (e : Entry) :
    (c.add e).summaries.head? = some e.summary ∧
      (e.id ∉ c.order → (c.add e).summaries = e.summary :: c.summaries) := by
  have hself : (c.entries.insert e.id e).find? e.id = some e := by
    rw [Table.find?_insert, if_pos rfl]
  have hsummaries : (c.add e).summaries =
      e.summary :: (c.order.filterMap (c.entries.insert e.id e).find?).map Entry.summary := by
    simp only [summaries, add, List.filterMap_cons_some hself, List.map_cons]
  refine ⟨by rw [hsummaries, List.head?_cons], fun hnew => ?_⟩
  have hothers : c.order.filterMap (c.entries.insert e.id e).find? = c.order.filterMap c.entries.find? := by
    apply List.filterMap_congr
    intro id hid
    have hne : id ≠ e.id := by
      rintro rfl
      exact hnew hid
    rw [Table.find?_insert, if_neg hne]
  rw [hsummaries, hothers, summaries]

theorem answer_combine_eq_fault {f : Fault} {after : Catalog} :
    c.answer fresh now (.combine texts) = (.fault f, after) ↔
      c.combinedEntry fresh now texts = .error f ∧ after = c := by
  simp only [answer]
  cases c.combinedEntry fresh now texts with
  | error g =>
    constructor
    · intro h
      cases h
      exact ⟨rfl, rfl⟩
    · rintro ⟨h, rfl⟩
      cases h
      rfl
  | ok e =>
    constructor
    · intro h
      cases h
    · rintro ⟨h, -⟩
      cases h

theorem answer_combine_eq_entry {e : Entry} {after : Catalog} :
    c.answer fresh now (.combine texts) = (.entry e, after) ↔
      c.combinedEntry fresh now texts = .ok e ∧ after = c.add e := by
  simp only [answer]
  cases c.combinedEntry fresh now texts with
  | error g =>
    constructor
    · intro h
      cases h
    · rintro ⟨h, -⟩
      cases h
  | ok e' =>
    constructor
    · intro h
      cases h
      exact ⟨rfl, rfl⟩
    · rintro ⟨h, rfl⟩
      cases h
      rfl

/-- A catalog that is asked to combine entries refuses it or makes an entry. It refuses it for the first
text that spells no identifier, or else for all identifiers without an entry, or else because there is
nothing to join or too much, and then it stays as it was. Otherwise it makes an entry of all parts in
their order, which becomes the newest one. Identifiers are reported in their usual form. -/
theorem answer_combine (c : Catalog) (fresh : Identifier) (now : Instant) (texts : List String) :
    ((∃ f, c.answer fresh now (.combine texts) = (.fault f, c)) ∨
      ∃ e, c.answer fresh now (.combine texts) = (.entry e, c.add e)) ∧
    (∀ kind f, Refusal c texts kind f ↔
      c.answer fresh now (.combine texts) = (.fault f, c) ∧ f.kind = kind) ∧
    (∀ e, Joins c fresh now texts e ↔ c.answer fresh now (.combine texts) = (.entry e, c.add e)) ∧
    (∀ e after, c.answer fresh now (.combine texts) = (.entry e, after) →
      after.order = fresh :: c.order ∧ after.summaries.head? = some e.summary ∧
        (fresh ∉ c.order → after.summaries = e.summary :: c.summaries)) ∧
    ∀ missing, (Fault.noEntries missing).message =
        "Rule not found: " ++ String.intercalate ", " (missing.map Identifier.text) ∧
      ∀ id ∈ missing, Identifier.IsHyphenated id.text.toList := by
  refine ⟨?_, fun kind f => ?_, fun e => ?_, fun e after h => ?_, fun missing => ?_⟩
  · cases h : c.combinedEntry fresh now texts with
    | error f => exact Or.inl ⟨f, answer_combine_eq_fault.2 ⟨h, rfl⟩⟩
    | ok e => exact Or.inr ⟨e, answer_combine_eq_entry.2 ⟨h, rfl⟩⟩
  · rw [answer_combine_eq_fault, combinedEntry_eq_error, and_iff_left rfl]
    constructor
    · exact fun h => ⟨⟨kind, h⟩, h.kind_eq⟩
    · rintro ⟨⟨kind', h⟩, rfl⟩
      rw [h.kind_eq]
      exact h
  · rw [answer_combine_eq_entry, combinedEntry_eq_ok, and_iff_left rfl]
  · obtain ⟨he, rfl⟩ := answer_combine_eq_entry.1 h
    obtain ⟨hhead, hall⟩ := summaries_add c e
    have hfresh : e.id = fresh := by
      cases combinedEntry_eq_ok.1 he
      rfl
    have horder : (c.add e).order = fresh :: c.order := by rw [add, hfresh]
    exact ⟨horder, hhead, hfresh ▸ hall⟩
  · exact ⟨rfl, fun id _ => Identifier.isHyphenated_text id⟩

/-- The only entry of a catalog is joined with itself, and a text that spells no identifier is refused
though an identifier without an entry stands before it. -/
theorem answer_combine_repeated :
    let now : Instant := ⟨⟨2024, 1, 1⟩, 0, 0⟩
    let c := (run {} [⟨⟨1⟩, now, .create "a" none "x = 'p'"⟩]).1
    let known := Identifier.text ⟨1⟩
    let unknown := Identifier.text ⟨2⟩
    (∃ e, c.answer ⟨3⟩ now (.combine [known, known]) = (.entry e, c.add e) ∧
      (c.add e).order = [⟨3⟩, ⟨1⟩] ∧ (c.add e).summaries = e.summary :: c.summaries) ∧
    c.answer ⟨3⟩ now (.combine [known, unknown, "?", ""]) = (.fault (.notAnIdentifier "?"), c) := by
  intro now c known unknown
  let a : Entry := ⟨⟨1⟩, "a", none, .comparison .equal "x" (.text "p"), now, now⟩
  have hknown : Identifier.read? known = some ⟨1⟩ := by decide +kernel
  have hunknown : Identifier.read? unknown = some ⟨2⟩ := by decide +kernel
  have ha : c.entries.find? ⟨1⟩ = some a := by decide +kernel
  have hids : Spells [known, known] [⟨1⟩, ⟨1⟩] := .cons hknown (.cons hknown .nil)
  have hparts : c.Lists [⟨1⟩, ⟨1⟩] [a, a] := .cons ha (.cons ha .nil)
  obtain ⟨-, -, hjoins, hnewest, -⟩ := answer_combine c ⟨3⟩ now [known, known]
  have hentry := (hjoins _).1 (.all hids hparts (by decide))
  obtain ⟨horder, -, hsummaries⟩ := hnewest _ _ hentry
  refine ⟨⟨_, hentry, horder, hsummaries (by decide +kernel)⟩, ?_⟩
  obtain ⟨-, hrefused, -⟩ := answer_combine c ⟨3⟩ now [known, unknown, "?", ""]
  have hbefore : ∀ text ∈ [known, unknown], (Identifier.read? text).isSome := by
    simp [hknown, hunknown]
  exact ((hrefused .rule _).1 (.malformed rfl hbefore (by decide +kernel))).1

end Rulebook.Catalog
