import Rulebook.Proofs.Catalog.Contents
import Rulebook.Proofs.Grammar.Reprint
import Rulebook.Proofs.Rule.Conjunction
import Rulebook.Proofs.Rule.Taking

/-!
# Rule text of kept rules

Whatever a catalog is asked, its rules stay within what rule text can say, infinite numbers apart, and
within the limit on comparisons (`Catalog.isKeepable_run`). A conjunction is checked against that limit
only. Its text needs a pair of parentheses around each joined part after the first one, so it is read
back exactly if these parts leave room for the pair (`Catalog.reparses_of_combine`).
-/

namespace Rulebook

/-- What holds of the rule of every entry: rule text can spell it, infinite numbers apart, and it has
no more comparisons than the limits allow. -/
structure Rule.IsKeepable (limits : Limits) (r : Rule) : Prop where
  isReadable : r.IsReadable
  count_le : r.count ≤ limits.terms

namespace Rule

variable {limits : Limits}

theorem isKeepable_of_parse {text : String} {r : Rule} (h : parse limits text = .ok r) :
    r.IsKeepable limits :=
  ⟨(fits_of_parse h).isReadable, (fits_of_parse h).count_le⟩

theorem isKeepable_of_conjunctionWithin {rules : List Rule} {r : Rule}
    (h : conjunctionWithin limits.terms rules = .ok r) (hrules : ∀ part ∈ rules, part.IsReadable) :
    r.IsKeepable limits where
  isReadable := {
    isQuotable := (forAll_of_conjunctionWithin h).2 fun part hp => (hrules part hp).isQuotable
    isUnsigned := (forAll_of_conjunctionWithin h).2 fun part hp => (hrules part hp).isUnsigned }
  count_le := (count_of_conjunctionWithin h).2

/-- The first part of a conjunction keeps its text, and each later part gets parentheses if it is joined
itself. -/
theorem reparses_of_conjunctionWithin {rules : List Rule} {r : Rule}
    (h : conjunctionWithin limits.terms rules = .ok r) (hrules : ∀ part ∈ rules, part.IsReadable)
    (hparts : ∀ part ∈ rules, part.Reparses limits) :
    r.Reparses limits ↔ ∀ part ∈ rules.tail, part.rightNesting ≤ limits.depth := by
  have hr := isKeepable_of_conjunctionWithin h hrules
  have hread : ∀ part ∈ rules, part.IsFinite ∧ part.textNesting ≤ limits.depth := by
    intro part hp
    obtain ⟨hfinite, -, hnesting⟩ := (hrules part hp).reparses_iff.1 (hparts part hp)
    exact ⟨hfinite, hnesting⟩
  have hfinite : r.IsFinite := (forAll_of_conjunctionWithin h).2 fun part hp => (hread part hp).1
  have hfirst : ∀ first ∈ rules.head?, first.textNesting ≤ limits.depth :=
    fun first hf => (hread first (List.mem_of_head? hf)).2
  rw [hr.isReadable.reparses_iff, textNesting_le_of_conjunctionWithin h]
  exact ⟨fun hall => hall.2.2.2, fun htail => ⟨hfinite, hr.count_le, hfirst, htail⟩⟩

end Rule

namespace Catalog

variable {limits : Limits} {calls : List Call}

theorem isKeepable_run : ∀ e, (run { limits } calls).1.Has e → e.rule.IsKeepable limits := by
  apply run_all (P := fun e => e.rule.IsKeepable limits)
  · intro call _ name description text rule hrule
    exact Rule.isKeepable_of_parse hrule
  · intro call _ name description rule parts hparts hrule
    exact Rule.isKeepable_of_conjunctionWithin hrule
      (List.forall_mem_map.2 fun part hp => (hparts part hp).isReadable)

theorem combinedEntry_of_answer {c : Catalog} {fresh : Identifier} {now : Instant}
    {texts : List String} {e : Entry} (h : (c.answer fresh now (.combine texts)).1 = .entry e) :
    c.combinedEntry fresh now texts = .ok e := by
  simp only [answer] at h
  cases hc : c.combinedEntry fresh now texts with
  | error f =>
    rw [hc] at h
    cases h
  | ok e' =>
    rw [hc] at h
    cases h
    rfl

/-- An entry made by joining others: if the texts of the parts are read back, its own text is read back
exactly if no part after the first needs more parentheses than may be open. -/
theorem reparses_of_combine {fresh : Identifier} {now : Instant} {texts : List String} {e : Entry}
    (h : ((run { limits } calls).1.answer fresh now (.combine texts)).1 = .entry e) :
    ∃ parts, List.Forall₂ (fun text part => (run { limits } calls).1.get text = .ok part) texts parts ∧
      ((∀ part ∈ parts, part.rule.Reparses limits) →
        (e.rule.Reparses limits ↔ ∀ part ∈ parts.tail, part.rule.rightNesting ≤ limits.depth)) := by
  obtain ⟨parts, hparts⟩ : ∃ parts, Combines _ ⟨fresh, now, .combine texts⟩ texts parts e :=
    combines_of_combinedEntry (combinedEntry_of_answer h)
  refine ⟨parts, hparts.sources, fun hall => ?_⟩
  have hrule := hparts.rule_eq
  rw [limits_run] at hrule
  have hreadable : ∀ part ∈ parts, part.rule.IsReadable :=
    fun part hp => (isKeepable_run part (has_of_sources hparts.sources part hp)).isReadable
  rw [Rule.reparses_of_conjunctionWithin hrule (List.forall_mem_map.2 hreadable)
    (List.forall_mem_map.2 hall), ← List.map_tail, List.forall_mem_map]

/-- The entry in a reply. -/
def Reply.asEntry : Reply → Option Entry
  | .entry e => some e
  | _ => none

theorem Reply.asEntry_eq_some {reply : Reply} {e : Entry} :
    reply.asEntry = some e ↔ reply = .entry e := by
  cases reply <;> simp [asEntry]

/-- A rule whose text has one pair of parentheses. -/
def oneGroup : Rule :=
  .join .and (.comparison .equal "x" (.text "p"))
    (.join .or (.comparison .equal "x" (.text "q")) (.comparison .equal "x" (.text "r")))

theorem fits_oneGroup : oneGroup.Fits { depth := 1 } := by
  have hread : Rule.read { depth := 1 } "x = 'p' AND (x = 'q' OR x = 'r')" = .ok oneGroup := by
    decide +kernel
  exact Rule.fits_of_parse (Outcome.mapError_eq_ok.2 hread)

theorem reparses_oneGroup : oneGroup.Reparses { depth := 1 } :=
  fits_oneGroup.reparses_iff.2 ⟨trivial, trivial, trivial⟩

theorem reparses_of_combine_two :
    let limits : Limits := { depth := 1 }
    let now : Instant := ⟨⟨2024, 1, 1⟩, 0, 0⟩
    let calls : List Call := [
      ⟨⟨1⟩, now, .create "a" none "x = 'p' AND (x = 'q' OR x = 'r')"⟩,
      ⟨⟨2⟩, now, .create "b" none "y = 'p'"⟩]
    ∃ e, ((run { limits } calls).1.answer ⟨3⟩ now
        (.combine [Identifier.text ⟨1⟩, Identifier.text ⟨2⟩])).1 = .entry e ∧
      e.rule.Reparses limits := by
  intro limits now calls
  let q : Rule := .comparison .equal "y" (.text "p")
  let a : Entry := ⟨⟨1⟩, "a", none, oneGroup, now, now⟩
  let b : Entry := ⟨⟨2⟩, "b", none, q, now, now⟩
  let e : Entry := ⟨⟨3⟩, combinedName [a, b], some (combinedDescription [⟨1⟩, ⟨2⟩]),
    .join .and oneGroup q, now, now⟩
  have hread : Rule.read limits "y = 'p'" = .ok q := by decide +kernel
  have hq : q.Reparses limits :=
    (Rule.fits_of_parse (Outcome.mapError_eq_ok.2 hread)).reparses_iff.2 trivial
  have hentry : ((run { limits } calls).1.answer ⟨3⟩ now
      (.combine [Identifier.text ⟨1⟩, Identifier.text ⟨2⟩])).1 = .entry e :=
    Reply.asEntry_eq_some.1 (by decide +kernel)
  have ha : (run { limits } calls).1.get (Identifier.text ⟨1⟩) = .ok a :=
    Rule.toOption_eq_some.1 (by decide +kernel)
  have hb : (run { limits } calls).1.get (Identifier.text ⟨2⟩) = .ok b :=
    Rule.toOption_eq_some.1 (by decide +kernel)
  refine ⟨e, hentry, ?_⟩
  obtain ⟨parts, hparts, hiff⟩ := reparses_of_combine hentry
  obtain rfl : parts = [a, b] := by
    rcases hparts with _ | ⟨hfirst, _ | ⟨hsecond, _ | _⟩⟩
    rw [ha] at hfirst
    rw [hb] at hsecond
    cases hfirst
    cases hsecond
    rfl
  have hall : ∀ part ∈ [a, b], part.rule.Reparses limits := by
    simp [a, b, hq, reparses_oneGroup, limits]
  exact (hiff hall).2 (by simp [b, q, Rule.rightNesting])

/-- A rule whose own text is read is joined with itself, and the text of the conjunction is not read:
on the right the rule needs a second pair of parentheses. -/
theorem not_reparses_of_combine :
    let limits : Limits := { depth := 1 }
    let now : Instant := ⟨⟨2024, 1, 1⟩, 0, 0⟩
    let calls : List Call := [⟨⟨1⟩, now, .create "a" none "x = 'p' AND (x = 'q' OR x = 'r')"⟩]
    ∃ source e, (run { limits } calls).1.get (Identifier.text ⟨1⟩) = .ok source ∧
      source.rule.Reparses limits ∧
      ((run { limits } calls).1.answer ⟨2⟩ now
        (.combine [Identifier.text ⟨1⟩, Identifier.text ⟨1⟩])).1 = .entry e ∧
      ¬ e.rule.Reparses limits := by
  intro limits now calls
  let a : Entry := ⟨⟨1⟩, "a", none, oneGroup, now, now⟩
  let e : Entry := ⟨⟨2⟩, combinedName [a, a], some (combinedDescription [⟨1⟩, ⟨1⟩]),
    .join .and oneGroup oneGroup, now, now⟩
  refine ⟨a, e, Rule.toOption_eq_some.1 (by decide +kernel), reparses_oneGroup,
    Reply.asEntry_eq_some.1 (by decide +kernel), ?_⟩
  intro he
  have hrule : Rule.conjunctionWithin limits.terms [oneGroup, oneGroup] = .ok e.rule := rfl
  have hnesting := (Rule.reparses_of_conjunctionWithin hrule (by simp [fits_oneGroup.isReadable])
    (by simp [reparses_oneGroup, limits])).1 he oneGroup List.mem_cons_self
  simp [oneGroup, Rule.rightNesting, Rule.textNesting, limits] at hnesting

end Catalog

end Rulebook
