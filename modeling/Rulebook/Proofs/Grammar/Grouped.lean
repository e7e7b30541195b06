import Rulebook.Proofs.Grammar.Replay
import Rulebook.Rule.Conjunction

/-!
# Rules joined as text

Rule texts in parentheses with connectives between them are read as the conjunction of the rules that
they are read as on their own (`parse_groupedText`). Each group is a complete run over its own text,
replayed where it stands (`exists_run_group`); the blank characters at the edges of a text shrink to
one space within its parentheses, and the reader skips them.
-/

namespace Rulebook
open Grammar

/-- Texts, each in parentheses, with connectives between them. -/
def Rule.groupedText (texts : List String) : String :=
  String.intercalate " AND " (texts.map fun text => "(" ++ text ++ ")")

/-- Texts, each in parentheses and after a connective. -/
def Rule.groupedLinks : List String → List Char
  | [] => []
  | text :: texts => " AND (".toList ++ (text.toList ++ ')' :: groupedLinks texts)

theorem Rule.groupedLinks_nil : groupedLinks [] = [] := rfl

theorem Rule.groupedLinks_cons (text : String) (texts : List String) :
    groupedLinks (text :: texts) =
      " AND (".toList ++ (text.toList ++ ')' :: groupedLinks texts) := rfl

theorem Rule.toList_groupedText (text : String) (texts : List String) :
    (groupedText (text :: texts)).toList = '(' :: (text.toList ++ ')' :: groupedLinks texts) := by
  induction texts generalizing text with
  | nil => simp [groupedText, groupedLinks_nil]
  | cons next texts ih =>
    have hnext := ih next
    rw [groupedText, List.map_cons] at hnext
    rw [groupedText, List.map_cons, List.map_cons, String.intercalate_cons_cons, String.toList_append,
      hnext]
    simp [groupedLinks_cons]

theorem Rule.collapse_groupedLinks (text : String) (texts : List String) :
    Text.collapse false (groupedLinks (text :: texts)) =
      " AND (".toList ++
        (Text.collapse false text.toList ++ ')' :: Text.collapse false (groupedLinks texts)) := by
  rw [← Text.collapse_append_cons (by decide)]
  rfl

theorem Rule.exists_groupedLinks_eq (cs : List Char) (texts : List String) :
    ∃ front, cs ++ ')' :: groupedLinks texts = front ++ [')'] := by
  induction texts generalizing cs with
  | nil => exact ⟨cs, rfl⟩
  | cons text texts ih =>
    obtain ⟨front, hfront⟩ := ih (cs ++ ')' :: (" AND (".toList ++ text.toList))
    refine ⟨front, ?_⟩
    rw [← hfront]
    simp [groupedLinks_cons]

/-- The text of groups ends with a parenthesis, so squeezing it only collapses its blank runs. -/
theorem Rule.squeeze_groupedText (text : String) (texts : List String) :
    Text.squeeze (groupedText (text :: texts)).toList =
      '(' :: (Text.collapse false text.toList ++
        ')' :: Text.collapse false (groupedLinks texts)) := by
  obtain ⟨front, hfront⟩ := exists_groupedLinks_eq text.toList texts
  rw [toList_groupedText, hfront, Text.squeeze_enclose (by decide) (by decide),
    ← Text.collapse_append_cons (by decide), hfront, Text.collapse_append_cons (by decide)]
  rfl

theorem stops_of_all {spaces : List Char} (h : spaces.all (· = ' ')) (tail : List Char) :
    Stops (spaces ++ ')' :: tail) := by
  cases spaces with
  | nil => exact stops_closing tail
  | cons c spaces =>
    rw [List.all_cons, Bool.and_eq_true, decide_eq_true_eq] at h
    rw [h.1]
    exact stops_space _

section

variable {depth terms : Nat} (limits : Limits)

/-- A text that is read as a rule on its own is read as a term where it stands in parentheses. -/
theorem exists_run_group {text : String} {r : Rule} {p : Place} {tail : List Char}
    (h : Rule.parse { depth, terms, lenient := false } text = .ok r)
    (hp : Lexeme.trimSpaces p.rest = '(' :: (Text.collapse false text.toList ++ ')' :: tail))
    (hterms : p.terms + r.count ≤ limits.terms) :
    ∃ q, Run limits .term (depth + 1) p r q ∧ q.rest = tail := by
  rw [Rule.parse, Outcome.mapError_eq_ok, Rule.read_eq_ok] at h
  obtain ⟨s, hrun, hend⟩ := h
  obtain ⟨p₁, ho, hrest₁⟩ := next?_of_opening hp
  obtain ⟨left, right, hcollapse, hleft, hright⟩ := Text.exists_collapse_eq text.toList
  have htight : Text.IsTight (Text.squeeze text.toList) := by
    apply Text.isTight_squeeze
    intro hnil
    have hlt := hrun.rest_lt
    rw [hnil] at hlt
    exact Nat.not_lt_zero _ hlt
  have hinner : p₁.skipSpaces.rest = Text.squeeze text.toList ++ (right ++ ')' :: tail) := by
    obtain ⟨c, cs, hc, hblank⟩ := htight.first
    rw [Place.skipSpaces_rest, hrest₁, hcollapse, List.append_assoc, List.append_assoc]
    apply Place.trimSpaces_append_of_all hleft
    rw [hc]
    rintro hspace
    cases hspace
    cases Text.isBlank_space.symm.trans hblank
  have hreplaces : Place.Replaces [] (right ++ ')' :: tail) { rest := Text.squeeze text.toList }
      p₁.skipSpaces := ⟨_, (List.append_nil _).symm, hinner⟩
  have hterms₁ : p₁.skipSpaces.terms + r.count ≤ limits.terms := by
    rw [Place.skipSpaces_terms, Place.next?_terms ho]
    exact hterms
  obtain ⟨p₂, hrun₂, front, hs, hrest₂⟩ :=
    hrun.replace rfl (stops_of_all hright tail) hreplaces (List.nil_suffix) hterms₁
  have hfront : front.all (· = ' ') := by
    rw [Place.next?_eq_none, Lexeme.trimSpaces, hs, List.append_nil, List.dropWhile_eq_nil_iff] at hend
    exact List.all_eq_true.2 hend
  obtain ⟨q, hmark, hq⟩ : ∃ q, p₂.next? = some (.mark ')', q) ∧ q.rest = tail := by
    apply Place.next?_of_front? (l := .mark ')')
    · rw [hrest₂, ← List.append_assoc]
      exact Place.trimSpaces_append_of_all (by rw [List.all_append, hfront, hright]; rfl) (by simp)
    · rfl
  exact ⟨q, .group ho hrun₂.of_skipSpaces (connective?_eq_none_of_mark hmark) (closing_of_mark hmark),
    hq⟩

theorem exists_run_links {texts : List String} {rules : List Rule} {start p : Place} {left : Rule}
    (h : List.Forall₂ (fun text r => Rule.parse { depth, terms, lenient := false } text = .ok r)
      texts rules)
    (hleft : Run limits .chain (depth + 1) start left p)
    (hp : p.rest = Text.collapse false (Rule.groupedLinks texts))
    (hterms : p.terms + Rule.totalCount rules ≤ limits.terms) :
    ∃ q, Run limits .chain (depth + 1) start (rules.foldl (Rule.join .and) left) q ∧ q.rest = [] := by
  induction h generalizing p left with
  | nil => exact ⟨p, hleft, hp⟩
  | @cons text r texts rules hr _ ih =>
    rw [Rule.collapse_groupedLinks] at hp
    rw [Rule.totalCount] at hterms
    obtain ⟨p₁, hc, hrest₁⟩ := connective?_of_symbol (c := .and) hp
    have hterms₁ := Place.next?_terms (connective?_eq_some.1 hc)
    obtain ⟨p₂, hterm, hrest₂⟩ := exists_run_group limits (p := p₁) hr
      (by rw [hrest₁, Lexeme.trimSpaces_space]; exact Lexeme.trimSpaces_of_ne (by decide) _) (by omega)
    have hterms₂ := hterm.terms_eq
    exact ih (.join hleft hc hterm) hrest₂ (by omega)

end

/-- Rule texts in parentheses with connectives between them are read as the conjunction of the rules
that they are read as on their own. -/
theorem parse_groupedText {depth terms limit : Nat} {texts : List String} {rules : List Rule}
    (hne : texts ≠ [])
    (h : List.Forall₂ (fun text r => Rule.parse { depth, terms, lenient := false } text = .ok r)
      texts rules)
    (hlimit : Rule.totalCount rules ≤ limit) :
    ∃ r, Rule.conjunction rules = .ok r ∧
      Rule.parse { depth := depth + 1, terms := limit, lenient := false } (Rule.groupedText texts) =
        .ok r := by
  cases h with
  | nil => exact absurd rfl hne
  | @cons text first texts rest hfirst hrest =>
    refine ⟨rest.foldl (Rule.join .and) first, rfl, ?_⟩
    rw [Rule.parse, Outcome.mapError_eq_ok, Rule.read_eq_ok, Rule.squeeze_groupedText]
    rw [Rule.totalCount] at hlimit
    obtain ⟨p, hterm, hp⟩ := exists_run_group { depth := depth + 1, terms := limit }
      (p := { rest := _ }) hfirst (Lexeme.trimSpaces_of_ne (by decide) _) (by simp only; omega)
    have hterms := hterm.terms_eq
    obtain ⟨q, hrun, hq⟩ := exists_run_links _ hrest (.single hterm) hp (by simp only at hterms ⊢; omega)
    exact ⟨q, hrun, Place.next?_eq_none.2 (by rw [hq]; rfl)⟩

/-- Blank characters at the edges of the texts, and connectives and parentheses within apostrophes. -/
theorem parse_groupedText_two :
    let texts := ["  a = 'x) AND (y' ", "(b > 2.5) OR\tc = '(' "]
    let rules : List Rule := [.comparison .equal "a" (.text "x) AND (y"),
      .join .or (.comparison .greater "b" (.number (.signed false (Magnitude.nearest 5 2))))
        (.comparison .equal "c" (.text "("))]
    List.Forall₂ (fun text r => Rule.parse { depth := 1, terms := 2, lenient := false } text = .ok r)
      texts rules ∧
    ∃ r, Rule.conjunction rules = .ok r ∧
      Rule.parse { depth := 2, terms := 3, lenient := false } (Rule.groupedText texts) = .ok r := by
  intro texts rules
  have h : List.Forall₂ (fun text r =>
      Rule.parse { depth := 1, terms := 2, lenient := false } text = .ok r) texts rules :=
    .cons (Outcome.mapError_eq_ok.2 (by decide +kernel))
      (.cons (Outcome.mapError_eq_ok.2 (by decide +kernel)) .nil)
  exact ⟨h, parse_groupedText (by decide) h (by decide)⟩

end Rulebook
