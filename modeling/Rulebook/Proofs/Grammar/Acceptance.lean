import Mathlib.Data.Set.Subsingleton
import Rulebook.Fault
import Rulebook.Proofs.Grammar.Phrase
import Rulebook.Proofs.Grammar.Run

/-!
# What the strict reader accepts

A strict reader accepts exactly the texts whose lexemes have a derivation within its limits, and the
rule it reads is the rule that the derivation means (`parse_strict_eq_ok`). One half follows a run of
the reader and builds the derivation; the other half follows the derivation and builds the run.
-/

namespace Rulebook
open Grammar

/-! ### Literals -/

theorem Place.all_of_next?_numeral {p q : Place} {digits : List Char}
    (h : p.next? = some (.numeral digits, q)) : digits.all isNumberChar := by
  cases hr : p.skipSpaces.rest with
  | nil =>
    rw [next?_of_rest_eq_nil hr] at h
    cases h
  | cons c cs =>
    rw [next?_of_rest_eq_cons hr] at h
    split_ifs at h <;> cases h
    exact List.all_takeWhile

theorem Literal.exists_of_value {p q : Place} {v : Value} (h : Grammar.value p = .ok (v, q)) :
    ∃ literal : Literal, p.next? = some (literal.lexeme, q) ∧ literal.value = v := by
  cases v with
  | text s => exact ⟨.text s.toList, value_eq_ok_text.1 h, by rw [value, String.ofList_toList]⟩
  | number x =>
    obtain ⟨digits, hn, hx⟩ := value_eq_ok_number.1 h
    have hplain : Numeral.IsPlain digits :=
      (Numeral.isSome_read? (Place.all_of_next?_numeral hn)).1 (by rw [hx]; rfl)
    refine ⟨.number ⟨digits, hplain⟩, hn, ?_⟩
    have hread := PlainNumeral.read?_eq ⟨digits, hplain⟩
    rw [hx] at hread
    rw [value, Option.some.inj hread]

theorem Literal.value_eq_ok {p q : Place} {literal : Literal}
    (h : p.next? = some (literal.lexeme, q)) : Grammar.value p = .ok (literal.value, q) := by
  cases literal with
  | text content =>
    rw [value, value_eq_ok_text, String.toList_ofList]
    exact h
  | number n =>
    rw [value, value_eq_ok_number]
    exact ⟨n.digits, h, n.read?_eq⟩

/-! ### From runs to derivations -/

/-- A derivation of what stands between two places. -/
structure Phrase.Spans (d : Phrase) (room : Nat) (p : Place) (r : Rule) (q : Place) : Prop where
  lexemes_eq : p.lexemes = d.lexemes ++ q.lexemes
  rule_eq : d.rule = r
  nesting_le : d.nesting ≤ room
  terms_eq : q.terms = p.terms + d.count

/-- A derivation of the term that stands between two places. -/
structure Clause.Spans (t : Clause) (room : Nat) (p : Place) (r : Rule) (q : Place) : Prop where
  lexemes_eq : p.lexemes = t.lexemes ++ q.lexemes
  rule_eq : t.rule = r
  nesting_le : t.nesting ≤ room
  terms_eq : q.terms = p.terms + t.count

theorem Clause.spans_of_comparison {room : Nat} {p p₁ p₂ p₃ : Place} {field : String}
    {c : Comparison} {v : Value} (hf : p.next? = some (.word field.toList, p₁))
    (hc : p₁.next? = some (.symbol c.symbol.toList, p₂)) (hv : Grammar.value p₂ = .ok (v, p₃)) :
    ∃ t : Clause, t.Spans room p (.comparison c field v) { p₃ with terms := p₃.terms + 1 } := by
  obtain ⟨literal, hl, rfl⟩ := Literal.exists_of_value hv
  refine ⟨.comparison field.toList c literal, ?_, ?_, Nat.zero_le _, ?_⟩
  · rw [Place.lexemes_of_next? hf, Place.lexemes_of_next? hc, Place.lexemes_of_next? hl]
    rfl
  · rw [rule, String.ofList_toList]
  · have h₁ := Place.next?_terms hf
    have h₂ := Place.next?_terms hc
    have h₃ := Place.next?_terms hl
    simp only [count]
    omega

theorem closing_terms {limits : Limits} {p q : Place} (h : closing limits p = .ok ((), q)) :
    q.terms = p.terms := by
  cases hr : p.skipSpaces.rest with
  | nil =>
    rw [closing_of_nil hr] at h
    split_ifs at h <;> cases h
    rfl
  | cons c cs =>
    rw [closing_of_cons hr] at h
    split_ifs at h <;> cases h
    rfl

theorem Phrase.spans_of_run {limits : Limits} (hl : limits.lenient = false) {part : Part}
    {room : Nat} {p q : Place} {r : Rule} (h : Run limits part room p r q) :
    match part with
    | .term => ∃ t : Clause, t.Spans room p r q
    | .chain => ∃ d : Phrase, d.Spans room p r q := by
  induction h with
  | comparison _ hf hc hv => exact Clause.spans_of_comparison hf hc hv
  | @group room p p₁ p₂ q r ho _ _ hclose ih =>
    obtain ⟨d, hd⟩ := ih
    have hmark := next?_of_closing hl hclose
    refine ⟨.group d, ?_, hd.rule_eq, Nat.succ_le_succ hd.nesting_le, ?_⟩
    · rw [Place.lexemes_of_next? ho, hd.lexemes_eq, Place.lexemes_of_next? hmark]
      simp [Clause.lexemes]
    · rw [closing_terms hclose, hd.terms_eq, Place.next?_terms ho]
      rfl
  | @single room p q r _ ih =>
    obtain ⟨t, ht⟩ := ih
    refine ⟨.chain t .nil, ?_, ht.rule_eq, ?_, ?_⟩
    · simpa [Phrase.lexemes, Links.lexemes] using ht.lexemes_eq
    · simpa [Phrase.nesting, Links.nesting] using ht.nesting_le
    · simpa [Phrase.count, Links.count] using ht.terms_eq
  | @join room p p₁ p₂ q c l r _ hc _ ih₁ ih₂ =>
    obtain ⟨d, hd⟩ := ih₁
    obtain ⟨t, ht⟩ := ih₂
    have hnext := connective?_eq_some.1 hc
    refine ⟨d.snoc c t, ?_, ?_, ?_, ?_⟩
    · rw [hd.lexemes_eq, Place.lexemes_of_next? hnext, ht.lexemes_eq, Phrase.lexemes_snoc]
      simp
    · rw [Phrase.rule_snoc, hd.rule_eq, ht.rule_eq]
    · rw [Phrase.nesting_snoc]
      exact Nat.max_le.2 ⟨hd.nesting_le, ht.nesting_le⟩
    · rw [Phrase.count_snoc, ht.terms_eq, Place.next?_terms hnext, hd.terms_eq, Nat.add_assoc]

theorem Grammar.Run.terms_le {limits : Limits} {part : Part} {room : Nat} {p q : Place} {r : Rule}
    (h : Run limits part room p r q) : q.terms ≤ limits.terms := by
  induction h with
  | comparison ht hf hc hv =>
    obtain ⟨l, hl⟩ := next?_of_value hv
    have h₁ := Place.next?_terms hf
    have h₂ := Place.next?_terms hc
    have h₃ := Place.next?_terms hl
    show _ + 1 ≤ _
    omega
  | group _ _ _ hclose ih =>
    rw [closing_terms hclose]
    exact ih
  | single _ ih => exact ih
  | join _ _ _ _ ih => exact ih

/-! ### From derivations to runs -/

theorem connective?_of_noConnective {p : Place} (h : NoConnective p.lexemes) :
    connective? p = none := by
  refine connective?_eq_none_of_next? fun c q hword => ?_
  have hn := Place.lexemes_of_next? hword
  exact absurd (by rw [hn]; rfl) (h c)

mutual

theorem Phrase.exists_run (limits : Limits) : ∀ (d : Phrase) {room : Nat} {p : Place}
    {xs : List Lexeme}, p.lexemes = d.lexemes ++ xs → d.nesting ≤ room →
    p.terms + d.count ≤ limits.terms →
    ∃ q, Run limits .chain room p d.rule q ∧ q.lexemes = xs ∧ q.terms = p.terms + d.count
  | .chain first links, room, p, xs, hp, hn, hc => by
    simp only [Phrase.lexemes, List.append_assoc] at hp
    simp only [Phrase.nesting, Nat.max_le] at hn
    simp only [Phrase.count] at hc
    obtain ⟨p₁, hfirst, hl, ht⟩ := Clause.exists_run limits first hp hn.1 (by omega)
    obtain ⟨q, hrun, hq, hqt⟩ :=
      Links.exists_run limits links (.single hfirst) hl hn.2 (by omega)
    exact ⟨q, hrun, hq, by rw [hqt, ht, Phrase.count, Nat.add_assoc]⟩

theorem Links.exists_run (limits : Limits) : ∀ (links : Links) {room : Nat} {start p : Place}
    {left : Rule} {xs : List Lexeme}, Run limits .chain room start left p →
    p.lexemes = links.lexemes ++ xs → links.nesting ≤ room →
    p.terms + links.count ≤ limits.terms →
    ∃ q, Run limits .chain room start (links.joinTo left) q ∧ q.lexemes = xs ∧
      q.terms = p.terms + links.count
  | .nil, room, start, p, left, xs, hrun, hp, hn, hc => ⟨p, hrun, hp, rfl⟩
  | .cons c next more, room, start, p, left, xs, hrun, hp, hn, hc => by
    simp only [Links.lexemes, List.cons_append, List.append_assoc] at hp
    simp only [Links.nesting, Nat.max_le] at hn
    simp only [Links.count] at hc
    obtain ⟨p₁, hnext, hp₁⟩ := Place.exists_next?_of_lexemes hp
    have ht₁ := Place.next?_terms hnext
    obtain ⟨p₂, hterm, hp₂, ht₂⟩ := Clause.exists_run limits next hp₁ hn.1 (by omega)
    have hjoin := Run.join hrun (connective?_eq_some.2 hnext) hterm
    obtain ⟨q, hq, hql, hqt⟩ := Links.exists_run limits more hjoin hp₂ hn.2 (by omega)
    exact ⟨q, hq, hql, by rw [hqt, ht₂, ht₁, Links.count, Nat.add_assoc]⟩

theorem Clause.exists_run (limits : Limits) : ∀ (t : Clause) {room : Nat} {p : Place}
    {xs : List Lexeme}, p.lexemes = t.lexemes ++ xs → t.nesting ≤ room →
    p.terms + t.count ≤ limits.terms →
    ∃ q, Run limits .term room p t.rule q ∧ q.lexemes = xs ∧ q.terms = p.terms + t.count
  | .comparison field c literal, room, p, xs, hp, hn, hc => by
    simp only [Clause.lexemes, List.cons_append, List.nil_append] at hp
    simp only [Clause.count] at hc
    obtain ⟨p₁, hf, hp₁⟩ := Place.exists_next?_of_lexemes hp
    obtain ⟨p₂, hs, hp₂⟩ := Place.exists_next?_of_lexemes hp₁
    obtain ⟨p₃, hl, hp₃⟩ := Place.exists_next?_of_lexemes hp₂
    have hf' : p.next? = some (.word (String.ofList field).toList, p₁) := by
      rw [String.toList_ofList, hf]
    refine ⟨{ p₃ with terms := p₃.terms + 1 }, ?_, hp₃, ?_⟩
    · exact .comparison (by omega) hf' hs (Literal.value_eq_ok hl)
    · rw [Place.next?_terms hl, Place.next?_terms hs, Place.next?_terms hf]
      rfl
  | .group inner, room, p, xs, hp, hn, hc => by
    simp only [Clause.lexemes, List.cons_append, List.append_assoc, List.nil_append] at hp
    obtain ⟨p₁, ho, hp₁⟩ := Place.exists_next?_of_lexemes hp
    have ht₁ := Place.next?_terms ho
    cases room with
    | zero => simp [Clause.nesting] at hn
    | succ room =>
      simp only [Clause.nesting, Nat.add_le_add_iff_right] at hn
      simp only [Clause.count] at hc
      obtain ⟨p₂, hrun, hp₂, ht₂⟩ := Phrase.exists_run limits inner hp₁ hn (by omega)
      obtain ⟨q, hmark, hq⟩ := Place.exists_next?_of_lexemes hp₂
      have hstop : connective? p₂ = none := by
        apply connective?_of_noConnective
        intro c hc
        rw [hp₂] at hc
        cases hc
      refine ⟨q, .group ho hrun hstop (closing_of_mark hmark), hq, ?_⟩
      rw [Place.next?_terms hmark, ht₂, ht₁]
      rfl

end

/-! ### Acceptance -/

/-- The lexemes of a rule text, squeezed. -/
def Lexeme.ofText (text : String) : List Lexeme := split (Text.squeeze text.toList)

/-- A strict reader accepts exactly the texts whose lexemes have a derivation within the limits, and
reads the rule that the derivation means; no text has two derivations. -/
theorem parse_strict_eq_ok (depth terms : Nat) (text : String) :
    (∀ r : Rule, Rule.parse { depth, terms, lenient := false } text = .ok r ↔
      ∃ d : Phrase, d.lexemes = Lexeme.ofText text ∧ d.nesting ≤ depth ∧ d.count ≤ terms ∧
        d.rule = r) ∧
    {d : Phrase | d.lexemes = Lexeme.ofText text}.Subsingleton := by
  refine ⟨fun r => ?_, fun d hd e he => Phrase.eq_of_lexemes (Eq.trans hd (Eq.symm he))⟩
  rw [Rule.parse, Outcome.mapError_eq_ok, Rule.read_eq_ok]
  constructor
  · rintro ⟨q, hrun, hend⟩
    obtain ⟨d, hd⟩ := Phrase.spans_of_run rfl hrun
    have hle := hrun.terms_le
    have hterms : q.terms = 0 + d.count := hd.terms_eq
    refine ⟨d, ?_, hd.nesting_le, ?_, hd.rule_eq⟩
    · have hlex := hd.lexemes_eq
      rw [Place.lexemes_eq_nil.2 hend, List.append_nil] at hlex
      exact hlex.symm
    · have : q.terms ≤ terms := hle
      omega
  · rintro ⟨d, hlex, hn, hc, rfl⟩
    have hstart : Place.lexemes { rest := Text.squeeze text.toList } = d.lexemes ++ [] := by
      rw [List.append_nil, hlex]
      rfl
    obtain ⟨q, hrun, hq, -⟩ :=
      Phrase.exists_run { depth, terms, lenient := false } d hstart hn (by simpa using hc)
    exact ⟨q, hrun, Place.lexemes_eq_nil.1 hq⟩

end Rulebook
