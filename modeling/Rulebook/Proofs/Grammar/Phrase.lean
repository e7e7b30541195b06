import Rulebook.Proofs.Grammar.Lexeme
import Rulebook.Proofs.Number.Digits

/-!
# The grammar of rule text

The grammar stands apart from the reader, as the derivations it allows:

    Phrase := Clause (connective Clause)*
    Clause := '(' Phrase ')' | field comparison literal

A derivation tells the lexemes it stands for and the rule it means. Connectives bind equally and to
the left, so a phrase means the fold of its clauses. The grammar is unambiguous: lexemes have at most
one derivation (`Phrase.eq_of_lexemes`).
-/

namespace Rulebook

/-- A numeral of rule text: digits with at most one point. -/
structure PlainNumeral where
  digits : List Char
  isPlain : Numeral.IsPlain digits

/-- The number that a numeral of rule text spells. -/
def PlainNumeral.number (n : PlainNumeral) : Binary64 :=
  (Numeral.read? n.digits).get ((Numeral.isSome_read? n.isPlain.numberChars).2 n.isPlain)

theorem PlainNumeral.read?_eq (n : PlainNumeral) : Numeral.read? n.digits = some n.number :=
  (Option.some_get _).symm

/-- What a field is compared with, as it is spelled. -/
inductive Literal where
  | text (content : List Char)
  | number (n : PlainNumeral)

def Literal.lexeme : Literal → Lexeme
  | text content => .quoted content
  | number n => .numeral n.digits

def Literal.value : Literal → Value
  | text content => .text (String.ofList content)
  | number n => .number n.number

mutual

/-- A first clause and the links that follow it. -/
inductive Phrase where
  | chain (first : Clause) (links : Links)

/-- Clauses, each after a connective. -/
inductive Links where
  | nil
  | cons (c : Connective) (next : Clause) (more : Links)

/-- A comparison, or a phrase in parentheses. -/
inductive Clause where
  | comparison (field : List Char) (c : Comparison) (literal : Literal)
  | group (inner : Phrase)

end

/-! ### Lexemes -/

mutual

def Phrase.lexemes : Phrase → List Lexeme
  | .chain first links => first.lexemes ++ links.lexemes

def Links.lexemes : Links → List Lexeme
  | .nil => []
  | .cons c next more => .word c.symbol.toList :: (next.lexemes ++ more.lexemes)

def Clause.lexemes : Clause → List Lexeme
  | .comparison field c literal => [.word field, .symbol c.symbol.toList, literal.lexeme]
  | .group inner => .mark '(' :: (inner.lexemes ++ [.mark ')'])

end

/-! ### Meaning -/

mutual

/-- The rule that a phrase means. -/
def Phrase.rule : Phrase → Rule
  | .chain first links => links.joinTo first.rule

/-- The rule that links make of the rule on their left. -/
def Links.joinTo (left : Rule) : Links → Rule
  | .nil => left
  | .cons c next more => more.joinTo (.join c left next.rule)

/-- The rule that a clause means. -/
def Clause.rule : Clause → Rule
  | .comparison field c literal => .comparison c (String.ofList field) literal.value
  | .group inner => inner.rule

end

/-! ### Size -/

mutual

/-- The number of parentheses that are open at once where the most are. -/
def Phrase.nesting : Phrase → Nat
  | .chain first links => max first.nesting links.nesting

def Links.nesting : Links → Nat
  | .nil => 0
  | .cons _ next more => max next.nesting more.nesting

def Clause.nesting : Clause → Nat
  | .comparison .. => 0
  | .group inner => inner.nesting + 1

end

mutual

/-- The number of comparisons. -/
def Phrase.count : Phrase → Nat
  | .chain first links => first.count + links.count

def Links.count : Links → Nat
  | .nil => 0
  | .cons _ next more => next.count + more.count

def Clause.count : Clause → Nat
  | .comparison .. => 1
  | .group inner => inner.count

end

/-! ### A further link -/

/-- Links with one more at their end. -/
def Links.snoc (links : Links) (c : Connective) (last : Clause) : Links :=
  match links with
  | .nil => .cons c last .nil
  | .cons d next more => .cons d next (more.snoc c last)

/-- A phrase with one more link at its end. -/
def Phrase.snoc : Phrase → Connective → Clause → Phrase
  | .chain first links, c, last => .chain first (links.snoc c last)

theorem Links.lexemes_snoc (c : Connective) (last : Clause) : ∀ links : Links,
    (links.snoc c last).lexemes = links.lexemes ++ .word c.symbol.toList :: last.lexemes
  | .nil => by simp [snoc, lexemes]
  | .cons d next more => by simp [snoc, lexemes, lexemes_snoc c last more]

theorem Links.joinTo_snoc (c : Connective) (last : Clause) : ∀ (links : Links) (left : Rule),
    (links.snoc c last).joinTo left = .join c (links.joinTo left) last.rule
  | .nil, left => by simp [snoc, joinTo]
  | .cons d next more, left => by simp [snoc, joinTo, joinTo_snoc c last more]

theorem Links.nesting_snoc (c : Connective) (last : Clause) : ∀ links : Links,
    (links.snoc c last).nesting = max links.nesting last.nesting
  | .nil => by simp [snoc, nesting]
  | .cons d next more => by simp [snoc, nesting, nesting_snoc c last more, Nat.max_assoc]

theorem Links.count_snoc (c : Connective) (last : Clause) : ∀ links : Links,
    (links.snoc c last).count = links.count + last.count
  | .nil => by simp [snoc, count]
  | .cons d next more => by simp [snoc, count, count_snoc c last more, Nat.add_assoc]

theorem Phrase.lexemes_snoc (d : Phrase) (c : Connective) (last : Clause) :
    (d.snoc c last).lexemes = d.lexemes ++ .word c.symbol.toList :: last.lexemes := by
  cases d with
  | chain first links => simp [snoc, lexemes, links.lexemes_snoc]

theorem Phrase.rule_snoc (d : Phrase) (c : Connective) (last : Clause) :
    (d.snoc c last).rule = .join c d.rule last.rule := by
  cases d with
  | chain first links => simp [snoc, rule, links.joinTo_snoc]

theorem Phrase.nesting_snoc (d : Phrase) (c : Connective) (last : Clause) :
    (d.snoc c last).nesting = max d.nesting last.nesting := by
  cases d with
  | chain first links => simp [snoc, nesting, links.nesting_snoc, Nat.max_assoc]

theorem Phrase.count_snoc (d : Phrase) (c : Connective) (last : Clause) :
    (d.snoc c last).count = d.count + last.count := by
  cases d with
  | chain first links => simp [snoc, count, links.count_snoc, Nat.add_assoc]

/-! ### Unambiguity -/

theorem Literal.eq_of_lexeme {a b : Literal} (h : a.lexeme = b.lexeme) : a = b := by
  cases a with
  | text s =>
    cases b with
    | text t =>
      cases h
      rfl
    | number n => cases h
  | number m =>
    cases b with
    | text t => cases h
    | number n =>
      obtain ⟨ds, hds⟩ := m
      obtain ⟨es, hes⟩ := n
      cases h
      rfl

theorem Comparison.eq_of_symbol {c d : Comparison} (h : c.symbol.toList = d.symbol.toList) :
    c = d := by
  revert h
  cases c <;> cases d <;> decide

theorem Connective.eq_of_symbol {c d : Connective} (h : c.symbol.toList = d.symbol.toList) :
    c = d := by
  revert h
  cases c <;> cases d <;> decide

/-- No connective stands in front of the lexemes. -/
def NoConnective (ls : List Lexeme) : Prop :=
  ∀ c : Connective, ls.head? ≠ some (.word c.symbol.toList)

mutual

theorem Phrase.eq_of_lexemes_append : ∀ (d e : Phrase) {xs ys : List Lexeme},
    NoConnective xs → NoConnective ys → d.lexemes ++ xs = e.lexemes ++ ys → d = e ∧ xs = ys
  | .chain s links, .chain t links', xs, ys, hx, hy, h => by
    simp only [Phrase.lexemes, List.append_assoc] at h
    obtain ⟨rfl, hl⟩ := Clause.eq_of_lexemes_append s t h
    obtain ⟨rfl, rfl⟩ := Links.eq_of_lexemes_append links links' hx hy hl
    exact ⟨rfl, rfl⟩

theorem Links.eq_of_lexemes_append : ∀ (k l : Links) {xs ys : List Lexeme},
    NoConnective xs → NoConnective ys → k.lexemes ++ xs = l.lexemes ++ ys → k = l ∧ xs = ys
  | .nil, .nil, xs, ys, hx, hy, h => ⟨rfl, h⟩
  | .nil, .cons c t l, xs, ys, hx, hy, h => by
    -- where one phrase ends and the other goes on there is a connective after the first
    simp only [Links.lexemes, List.nil_append] at h
    subst h
    exact absurd rfl (hx c)
  | .cons c t l, .nil, xs, ys, hx, hy, h => by
    simp only [Links.lexemes, List.nil_append] at h
    subst h
    exact absurd rfl (hy c)
  | .cons c s k, .cons d t l, xs, ys, hx, hy, h => by
    simp only [Links.lexemes, List.cons_append, List.append_assoc, List.cons.injEq,
      Lexeme.word.injEq] at h
    obtain ⟨hcd, hst⟩ := h
    obtain rfl := Connective.eq_of_symbol hcd
    obtain ⟨rfl, hkl⟩ := Clause.eq_of_lexemes_append s t hst
    obtain ⟨rfl, rfl⟩ := Links.eq_of_lexemes_append k l hx hy hkl
    exact ⟨rfl, rfl⟩

theorem Clause.eq_of_lexemes_append : ∀ (s t : Clause) {xs ys : List Lexeme},
    s.lexemes ++ xs = t.lexemes ++ ys → s = t ∧ xs = ys
  | .comparison f c a, .comparison g d b, xs, ys, h => by
    simp only [Clause.lexemes, List.cons_append, List.nil_append, List.cons.injEq,
      Lexeme.word.injEq, Lexeme.symbol.injEq] at h
    obtain ⟨rfl, hcd, hab, rfl⟩ := h
    obtain rfl := Comparison.eq_of_symbol hcd
    obtain rfl := Literal.eq_of_lexeme hab
    exact ⟨rfl, rfl⟩
  | .comparison f c a, .group e, xs, ys, h => by
    simp [Clause.lexemes] at h
  | .group d, .comparison g c b, xs, ys, h => by
    simp [Clause.lexemes] at h
  | .group d, .group e, xs, ys, h => by
    simp only [Clause.lexemes, List.cons_append, List.append_assoc, List.cons.injEq,
      true_and, List.nil_append] at h
    have hclose : ∀ zs : List Lexeme, NoConnective (.mark ')' :: zs) := by
      intro zs c hc
      simp at hc
    obtain ⟨rfl, hr⟩ := Phrase.eq_of_lexemes_append d e (hclose xs) (hclose ys) h
    exact ⟨rfl, (List.cons.inj hr).2⟩

end

/-- Lexemes have at most one derivation. -/
theorem Phrase.eq_of_lexemes {d e : Phrase} (h : d.lexemes = e.lexemes) : d = e := by
  have hnil : NoConnective [] := by
    intro c hc
    cases hc
  exact (Phrase.eq_of_lexemes_append d e hnil hnil (by rw [h])).1

end Rulebook
