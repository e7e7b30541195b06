import Rulebook.Proofs.Grammar.Run

/-!
# Positions

The position of a place counts the bytes of the text before it, so wherever a reader gets to, it has
taken as many bytes as the positions differ (`Place.Reaches`). Positions decide nothing: from two places
that differ in their positions only, the readers find the same and leave the same text
(`IgnoresPosition`).
-/

namespace Rulebook
open Grammar

namespace Place

/-- One place comes before another: the text between them has as many bytes as the positions differ. -/
def Reaches (p q : Place) : Prop :=
  ∃ taken, p.rest = taken ++ q.rest ∧ q.position = p.position + Text.byteCount taken

theorem Reaches.refl (p : Place) : p.Reaches p := ⟨[], rfl, rfl⟩

theorem Reaches.trans {p q s : Place} (h : p.Reaches q) (h' : q.Reaches s) : p.Reaches s := by
  obtain ⟨taken, hrest, hposition⟩ := h
  obtain ⟨taken', hrest', hposition'⟩ := h'
  refine ⟨taken ++ taken', by rw [hrest, hrest', List.append_assoc], ?_⟩
  rw [hposition', hposition, Text.byteCount_append, Nat.add_assoc]

theorem Reaches.suffix {p q : Place} (h : p.Reaches q) : q.rest <:+ p.rest := by
  obtain ⟨taken, hrest, -⟩ := h
  exact ⟨taken, hrest.symm⟩

theorem reaches_after {p : Place} {taken : List Char} (h : taken <+: p.rest) :
    p.Reaches (p.after taken) := by
  obtain ⟨rest, hrest⟩ := h
  refine ⟨taken, ?_, rfl⟩
  rw [after_rest, ← hrest, List.drop_left]

theorem reaches_skipSpaces (p : Place) : p.Reaches p.skipSpaces :=
  reaches_after (List.takeWhile_prefix _)

theorem reaches_of_next? {p q : Place} {l : Lexeme} (h : p.next? = some (l, q)) : p.Reaches q := by
  obtain ⟨hl, rfl⟩ := next?_eq_some.1 h
  refine p.reaches_skipSpaces.trans (reaches_after ?_)
  rw [skipSpaces_rest]
  exact Lexeme.isPrefix_chars hl

end Place

theorem reaches_of_closing {limits : Limits} {p q : Place} (h : closing limits p = .ok ((), q)) :
    p.Reaches q := by
  refine p.reaches_skipSpaces.trans ?_
  cases hr : p.skipSpaces.rest with
  | nil =>
    rw [closing_of_nil hr] at h
    split_ifs at h <;> cases h
    exact .refl _
  | cons c cs =>
    rw [closing_of_cons hr] at h
    split_ifs at h <;> cases h
    exact Place.reaches_after (by rw [hr]; exact List.prefix_append [c] cs)

theorem reaches_of_connective? {p q : Place} {c : Connective} (h : connective? p = some (c, q)) :
    p.Reaches q := Place.reaches_of_next? (connective?_eq_some.1 h)

theorem Grammar.Run.reaches {limits : Limits} {part : Part} {room : Nat} {p q : Place} {r : Rule}
    (h : Run limits part room p r q) : p.Reaches q := by
  induction h with
  | comparison _ hf hc hv =>
    obtain ⟨l, hl⟩ := next?_of_value hv
    have hwords := (Place.reaches_of_next? hf).trans (Place.reaches_of_next? hc)
    obtain ⟨taken, hrest, hposition⟩ := hwords.trans (Place.reaches_of_next? hl)
    exact ⟨taken, hrest, hposition⟩
  | group ho _ _ hc ih => exact (Place.reaches_of_next? ho).trans (ih.trans (reaches_of_closing hc))
  | single _ ih => exact ih
  | join _ hc _ ih₁ ih₂ => exact ih₁.trans ((reaches_of_connective? hc).trans ih₂)

/-! ### Places alike but for their positions -/

/-- The same text is left at two places, and as many comparisons have been read before them. -/
structure Place.Alike (p q : Place) : Prop where
  rest_eq : p.rest = q.rest
  terms_eq : p.terms = q.terms

namespace Place.Alike

variable {p p' q : Place}

theorem symm (h : p.Alike p') : p'.Alike p := ⟨h.rest_eq.symm, h.terms_eq.symm⟩

theorem after (h : p.Alike p') (taken : List Char) : (p.after taken).Alike (p'.after taken) :=
  ⟨by rw [after_rest, after_rest, h.rest_eq], h.terms_eq⟩

theorem skipSpaces (h : p.Alike p') : p.skipSpaces.Alike p'.skipSpaces := by
  rw [Place.skipSpaces, Place.skipSpaces, Place.front, Place.front, h.rest_eq]
  exact h.after _

/-- The same lexeme stands in front of both places. -/
theorem next? {l : Lexeme} (h : p.Alike p') (hn : p.next? = some (l, q)) :
    ∃ q', p'.next? = some (l, q') ∧ q.Alike q' := by
  obtain ⟨hl, rfl⟩ := next?_eq_some.1 hn
  rw [h.rest_eq] at hl
  exact ⟨_, next?_eq_some.2 ⟨hl, rfl⟩, h.skipSpaces.after _⟩

theorem connective? {c : Connective} (h : p.Alike p') (hc : connective? p = some (c, q)) :
    ∃ q', Grammar.connective? p' = some (c, q') ∧ q.Alike q' := by
  obtain ⟨q', hq', halike⟩ := h.next? (connective?_eq_some.1 hc)
  exact ⟨q', connective?_eq_some.2 hq', halike⟩

theorem connective?_eq_none (h : p.Alike p') (hc : Grammar.connective? p = none) :
    Grammar.connective? p' = none := by
  refine connective?_eq_none_of_next? fun c q' hword => ?_
  obtain ⟨q, hq, -⟩ := h.symm.connective? (connective?_eq_some.2 hword)
  rw [hc] at hq
  cases hq

end Place.Alike

namespace Grammar

variable {α β : Type}

/-- A reader that finds the same wherever it is, if the same text is left. -/
def IgnoresPosition (read : Reading α) : Prop :=
  ∀ ⦃p p' a q⦄, p.Alike p' → read p = .ok (a, q) → ∃ q', read p' = .ok (a, q') ∧ q.Alike q'

theorem ignoresPosition_value : IgnoresPosition value := by
  intro p p' v q h hv
  cases v with
  | text s =>
    obtain ⟨q', hq', halike⟩ := h.next? (value_eq_ok_text.1 hv)
    exact ⟨q', value_eq_ok_text.2 hq', halike⟩
  | number x =>
    obtain ⟨digits, hn, hx⟩ := value_eq_ok_number.1 hv
    obtain ⟨q', hq', halike⟩ := h.next? hn
    exact ⟨q', value_eq_ok_number.2 ⟨digits, hq', hx⟩, halike⟩

theorem ignoresPosition_closing (limits : Limits) : IgnoresPosition (closing limits) := by
  intro p p' _ q h hc
  have hs := h.skipSpaces
  cases hr : p.skipSpaces.rest with
  | nil =>
    rw [closing_of_nil hr] at hc
    rw [closing_of_nil (hs.rest_eq.symm.trans hr)]
    split_ifs at hc ⊢ <;> cases hc
    exact ⟨_, rfl, hs⟩
  | cons c cs =>
    rw [closing_of_cons hr] at hc
    rw [closing_of_cons (hs.rest_eq.symm.trans hr)]
    split_ifs at hc ⊢ <;> cases hc
    exact ⟨_, rfl, hs.after [c]⟩

theorem Run.alike {limits : Limits} {part : Part} {room : Nat} {p p' q : Place} {r : Rule}
    (h : Run limits part room p r q) (hp : p.Alike p') :
    ∃ q', Run limits part room p' r q' ∧ q.Alike q' := by
  induction h generalizing p' with
  | comparison ht hf hc hv =>
    obtain ⟨p₁', hf', h₁⟩ := hp.next? hf
    obtain ⟨p₂', hc', h₂⟩ := h₁.next? hc
    obtain ⟨p₃', hv', h₃⟩ := ignoresPosition_value h₂ hv
    rw [hp.terms_eq] at ht
    exact ⟨_, .comparison ht hf' hc' hv', h₃.rest_eq, congrArg (· + 1) h₃.terms_eq⟩
  | group ho _ hstop hclose ih =>
    obtain ⟨p₁', ho', h₁⟩ := hp.next? ho
    obtain ⟨p₂', hrun, h₂⟩ := ih h₁
    obtain ⟨q', hclose', hq⟩ := ignoresPosition_closing _ h₂ hclose
    exact ⟨q', .group ho' hrun (h₂.connective?_eq_none hstop) hclose', hq⟩
  | single _ ih =>
    obtain ⟨q', hrun, hq⟩ := ih hp
    exact ⟨q', .single hrun, hq⟩
  | join _ hc _ ih₁ ih₂ =>
    obtain ⟨p₁', hleft, h₁⟩ := ih₁ hp
    obtain ⟨p₂', hc', h₂⟩ := h₁.connective? hc
    obtain ⟨q', hright, hq⟩ := ih₂ h₂
    exact ⟨q', .join hleft hc' hright, hq⟩

theorem ignoresPosition_termReader (limits : Limits) (room : Nat) :
    IgnoresPosition (termReader limits room) := by
  intro p p' r q h hr
  obtain ⟨q', hrun, hq⟩ := (term_eq_ok.1 hr).alike h
  exact ⟨q', term_eq_ok.2 hrun, hq⟩

theorem ignoresPosition_chainUpTo {term : Reading Rule} (ht : IgnoresPosition term) (fuel : Nat)
    (left : Rule) : IgnoresPosition (chainUpTo term fuel left) := by
  induction fuel generalizing left with
  | zero =>
    intro p p' r q h hr
    cases hr
    exact ⟨p', rfl, h⟩
  | succ fuel ih =>
    intro p p' r q h hr
    cases hc : connective? p with
    | none =>
      simp only [chainUpTo, hc] at hr
      cases hr
      exact ⟨p', by simp only [chainUpTo, h.connective?_eq_none hc], h⟩
    | some cq =>
      obtain ⟨c, next⟩ := cq
      obtain ⟨next', hc', hnext⟩ := h.connective? hc
      simp only [chainUpTo, hc, Outcome.bind_eq_ok, Prod.exists] at hr
      obtain ⟨right, s, hright, hr⟩ := hr
      obtain ⟨s', hright', hs⟩ := ht hnext hright
      obtain ⟨q', hr', hq⟩ := ih _ hs hr
      refine ⟨q', ?_, hq⟩
      simp only [chainUpTo, hc', Outcome.bind_eq_ok]
      exact ⟨_, hright', hr'⟩

theorem ignoresPosition_chainFrom {term : Reading Rule} (ht : IgnoresPosition term) (left : Rule) :
    IgnoresPosition (chainFrom term left) := by
  intro p p' r q h hr
  rw [chainFrom, h.rest_eq] at hr
  exact ignoresPosition_chainUpTo ht _ left h hr

/-! ### What is found -/

/-- What a reader finds, the text it leaves, and the number of comparisons read so far. -/
def found : Except Obstacle (α × Place) → Option (α × List Char × Nat)
  | .ok (a, q) => some (a, q.rest, q.terms)
  | .error _ => none

theorem found_eq_some {x : Except Obstacle (α × Place)} {a : α} {rest : List Char} {terms : Nat} :
    found x = some (a, rest, terms) ↔ ∃ q, x = .ok (a, q) ∧ q.rest = rest ∧ q.terms = terms := by
  cases x with
  | error o =>
    constructor
    · intro h
      cases h
    · rintro ⟨q, h, -⟩
      cases h
  | ok aq =>
    obtain ⟨b, q⟩ := aq
    constructor
    · intro h
      cases h
      exact ⟨q, rfl, rfl, rfl⟩
    · rintro ⟨q', h, rfl, rfl⟩
      cases h
      rfl

theorem found_of_alike (a : α) {q q' : Place} (h : q.Alike q') :
    found (.ok (a, q)) = found (.ok (a, q')) := by
  rw [found, found, h.rest_eq, h.terms_eq]

theorem IgnoresPosition.found_eq {read : Reading α} (hread : IgnoresPosition read) {p p' : Place}
    (h : p.Alike p') : found (read p) = found (read p') := by
  cases hp : read p with
  | ok aq =>
    obtain ⟨a, q⟩ := aq
    obtain ⟨q', hp', hq⟩ := hread h hp
    rw [hp', found_of_alike a hq]
  | error o =>
    cases hp' : read p' with
    | error o' => rfl
    | ok aq =>
      obtain ⟨a, q'⟩ := aq
      obtain ⟨q, hq, -⟩ := hread h.symm hp'
      rw [hp] at hq
      cases hq

theorem found_bind {x y : Except Obstacle (α × Place)}
    {f g : α × Place → Except Obstacle (β × Place)} (h : found x = found y)
    (hfg : ∀ a q q', q.Alike q' → found (f (a, q)) = found (g (a, q'))) :
    found (x >>= f) = found (y >>= g) := by
  cases x with
  | error o =>
    cases y with
    | error o' => rfl
    | ok bq => cases h
  | ok aq =>
    obtain ⟨a, q⟩ := aq
    obtain ⟨q', rfl, hrest, hterms⟩ := found_eq_some.1 h.symm
    exact hfg a q q' ⟨hrest.symm, hterms.symm⟩

end Grammar

end Rulebook
