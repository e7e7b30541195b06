import Mathlib.Logic.Relation
import Rulebook.Proofs.Grammar.Position

/-!
# Where the reader comes to

While it reads a text, the reader has one task after another, each at a place of the text (`Visit`), and
`Turns` says how it goes from visit to visit. A turn goes on in the text or has less to do at the same
place, so there is no endless run of turns (`wellFounded_turns`). A text that is not read is blank, or
the reader comes to a visit where it meets the obstacle (`Rule.visit_of_read`).
-/

namespace Rulebook
open Grammar

theorem Place.skipSpaces_rest_le (p : Place) : p.skipSpaces.rest.length ≤ p.rest.length :=
  p.reaches_skipSpaces.suffix.length_le

namespace Grammar

/-! ### Visits -/

/-- What the reader does at a place: it reads a chain of terms, what follows a term in a chain, a term,
or a part of one. -/
inductive Task where
  | chain (room : Nat)
  | links (room : Nat)
  | term (room : Nat)
  | closing
  | field
  | comparison
  | value
deriving DecidableEq, Repr

/-- A task at a place. -/
structure Visit where
  task : Task
  place : Place
deriving DecidableEq, Repr

/-- The reader goes from one visit to another, either to do a part of its task or to go on after it. -/
inductive Turns (limits : Limits) : Visit → Visit → Prop
  | first {room : Nat} {p : Place} : Turns limits ⟨.chain room, p⟩ ⟨.term room, p⟩
  | afterFirst {room : Nat} {p q : Place} {r : Rule} :
    termReader limits room p = .ok (r, q) → Turns limits ⟨.chain room, p⟩ ⟨.links room, q⟩
  | next {room : Nat} {p q : Place} {c : Connective} :
    connective? p = some (c, q) → Turns limits ⟨.links room, p⟩ ⟨.term room, q⟩
  | afterNext {room : Nat} {p q s : Place} {c : Connective} {r : Rule} :
    connective? p = some (c, q) → termReader limits room q = .ok (r, s) →
    Turns limits ⟨.links room, p⟩ ⟨.links room, s⟩
  | group {room : Nat} {p q : Place} :
    p.next? = some (.mark '(', q) → Turns limits ⟨.term (room + 1), p⟩ ⟨.chain room, q⟩
  | afterGroup {room : Nat} {p q s : Place} {r : Rule} :
    p.next? = some (.mark '(', q) → expression limits room q = .ok (r, s) →
    Turns limits ⟨.term (room + 1), p⟩ ⟨.closing, s⟩
  | simple {room : Nat} {p : Place} :
    (∀ q, p.next? ≠ some (.mark '(', q)) → p.terms < limits.terms →
    Turns limits ⟨.term room, p⟩ ⟨.field, p.skipSpaces⟩
  | afterField {p q : Place} {name : String} :
    field p = .ok (name, q) → Turns limits ⟨.field, p⟩ ⟨.comparison, q⟩
  | afterComparison {p q : Place} {c : Comparison} :
    comparison p = .ok (c, q) → Turns limits ⟨.comparison, p⟩ ⟨.value, q⟩

/-- The reader comes to a visit while it reads a text. -/
def Visits (limits : Limits) (text : String) : Visit → Prop :=
  Relation.ReflTransGen (Turns limits) ⟨.chain limits.depth, { rest := Text.squeeze text.toList }⟩

variable {limits : Limits} {v w : Visit}

theorem Turns.reaches (h : Turns limits v w) : v.place.Reaches w.place := by
  cases h with
  | first => exact .refl _
  | afterFirst hr => exact (term_eq_ok.1 hr).reaches
  | next hc => exact reaches_of_connective? hc
  | afterNext hc hr => exact (reaches_of_connective? hc).trans (term_eq_ok.1 hr).reaches
  | group ho => exact Place.reaches_of_next? ho
  | afterGroup ho hr => exact (Place.reaches_of_next? ho).trans (expression_eq_ok.1 hr).1.reaches
  | simple => exact Place.reaches_skipSpaces _
  | afterField hf => exact Place.reaches_of_next? (field_eq_ok.1 hf)
  | afterComparison hc => exact Place.reaches_of_next? (comparison_eq_ok.1 hc)

theorem Visits.reaches {text : String} (h : Visits limits text v) :
    Place.Reaches { rest := Text.squeeze text.toList } v.place := by
  induction h with
  | refl => exact .refl _
  | tail _ hturn ih => exact ih.trans hturn.reaches

/-! ### The end of reading -/

/-- How many tasks may follow a task without taking anything from the text. -/
def Task.rank : Task → Nat
  | chain _ => 2
  | term _ => 1
  | links _ | closing | field | comparison | value => 0

/-- What there is to do from a visit on. -/
def Visit.remaining (v : Visit) : Nat := 3 * v.place.rest.length + v.task.rank

theorem Task.rank_le (task : Task) : task.rank ≤ 2 := by
  cases task <;> simp [rank]

/-- A character that is taken from the text outweighs whatever task is next. -/
theorem Visit.remaining_lt_of_rest (h : w.place.rest.length < v.place.rest.length) :
    w.remaining < v.remaining := by
  have hrank := w.task.rank_le
  rw [remaining, remaining]
  omega

theorem Turns.remaining_lt (h : Turns limits v w) : w.remaining < v.remaining := by
  cases h with
  | first => exact Nat.lt_succ_self _
  | afterFirst hr => exact Visit.remaining_lt_of_rest (term_eq_ok.1 hr).rest_lt
  | next hc => exact Visit.remaining_lt_of_rest (next?_rest_lt_of_connective? hc)
  | afterNext hc hr =>
    have hlt := next?_rest_lt_of_connective? hc
    exact Visit.remaining_lt_of_rest ((term_eq_ok.1 hr).rest_lt.trans hlt)
  | group ho => exact Visit.remaining_lt_of_rest (Place.next?_rest_lt ho)
  | afterGroup ho hr =>
    have hlt := Place.next?_rest_lt ho
    exact Visit.remaining_lt_of_rest ((expression_eq_ok.1 hr).1.rest_lt.trans hlt)
  | @simple room p =>
    -- nothing but spaces is passed here, so it is the rank that gets smaller
    have hle := p.skipSpaces_rest_le
    simp only [Visit.remaining, Task.rank]
    omega
  | afterField hf =>
    exact Visit.remaining_lt_of_rest (Place.next?_rest_lt (field_eq_ok.1 hf))
  | afterComparison hc =>
    exact Visit.remaining_lt_of_rest (Place.next?_rest_lt (comparison_eq_ok.1 hc))

theorem wellFounded_turns (limits : Limits) :
    WellFounded fun next now => Turns limits now next :=
  Subrelation.wf (fun h => h.remaining_lt) (measure Visit.remaining).wf

/-! ### Where the reader stops -/

/-- An obstacle is met at a visit: it stands behind the spaces at the place, and it is not that there is
no rule at all. -/
structure Visit.Meets (v : Visit) (o : Obstacle) : Prop where
  position_eq : o.position = v.place.skipSpaces.position
  snag_ne : o.snag ≠ .noRule

/-- From a visit the reader comes to one where it meets an obstacle. -/
def Halts (limits : Limits) (v : Visit) (o : Obstacle) : Prop :=
  ∃ w, Relation.ReflTransGen (Turns limits) v w ∧ w.Meets o

variable {o : Obstacle} {p : Place} {room : Nat}

theorem Visit.Meets.halts (h : v.Meets o) : Halts limits v o := ⟨v, .refl, h⟩

theorem Halts.turn (h : Halts limits w o) (hturn : Turns limits v w) : Halts limits v o := by
  obtain ⟨u, hu, hmeets⟩ := h
  exact ⟨u, .head hturn hu, hmeets⟩

theorem meets_of_field (h : field p = .error o) : Visit.Meets ⟨.field, p⟩ o := by
  rw [field_eq] at h
  split at h <;> cases h
  exact ⟨rfl, Snag.noConfusion⟩

theorem meets_of_comparison (h : comparison p = .error o) : Visit.Meets ⟨.comparison, p⟩ o := by
  rw [comparison_eq] at h
  split at h
  · split at h <;> cases h
    exact ⟨rfl, Snag.noConfusion⟩
  · cases h
    exact ⟨rfl, Snag.noConfusion⟩

theorem meets_of_value (h : value p = .error o) : Visit.Meets ⟨.value, p⟩ o := by
  rw [value_eq] at h
  split at h
  · cases h
  · split at h <;> cases h
    exact ⟨rfl, Snag.noConfusion⟩
  · cases h
    exact ⟨rfl, Snag.noConfusion⟩
  · cases h
    exact ⟨rfl, Snag.noConfusion⟩

theorem meets_of_closing (h : closing limits p = .error o) : Visit.Meets ⟨.closing, p⟩ o := by
  cases hr : p.skipSpaces.rest with
  | nil =>
    rw [closing_of_nil hr] at h
    split_ifs at h
    cases h
    exact ⟨rfl, Snag.noConfusion⟩
  | cons c cs =>
    rw [closing_of_cons hr] at h
    split_ifs at h
    cases h
    exact ⟨rfl, Snag.noConfusion⟩

theorem halts_simpleTerm (hno : ∀ q, p.next? ≠ some (.mark '(', q))
    (h : simpleTerm limits p.skipSpaces = .error o) : Halts limits ⟨.term room, p⟩ o := by
  rw [simpleTerm, Place.skipSpaces_terms] at h
  split_ifs at h with hterms
  · cases h
    exact Visit.Meets.halts ⟨rfl, Snag.noConfusion⟩
  · refine Halts.turn ?_ (.simple hno (Nat.not_le.1 hterms))
    obtain hf | ⟨⟨name, p₁⟩, hf, h⟩ := Outcome.bind_eq_error.1 h
    · exact (meets_of_field hf).halts
    refine Halts.turn ?_ (.afterField hf)
    obtain hc | ⟨⟨c, p₂⟩, hc, h⟩ := Outcome.bind_eq_error.1 h
    · exact (meets_of_comparison hc).halts
    refine Halts.turn ?_ (.afterComparison hc)
    obtain hv | ⟨⟨v, p₃⟩, hv, h⟩ := Outcome.bind_eq_error.1 h
    · exact (meets_of_value hv).halts
    · cases h

theorem halts_term (hgroup : ∀ room', room = room' + 1 → ∀ p o,
      expression limits room' p = .error o → Halts limits ⟨.chain room', p⟩ o)
    (h : termReader limits room p = .error o) : Halts limits ⟨.term room, p⟩ o := by
  by_cases hopen : ∃ q, p.next? = some (.mark '(', q)
  · obtain ⟨q, ho⟩ := hopen
    rw [termReader, term_of_group ho] at h
    cases room with
    | zero =>
      cases h
      exact Visit.Meets.halts ⟨rfl, Snag.noConfusion⟩
    | succ room =>
      simp only [innerReader, Outcome.bind_eq_error, Prod.exists] at h
      obtain hr | ⟨r, s, hr, hc | ⟨-, s', -, h⟩⟩ := h
      · exact (hgroup room rfl q o hr).turn (.group ho)
      · exact (meets_of_closing hc).halts.turn (.afterGroup ho hr)
      · cases h
  · have hno : ∀ q, p.next? ≠ some (.mark '(', q) := fun q hq => hopen ⟨q, hq⟩
    rw [termReader, term_of_no_group hno] at h
    exact halts_simpleTerm hno h

theorem halts_chainFrom (hterm : ∀ p o, termReader limits room p = .error o →
      Halts limits ⟨.term room, p⟩ o) {left : Rule}
    (h : chainFrom (termReader limits room) left p = .error o) : Halts limits ⟨.links room, p⟩ o := by
  induction hlength : p.rest.length using Nat.strong_induction_on generalizing p left with
  | _ length ih =>
    cases hc : connective? p with
    | none =>
      rw [chainFrom_of_none hc] at h
      cases h
    | some cq =>
      obtain ⟨c, q⟩ := cq
      rw [chainFrom_of_some termReader_rest_lt hc] at h
      obtain hr | ⟨⟨r, s⟩, hr, h⟩ := Outcome.bind_eq_error.1 h
      · exact (hterm q o hr).turn (.next hc)
      · have hlt := next?_rest_lt_of_connective? hc
        have hlt' := termReader_rest_lt q r s hr
        exact (ih s.rest.length (by omega) h rfl).turn (.afterNext hc hr)

theorem halts_chain (hterm : ∀ p o, termReader limits room p = .error o →
      Halts limits ⟨.term room, p⟩ o)
    (h : expression limits room p = .error o) : Halts limits ⟨.chain room, p⟩ o := by
  rw [expression_eq, chain_eq] at h
  obtain hr | ⟨⟨r, q⟩, hr, h⟩ := Outcome.bind_eq_error.1 h
  · exact (hterm p o hr).turn .first
  · exact (halts_chainFrom hterm h).turn (.afterFirst hr)

/-- A reader that stops has come to the visit where it meets the obstacle. -/
theorem halts_expression (h : expression limits room p = .error o) :
    Halts limits ⟨.chain room, p⟩ o := by
  induction room generalizing p o with
  | zero => exact halts_chain (fun p o => halts_term fun room' h => by cases h) h
  | succ room ih =>
    refine halts_chain (fun p o => halts_term fun room' h p o hr => ?_) h
    cases h
    exact ih hr

/-- A chain that is read is left at a visit to what follows its last term. -/
theorem Run.turns {p q : Place} {r : Rule} (h : Run limits .chain room p r q) :
    Relation.ReflTransGen (Turns limits) ⟨.chain room, p⟩ ⟨.links room, q⟩ := by
  generalize hpart : Part.chain = part at h
  induction h with
  | comparison => cases hpart
  | group => cases hpart
  | single ht => exact .single (.afterFirst (term_eq_ok.2 ht))
  | join _ hc ht ih => exact (ih hpart).tail (.afterNext hc (term_eq_ok.2 ht))

end Grammar

/-- A text that is not read is blank, or the reader comes to a visit where it meets the obstacle. -/
theorem Rule.visit_of_read {limits : Limits} {text : String} {o : Obstacle}
    (h : Rule.read limits text = .error o) :
    (Text.squeeze text.toList = [] ∧ o = ⟨0, .noRule⟩) ∨ ∃ v, Visits limits text v ∧ v.Meets o := by
  rw [Rule.read] at h
  split_ifs at h with hempty
  · cases h
    exact Or.inl ⟨List.isEmpty_iff.1 hempty, rfl⟩
  · obtain hr | ⟨⟨r, q⟩, hr, h⟩ := Outcome.bind_eq_error.1 h
    · exact Or.inr (halts_expression hr)
    · simp only at h
      split_ifs at h with hend
      · cases h
      · cases h
        exact Or.inr ⟨_, (expression_eq_ok.1 hr).1.turns, rfl, Snag.noConfusion⟩

end Rulebook
