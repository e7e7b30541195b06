import Rulebook.Proofs.Grammar.Readers

/-!
# Successful runs of the reader

`Run limits part room p r q` says step by step how the reader gets from the place `p` to the place
`q` and finds the rule `r` on the way, with `room` parentheses left to open. The reader succeeds
exactly along such a run (`term_eq_ok`, `expression_eq_ok`), so what holds of every rule that is read
is proved by induction on runs, without the bound on the number of connectives that the reader
carries.
-/

namespace Rulebook
open Grammar

namespace Grammar

/-- The two parts of a rule text that hold a rule. -/
inductive Part where
  | term
  | chain

/-- A successful run of the reader over a part of a rule text. -/
inductive Run (limits : Limits) : Part → Nat → Place → Rule → Place → Prop
  | comparison {room : Nat} {p p₁ p₂ p₃ : Place} {field : String} {c : Comparison} {v : Value} :
    p.terms < limits.terms → p.next? = some (.word field.toList, p₁) →
    p₁.next? = some (.symbol c.symbol.toList, p₂) → value p₂ = .ok (v, p₃) →
    Run limits .term room p (.comparison c field v) { p₃ with terms := p₃.terms + 1 }
  | group {room : Nat} {p p₁ p₂ q : Place} {r : Rule} :
    p.next? = some (.mark '(', p₁) → Run limits .chain room p₁ r p₂ → connective? p₂ = none →
    closing limits p₂ = .ok ((), q) → Run limits .term (room + 1) p r q
  | single {room : Nat} {p q : Place} {r : Rule} :
    Run limits .term room p r q → Run limits .chain room p r q
  | join {room : Nat} {p p₁ p₂ q : Place} {c : Connective} {l r : Rule} :
    Run limits .chain room p l p₁ → connective? p₁ = some (c, p₂) →
    Run limits .term room p₂ r q → Run limits .chain room p (.join c l r) q

/-! ### Progress -/

theorem next?_rest_lt_of_connective? {p q : Place} {c : Connective}
    (h : connective? p = some (c, q)) : q.rest.length < p.rest.length :=
  Place.next?_rest_lt (connective?_eq_some.1 h)

theorem next?_of_value {p q : Place} {v : Value} (h : value p = .ok (v, q)) :
    ∃ l, p.next? = some (l, q) := by
  cases v with
  | text s => exact ⟨_, value_eq_ok_text.1 h⟩
  | number x =>
    obtain ⟨digits, hn, -⟩ := value_eq_ok_number.1 h
    exact ⟨_, hn⟩

theorem rest_le_of_closing {limits : Limits} {p q : Place} (h : closing limits p = .ok ((), q)) :
    q.rest.length ≤ p.rest.length := by
  have hs : p.skipSpaces.rest.length ≤ p.rest.length := by
    rw [Place.skipSpaces_rest]
    exact Lexeme.length_trimSpaces_le _
  cases hr : p.skipSpaces.rest with
  | nil =>
    rw [closing_of_nil hr] at h
    split_ifs at h <;> cases h
    exact hs
  | cons c cs =>
    rw [closing_of_cons hr] at h
    split_ifs at h <;> cases h
    simp only [Place.after_rest, List.length_drop]
    omega

theorem Run.rest_lt {limits : Limits} {part : Part} {room : Nat} {p q : Place} {r : Rule}
    (h : Run limits part room p r q) : q.rest.length < p.rest.length := by
  induction h with
  | comparison ht hf hc hv =>
    obtain ⟨l, hl⟩ := next?_of_value hv
    have h₁ := Place.next?_rest_lt hf
    have h₂ := Place.next?_rest_lt hc
    have h₃ := Place.next?_rest_lt hl
    show _ < _
    simp only
    omega
  | group ho _ _ hc ih =>
    have h₁ := Place.next?_rest_lt ho
    have h₂ := rest_le_of_closing hc
    omega
  | single _ ih => exact ih
  | join _ hc _ ih₁ ih₂ =>
    have h := next?_rest_lt_of_connective? hc
    omega

/-! ### The chain without a bound -/

/-- The terms that follow a rule, joined to it. -/
def chainFrom (term : Reading Rule) (left : Rule) : Reading Rule :=
  fun p => chainUpTo term p.rest.length left p

theorem chain_eq (term : Reading Rule) (p : Place) :
    chain term p = (do let (first, q) ← term p; chainFrom term first q) := rfl

theorem chainUpTo_congr {term : Reading Rule}
    (ht : ∀ p r q, term p = .ok (r, q) → q.rest.length < p.rest.length) {n m : Nat} {left : Rule}
    {p : Place} (hn : p.rest.length ≤ n) (hm : p.rest.length ≤ m) :
    chainUpTo term n left p = chainUpTo term m left p := by
  induction n generalizing m left p with
  | zero =>
    cases m with
    | zero => rfl
    | succ m =>
      cases hc : connective? p with
      | none => simp only [chainUpTo, hc]
      | some cq =>
        have := next?_rest_lt_of_connective? hc
        omega
  | succ n ih =>
    cases hc : connective? p with
    | none =>
      cases m with
      | zero => simp only [chainUpTo, hc]
      | succ m => simp only [chainUpTo, hc]
    | some cq =>
      obtain ⟨c, q⟩ := cq
      have hq := next?_rest_lt_of_connective? hc
      cases m with
      | zero => omega
      | succ m =>
        simp only [chainUpTo, hc]
        cases hr : term q with
        | error e => rfl
        | ok rs =>
          -- a connective and a term are gone from the text, so both bounds still suffice
          obtain ⟨r, s⟩ := rs
          have hs := ht q r s hr
          exact ih (p := s) (by omega) (by omega)

theorem chainUpTo_eq_chainFrom {term : Reading Rule}
    (ht : ∀ p r q, term p = .ok (r, q) → q.rest.length < p.rest.length) {fuel : Nat} {left : Rule}
    {p : Place} (hf : p.rest.length ≤ fuel) :
    chainUpTo term fuel left p = chainFrom term left p := chainUpTo_congr ht hf le_rfl

theorem chainFrom_of_none {term : Reading Rule} {left : Rule} {p : Place}
    (h : connective? p = none) : chainFrom term left p = .ok (left, p) := by
  unfold chainFrom
  cases p.rest.length with
  | zero => rfl
  | succ n => simp only [chainUpTo, h]

theorem chainFrom_of_some {term : Reading Rule}
    (ht : ∀ p r q, term p = .ok (r, q) → q.rest.length < p.rest.length) {left : Rule}
    {p q : Place} {c : Connective} (h : connective? p = some (c, q)) :
    chainFrom term left p = (do let (right, s) ← term q; chainFrom term (.join c left right) s) := by
  have hq := next?_rest_lt_of_connective? h
  conv => lhs; unfold chainFrom
  cases hn : p.rest.length with
  | zero => omega
  | succ n =>
    simp only [chainUpTo, h]
    cases hr : term q with
    | error e => rfl
    | ok rs =>
      obtain ⟨r, s⟩ := rs
      have hs := ht q r s hr
      have hle : s.rest.length ≤ n := by omega
      exact chainUpTo_eq_chainFrom ht hle

/-! ### Readers and runs -/

/-- The reader of what stands in parentheses, if there is room for another pair. -/
def innerReader (limits : Limits) : Nat → Option (Reading Rule)
  | 0 => none
  | room + 1 => some (expression limits room)

/-- The reader of a term with some room. -/
def termReader (limits : Limits) (room : Nat) : Reading Rule :=
  term limits (innerReader limits room)

theorem expression_eq (limits : Limits) (room : Nat) (p : Place) :
    expression limits room p = chain (termReader limits room) p := by
  cases room <;> rfl

theorem run_of_term {limits : Limits} {room : Nat} {p q : Place} {r : Rule}
    (ih : ∀ room' p r q, room = room' + 1 → expression limits room' p = .ok (r, q) →
      Run limits .chain room' p r q ∧ connective? q = none)
    (h : termReader limits room p = .ok (r, q)) : Run limits .term room p r q := by
  by_cases hg : ∃ p₁, p.next? = some (.mark '(', p₁)
  · obtain ⟨p₁, hp₁⟩ := hg
    rw [termReader, term_of_group hp₁] at h
    cases room with
    | zero => cases h
    | succ room =>
      simp only [innerReader, Outcome.bind_eq_ok, Prod.exists] at h
      obtain ⟨r', p₂, hr, u, q', hc, he⟩ := h
      cases he
      obtain ⟨hrun, hstop⟩ := ih room p₁ r p₂ rfl hr
      exact .group hp₁ hrun hstop hc
  · rw [termReader, term_of_no_group (fun p₁ hp₁ => hg ⟨p₁, hp₁⟩), simpleTerm_eq_ok] at h
    obtain ⟨ht, f, p₁, c, p₂, v, p₃, hf, hc, hv, rfl, rfl⟩ := h
    rw [field_eq_ok, Place.next?_skipSpaces] at hf
    exact .comparison ht hf (comparison_eq_ok.1 hc) hv

theorem run_of_chainUpTo {limits : Limits} {room : Nat}
    (ht : ∀ p r q, termReader limits room p = .ok (r, q) → Run limits .term room p r q) {fuel : Nat}
    {start p q : Place} {left r : Rule} (hl : Run limits .chain room start left p)
    (hf : p.rest.length ≤ fuel) (h : chainUpTo (termReader limits room) fuel left p = .ok (r, q)) :
    Run limits .chain room start r q ∧ connective? q = none := by
  induction fuel generalizing left p with
  | zero =>
    cases h
    refine ⟨hl, ?_⟩
    cases hc : connective? q with
    | none => rfl
    | some cq =>
      have := next?_rest_lt_of_connective? hc
      omega
  | succ fuel ih =>
    cases hc : connective? p with
    | none =>
      simp only [chainUpTo, hc] at h
      cases h
      exact ⟨hl, hc⟩
    | some cq =>
      obtain ⟨c, next⟩ := cq
      simp only [chainUpTo, hc, Outcome.bind_eq_ok, Prod.exists] at h
      obtain ⟨right, s, hr, hs⟩ := h
      have hrun := ht next right s hr
      have hn := next?_rest_lt_of_connective? hc
      have hlt := hrun.rest_lt
      exact ih (.join hl hc hrun) (by omega) hs

theorem run_of_expression {limits : Limits} {room : Nat} {p q : Place} {r : Rule}
    (h : expression limits room p = .ok (r, q)) :
    Run limits .chain room p r q ∧ connective? q = none := by
  -- chains in parentheses have less room, so the induction is on the room
  induction room generalizing p q r with
  | zero =>
    have ht : ∀ p r q, termReader limits 0 p = .ok (r, q) → Run limits .term 0 p r q :=
      fun p r q => run_of_term (fun room' _ _ _ h => by omega)
    rw [expression_eq, chain_eq, Outcome.bind_eq_ok] at h
    obtain ⟨⟨first, s⟩, hfirst, hrest⟩ := h
    exact run_of_chainUpTo ht (.single (ht _ _ _ hfirst)) le_rfl hrest
  | succ room ih =>
    have ht : ∀ p r q, termReader limits (room + 1) p = .ok (r, q) →
        Run limits .term (room + 1) p r q :=
      fun p r q => run_of_term (fun room' p r q h => by cases h; exact ih)
    rw [expression_eq, chain_eq, Outcome.bind_eq_ok] at h
    obtain ⟨⟨first, s⟩, hfirst, hrest⟩ := h
    exact run_of_chainUpTo ht (.single (ht _ _ _ hfirst)) le_rfl hrest

theorem termReader_rest_lt {limits : Limits} {room : Nat} (p : Place) (r : Rule) (q : Place)
    (h : termReader limits room p = .ok (r, q)) : q.rest.length < p.rest.length :=
  (run_of_term (fun _ _ _ _ _ => run_of_expression) h).rest_lt

/-- What a run says the reader does: a term is read, and of a chain so much that the terms after it
are joined to it. -/
theorem Run.reader_eq {limits : Limits} {part : Part} {room : Nat} {p q : Place} {r : Rule}
    (h : Run limits part room p r q) :
    match part with
    | .term => termReader limits room p = .ok (r, q)
    | .chain => expression limits room p = chainFrom (termReader limits room) r q := by
  induction h with
  | @comparison room p p₁ p₂ p₃ field c v ht hf hc hv =>
    have hg : ∀ q, p.next? ≠ some (.mark '(', q) := by
      intro q hq
      rw [hf] at hq
      cases hq
    show termReader limits room p = _
    rw [termReader, term_of_no_group hg, simpleTerm_eq_ok]
    exact ⟨ht, field, p₁, c, p₂, v, p₃, by rw [field_eq_ok, Place.next?_skipSpaces, hf],
      comparison_eq_ok.2 hc, hv, rfl, rfl⟩
  | @group room p p₁ p₂ q r ho _ hstop hc ih =>
    show termReader limits (room + 1) p = _
    rw [chainFrom_of_none hstop] at ih
    rw [termReader, term_of_group ho]
    simp only [innerReader, ih, hc, bind, Except.bind]
    rfl
  | @single room p q r _ ih =>
    show expression limits room p = _
    rw [expression_eq, chain_eq, ih]
    rfl
  | @join room p p₁ p₂ q c l r _ hc _ ih₁ ih₂ =>
    -- the reader goes on from the left part with whatever is left of the chain
    show expression limits room p = _
    rw [ih₁, chainFrom_of_some termReader_rest_lt hc, ih₂]
    rfl

theorem term_eq_ok {limits : Limits} {room : Nat} {p q : Place} {r : Rule} :
    termReader limits room p = .ok (r, q) ↔ Run limits .term room p r q :=
  ⟨run_of_term fun _ _ _ _ _ => run_of_expression, fun h => h.reader_eq⟩

theorem expression_eq_ok {limits : Limits} {room : Nat} {p q : Place} {r : Rule} :
    expression limits room p = .ok (r, q) ↔
      Run limits .chain room p r q ∧ connective? q = none := by
  refine ⟨run_of_expression, fun ⟨h, hstop⟩ => ?_⟩
  have he := h.reader_eq
  simp only at he
  rw [he, chainFrom_of_none hstop]

end Grammar

theorem Place.rest_skipSpaces_eq_nil {p : Place} : p.skipSpaces.rest = [] ↔ p.next? = none := by
  rw [next?_eq_none, skipSpaces_rest]

/-- A text spells a rule exactly if a run over the squeezed text leads to its end. -/
theorem Rule.read_eq_ok {limits : Limits} {text : String} {r : Rule} :
    Rule.read limits text = .ok r ↔
      ∃ q, Run limits .chain limits.depth { rest := Text.squeeze text.toList } r q ∧
        q.next? = none := by
  rw [Rule.read]
  split_ifs with hempty
  · constructor
    · intro h
      cases h
    · rintro ⟨q, hrun, -⟩
      have hlt := hrun.rest_lt
      rw [List.isEmpty_iff.1 hempty, List.length_nil] at hlt
      omega
  · rw [Outcome.bind_eq_ok]
    constructor
    · rintro ⟨⟨r', q⟩, hr, hend⟩
      simp only at hend
      split_ifs at hend with hq
      · cases hend
        exact ⟨q, (run_of_expression hr).1, Place.rest_skipSpaces_eq_nil.1 (List.isEmpty_iff.1 hq)⟩
      · cases hend
    · rintro ⟨q, hrun, hq⟩
      have hstop : connective? q = none :=
        connective?_eq_none_of_next? fun c q' hword => by
          rw [hq] at hword
          cases hword
      refine ⟨(r, q), expression_eq_ok.2 ⟨hrun, hstop⟩, ?_⟩
      simp only [Place.rest_skipSpaces_eq_nil.2 hq]
      rfl

end Rulebook
