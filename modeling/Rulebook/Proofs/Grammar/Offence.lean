import Mathlib.Logic.Function.Iterate
import Rulebook.Proofs.Grammar.Acceptance
import Rulebook.Proofs.Grammar.Viability
import Rulebook.Proofs.Grammar.Visits

/-!
# Where a strict reader stops

A strict reader that refuses a text names the first offence in it (`parse_strict_error`): the first
lexeme with which the text can no longer become a phrase, or that opens one parenthesis too many, or that
starts one comparison too many; or the end of a text that is no phrase. Every reader either goes on over
lexemes that are no offence, or stops before the first that is one (`Leads`).
-/

namespace Rulebook
open Grammar

namespace Lexeme

/-! ### Offsets -/

/-- What is left of a text after its first lexeme. -/
def afterFirst (cs : List Char) : List Char :=
  match front? (trimSpaces cs) with
  | some l => (trimSpaces cs).drop l.chars.length
  | none => []

/-- The number of bytes of a text before its lexeme of this number, counted from zero, or before the end
of the text if it has no more lexemes. -/
def offset (k : Nat) (cs : List Char) : Nat :=
  Text.byteCount cs - Text.byteCount (trimSpaces (afterFirst^[k] cs))

theorem split_afterFirst (cs : List Char) : split (afterFirst cs) = (split cs).tail := by
  unfold afterFirst
  split
  · next l hl =>
    rw [split_of_some hl]
    rfl
  · next hnone =>
    rw [split_of_none hnone]
    exact split_of_none rfl

theorem split_iterate (k : Nat) (cs : List Char) : split (afterFirst^[k] cs) = (split cs).drop k := by
  induction k generalizing cs with
  | zero => rfl
  | succ k ih => rw [Function.iterate_succ_apply, ih, split_afterFirst, List.drop_tail]

/-- The end of a text is where its lexemes have all been counted. -/
theorem offset_length (cs : List Char) : offset (split cs).length cs = Text.byteCount cs := by
  have hsplit : split (afterFirst^[(split cs).length] cs) = [] := by
    rw [split_iterate, List.drop_length]
  have hrest : trimSpaces (afterFirst^[(split cs).length] cs) = [] := by
    rw [← front?_eq_none]
    cases hfront : front? (trimSpaces (afterFirst^[(split cs).length] cs)) with
    | none => rfl
    | some l =>
      rw [split_of_some hfront] at hsplit
      cases hsplit
  rw [offset, hrest, Text.byteCount_nil, Nat.sub_zero]

/-! ### Offences -/

/-- A lexeme that must not stand after others, or their end. -/
inductive Offends (depth terms : Nat) (before : List Lexeme) : Option Lexeme → Prop
  /-- No phrase starts like that. -/
  | lexeme {l : Lexeme} : ¬ Viable (before ++ [l]) → Offends depth terms before (some l)
  /-- The phrase is not complete. -/
  | ending : ¬ IsPhrase before → Offends depth terms before none
  /-- Where a term may start one more parenthesis is opened than may be open. -/
  | tooDeep : Viable (before ++ [.mark '(']) → depth ≤ opened before →
    Offends depth terms before (some (.mark '('))
  /-- Where a term may start a comparison starts, and there are as many as there may be. -/
  | tooMany {w : List Char} : Viable (before ++ [.mark '(']) → terms ≤ comparisons before →
    Offends depth terms before (some (.word w))

/-- The first lexeme that must not stand where it stands, counted from zero, or the end. -/
structure IsFirstOffence (depth terms : Nat) (ls : List Lexeme) (k : Nat) : Prop where
  le_length : k ≤ ls.length
  offends : Offends depth terms (ls.take k) ls[k]?
  first : ∀ i < k, ¬ Offends depth terms (ls.take i) ls[i]?

end Lexeme

open Lexeme (Offends IsFirstOffence offset split afterFirst trimSpaces)

namespace Stand

/-- A lexeme over which a step leads from a stand. -/
def Allows (s : Stand) (l : Lexeme) : Prop := ∃ t, s.Step l t

variable {o n : Nat} {l : Lexeme}

theorem allows_term : Allows ⟨.term, o, n⟩ l ↔ l = .mark '(' ∨ ∃ w, l = .word w := by
  constructor
  · rintro ⟨t, ht⟩
    cases ht with
    | «open» => exact Or.inl rfl
    | field w => exact Or.inr ⟨w, rfl⟩
  · rintro (rfl | ⟨w, rfl⟩)
    · exact ⟨_, .open⟩
    · exact ⟨_, .field w⟩

theorem allows_comparison :
    Allows ⟨.comparison, o, n⟩ l ↔ ∃ c : Comparison, l = .symbol c.symbol.toList := by
  constructor
  · rintro ⟨t, ht⟩
    cases ht with
    | symbol c => exact ⟨c, rfl⟩
  · rintro ⟨c, rfl⟩
    exact ⟨_, .symbol c⟩

theorem allows_value : Allows ⟨.value, o, n⟩ l ↔ ∃ literal : Literal, l = literal.lexeme := by
  constructor
  · rintro ⟨t, ht⟩
    cases ht with
    | literal literal => exact ⟨literal, rfl⟩
  · rintro ⟨literal, rfl⟩
    exact ⟨_, .literal literal⟩

theorem allows_more : Allows ⟨.more, o, n⟩ l ↔
    (∃ c : Connective, l = .word c.symbol.toList) ∨ (l = .mark ')' ∧ 0 < o) := by
  constructor
  · rintro ⟨t, ht⟩
    cases ht with
    | connective c => exact Or.inl ⟨c, rfl⟩
    | close => exact Or.inr ⟨rfl, Nat.succ_pos _⟩
  · rintro (⟨c, rfl⟩ | ⟨rfl, ho⟩)
    · exact ⟨_, .connective c⟩
    · obtain ⟨o, rfl⟩ : ∃ m, o = m + 1 := ⟨o - 1, by omega⟩
      exact ⟨_, .close⟩

/-- A lexeme that is allowed at a stand but goes beyond the limits. -/
def Exceeds (depth terms : Nat) (s : Stand) (l : Lexeme) : Prop :=
  s.awaits = .term ∧ ((l = .mark '(' ∧ depth ≤ s.opened) ∨ ((∃ w, l = .word w) ∧ terms ≤ s.terms))

theorem not_exceeds {depth terms : Nat} {s : Stand} (h : s.awaits ≠ .term) :
    ¬ s.Exceeds depth terms l := fun hexceeds => h hexceeds.1

/-- Nothing leads on from a stand. -/
def Stuck (depth terms : Nat) (s : Stand) : Option Lexeme → Prop
  | some l => ¬ s.Allows l ∨ s.Exceeds depth terms l
  | none => ¬ (s.awaits = .more ∧ s.opened = 0)

variable {depth terms : Nat} {s : Stand} {before : List Lexeme}

/-- Where lexemes lead decides what offends after them. -/
theorem Steps.offends_iff (h : start.Steps before s) {next : Option Lexeme} :
    Offends depth terms before next ↔ s.Stuck depth terms next := by
  cases next with
  | none =>
    have hphrase : Lexeme.IsPhrase before ↔ s.awaits = .more ∧ s.opened = 0 := by
      rw [Lexeme.isPhrase_iff]
      constructor
      · rintro ⟨n, hn⟩
        obtain rfl := h.unique hn
        exact ⟨rfl, rfl⟩
      · obtain ⟨awaits, o, n⟩ := s
        rintro ⟨rfl, rfl⟩
        exact ⟨n, h⟩
    constructor
    · rintro ⟨⟩
      next hnot => exact mt hphrase.2 hnot
    · exact fun hnot => .ending (mt hphrase.1 hnot)
  | some l =>
    have hviable : Lexeme.Viable (before ++ [l]) ↔ s.Allows l := Lexeme.viable_concat_iff h
    have hterm := Lexeme.viable_opening_iff h
    constructor
    · intro hoffends
      cases hoffends with
      | lexeme hnot => exact Or.inl (mt hviable.2 hnot)
      | tooDeep hopen hdepth =>
        rw [h.opened_eq] at hdepth
        exact Or.inr ⟨hterm.1 hopen, Or.inl ⟨rfl, hdepth⟩⟩
      | tooMany hopen hterms =>
        rw [h.comparisons_eq] at hterms
        exact Or.inr ⟨hterm.1 hopen, Or.inr ⟨⟨_, rfl⟩, hterms⟩⟩
    · rintro (hnot | ⟨hawaits, ⟨rfl, hdepth⟩ | ⟨⟨w, rfl⟩, hterms⟩⟩)
      · exact .lexeme (mt hviable.1 hnot)
      · exact .tooDeep (hterm.2 hawaits) (by rwa [h.opened_eq])
      · exact .tooMany (hterm.2 hawaits) (by rwa [h.comparisons_eq])

end Stand

open Stand (Step Steps)

/-! ### Places without an offence before them -/

/-- A place in a text that lies after some of its lexemes, none of which offends, and the stand to which
these lead. -/
structure Place.Follows (limits : Limits) (cs : List Char) (k : Nat) (p : Place) (s : Stand) :
    Prop where
  rest_eq : p.rest = afterFirst^[k] cs
  position_eq : p.position + Text.byteCount p.rest = Text.byteCount cs
  le_length : k ≤ (split cs).length
  steps : Steps .start ((split cs).take k) s
  clear : ∀ i < k, ¬ Offends limits.depth limits.terms ((split cs).take i) (split cs)[i]?

/-- A place after lexemes that do not offend, by what has to come next and the parentheses that are open;
the place itself knows the number of comparisons. -/
def Place.Awaits (limits : Limits) (cs : List Char) (awaits : Awaited) (o : Nat) (p : Place) : Prop :=
  ∃ k, p.Follows limits cs k ⟨awaits, o, p.terms⟩

/-- A reader gets to a place of some kind, or names the first offence. -/
def Grammar.Leads {α : Type} (limits : Limits) (cs : List Char) (x : Except Obstacle (α × Place))
    (P : Place → Prop) : Prop :=
  match x with
  | .ok (_, q) => P q
  | .error obstacle => ∃ k, obstacle.position = offset k cs ∧
      IsFirstOffence limits.depth limits.terms (split cs) k

namespace Place

variable {limits : Limits} {cs : List Char} {k : Nat} {p q : Place} {s t : Stand} {l : Lexeme}

theorem head?_lexemes (p : Place) : p.lexemes.head? = p.next?.map Prod.fst := by
  cases h : p.next? with
  | none => rw [lexemes_eq_nil.2 h]; rfl
  | some lq => rw [lexemes_of_next? (l := lq.1) (q := lq.2) h]; rfl

theorem Follows.getElem? (h : p.Follows limits cs k s) : (split cs)[k]? = p.next?.map Prod.fst := by
  rw [← head?_lexemes, lexemes, h.rest_eq, Lexeme.split_iterate, List.head?_drop]

theorem rest_eq_afterFirst (h : p.next? = some (l, q)) : q.rest = afterFirst p.rest := by
  obtain ⟨hl, rfl⟩ := next?_eq_some.1 h
  rw [afterFirst, hl, after_rest, skipSpaces_rest]

theorem Reaches.position_add (h : p.Reaches q) :
    q.position + Text.byteCount q.rest = p.position + Text.byteCount p.rest := by
  obtain ⟨taken, hrest, hposition⟩ := h
  rw [hrest, hposition, Text.byteCount_append, Nat.add_assoc]

theorem Follows.next (h : p.Follows limits cs k s) (hnext : p.next? = some (l, q))
    (hstep : s.Step l t) (hwithin : ¬ s.Exceeds limits.depth limits.terms l) :
    q.Follows limits cs (k + 1) t := by
  have hget : (split cs)[k]? = some l := by rw [h.getElem?, hnext]; rfl
  obtain ⟨hlt, -⟩ := List.getElem?_eq_some_iff.1 hget
  refine ⟨?_, ?_, hlt, ?_, ?_⟩
  · rw [rest_eq_afterFirst hnext, h.rest_eq, Function.iterate_succ_apply']
  · rw [(reaches_of_next? hnext).position_add, h.position_eq]
  · rw [List.take_add_one, hget]
    exact h.steps.concat hstep
  · intro i hi
    obtain hlt | rfl := Nat.lt_succ_iff_lt_or_eq.1 hi
    · exact h.clear i hlt
    · rw [hget, h.steps.offends_iff]
      rintro (hnot | hexceeds)
      · exact hnot ⟨t, hstep⟩
      · exact hwithin hexceeds

theorem Follows.position_skipSpaces (h : p.Follows limits cs k s) :
    p.skipSpaces.position = offset k cs := by
  have hskip := p.reaches_skipSpaces.position_add
  rw [h.position_eq, skipSpaces_rest, h.rest_eq] at hskip
  rw [offset, ← hskip, Nat.add_sub_cancel]

/-- Where nothing leads on stands the first offence. -/
theorem Follows.isFirstOffence (h : p.Follows limits cs k s)
    (hstuck : s.Stuck limits.depth limits.terms (p.next?.map Prod.fst)) :
    IsFirstOffence limits.depth limits.terms (split cs) k := by
  refine ⟨h.le_length, ?_, h.clear⟩
  rw [h.steps.offends_iff, h.getElem?]
  exact hstuck

theorem Awaits.next {awaits awaits' : Awaited} {o o' : Nat} (h : p.Awaits limits cs awaits o)
    (hnext : p.next? = some (l, q)) (hstep : Step ⟨awaits, o, p.terms⟩ l ⟨awaits', o', p.terms⟩)
    (hwithin : ¬ Stand.Exceeds limits.depth limits.terms ⟨awaits, o, p.terms⟩ l) :
    q.Awaits limits cs awaits' o' := by
  obtain ⟨k, h⟩ := h
  refine ⟨k + 1, ?_⟩
  rw [next?_terms hnext]
  exact h.next hnext hstep hwithin

theorem Awaits.leads {awaits : Awaited} {o : Nat} (h : p.Awaits limits cs awaits o) {α : Type}
    {x : Except Obstacle (α × Place)} {P : Place → Prop}
    (hstuck : Stand.Stuck limits.depth limits.terms ⟨awaits, o, p.terms⟩ (p.next?.map Prod.fst))
    {obstacle : Obstacle} (hposition : obstacle.position = p.skipSpaces.position)
    (hx : x = .error obstacle) : Leads limits cs x P := by
  obtain ⟨k, h⟩ := h
  subst hx
  exact ⟨k, hposition.trans h.position_skipSpaces, h.isFirstOffence hstuck⟩

end Place

/-! ### Readers -/

namespace Grammar

variable {α β : Type} {limits : Limits} {cs : List Char} {p : Place} {o : Nat} {P Q : Place → Prop}

open Place (Awaits)

theorem Leads.bind {x : Except Obstacle (α × Place)} {f : α × Place → Except Obstacle (β × Place)}
    (h : Leads limits cs x P) (hf : ∀ a q, x = .ok (a, q) → P q → Leads limits cs (f (a, q)) Q) :
    Leads limits cs (x >>= f) Q := by
  cases x with
  | error obstacle => exact h
  | ok aq => exact hf aq.1 aq.2 rfl h

theorem leads_field (h : p.Awaits limits cs .term o) (hterms : p.terms < limits.terms)
    (hopen : ∀ q, p.next? ≠ some (.mark '(', q)) :
    Leads limits cs (field p) (Awaits limits cs .comparison o) := by
  cases hx : field p with
  | ok sq =>
    have hnext := field_eq_ok.1 hx
    refine h.next hnext (.field sq.1.toList) ?_
    rintro ⟨-, ⟨hw, -⟩ | ⟨-, hle⟩⟩
    · cases hw
    · exact absurd hle (Nat.not_le.2 hterms)
  | error obstacle =>
    refine h.leads ?_ (meets_of_field hx).position_eq rfl
    cases hnext : p.next? with
    | none => exact fun hmore => by cases hmore.1
    | some lq =>
      refine Or.inl (mt Stand.allows_term.1 ?_)
      rintro (hl | ⟨w, hl⟩)
      · exact hopen lq.2 (by rw [hnext, ← hl])
      · rw [field_eq, hnext, show lq = (.word w, lq.2) from Prod.ext hl rfl] at hx
        cases hx

theorem leads_comparison (h : p.Awaits limits cs .comparison o) :
    Leads limits cs (comparison p) (Awaits limits cs .value o) := by
  cases hx : comparison p with
  | ok cq =>
    have hnext := comparison_eq_ok.1 hx
    exact h.next hnext (.symbol cq.1) (Stand.not_exceeds nofun)
  | error obstacle =>
    refine h.leads ?_ (meets_of_comparison hx).position_eq rfl
    cases hnext : p.next? with
    | none => exact fun hmore => by cases hmore.1
    | some lq =>
      refine Or.inl (mt Stand.allows_comparison.1 ?_)
      rintro ⟨c, hl⟩
      rw [comparison_eq_ok.2 (show p.next? = some (.symbol c.symbol.toList, lq.2) by rw [hnext, ← hl])]
        at hx
      cases hx

theorem leads_value (h : p.Awaits limits cs .value o) :
    Leads limits cs (value p) fun q => Awaits limits cs .more o { q with terms := q.terms + 1 } := by
  cases hx : value p with
  | ok vq =>
    obtain ⟨k, h⟩ := h
    obtain ⟨literal, hnext, -⟩ := Literal.exists_of_value hx
    refine ⟨k + 1, ?_⟩
    simp only [Place.next?_terms hnext]
    obtain ⟨hrest, hposition, hle, hsteps, hclear⟩ :=
      h.next hnext (.literal literal) (Stand.not_exceeds nofun)
    exact ⟨hrest, hposition, hle, hsteps, hclear⟩
  | error obstacle =>
    refine h.leads ?_ (meets_of_value hx).position_eq rfl
    cases hnext : p.next? with
    | none => exact fun hmore => by cases hmore.1
    | some lq =>
      refine Or.inl (mt Stand.allows_value.1 ?_)
      rintro ⟨literal, hl⟩
      rw [Literal.value_eq_ok (show p.next? = some (literal.lexeme, lq.2) by rw [hnext, ← hl])] at hx
      cases hx

theorem stuck_of_tooMany {s : Stand} (hterm : s.awaits = .term) (hterms : limits.terms ≤ s.terms)
    (hopen : ∀ q, p.next? ≠ some (.mark '(', q)) :
    s.Stuck limits.depth limits.terms (p.next?.map Prod.fst) := by
  obtain ⟨awaits, o, n⟩ := s
  obtain rfl : awaits = .term := hterm
  cases hnext : p.next? with
  | none => exact fun hmore => by cases hmore.1
  | some lq =>
    by_cases hword : ∃ w, lq.1 = .word w
    · exact Or.inr ⟨rfl, Or.inr ⟨hword, hterms⟩⟩
    · refine Or.inl (mt Stand.allows_term.1 ?_)
      rintro (hl | hl)
      · exact hopen lq.2 (by rw [hnext, ← hl])
      · exact hword hl

theorem leads_simpleTerm (h : p.Awaits limits cs .term o)
    (hopen : ∀ q, p.next? ≠ some (.mark '(', q)) :
    Leads limits cs (simpleTerm limits p.skipSpaces) (Awaits limits cs .more o) := by
  rw [simpleTerm, Place.skipSpaces_terms]
  split_ifs with hterms
  · exact h.leads (stuck_of_tooMany rfl hterms hopen) rfl rfl
  · have hfield : field p.skipSpaces = field p := by
      rw [field, field, Place.skipSpaces_skipSpaces]
    rw [hfield]
    refine (leads_field h (Nat.not_le.1 hterms) hopen).bind fun name p₁ _ h₁ => ?_
    refine (leads_comparison h₁).bind fun c p₂ _ h₂ => ?_
    exact (leads_value h₂).bind fun v p₃ _ h₃ => h₃

/-- Where no connective follows a term, only a closing parenthesis leads on. -/
theorem stuck_of_no_connective {s : Stand} (hmore : s.awaits = .more)
    (hconnective : connective? p = none)
    (hclose : ∀ q, p.next? = some (.mark ')', q) → s.opened = 0)
    (hend : p.next? = none → s.opened ≠ 0) :
    s.Stuck limits.depth limits.terms (p.next?.map Prod.fst) := by
  obtain ⟨awaits, o, n⟩ := s
  obtain rfl : awaits = .more := hmore
  cases hnext : p.next? with
  | none => exact fun hcomplete => hend hnext hcomplete.2
  | some lq =>
    refine Or.inl (mt Stand.allows_more.1 ?_)
    rintro (⟨c, hl⟩ | ⟨hl, ho⟩)
    · have hword := connective?_eq_some.2 (show p.next? = some (.word c.symbol.toList, lq.2) by
        rw [hnext, ← hl])
      rw [hconnective] at hword
      cases hword
    · exact ho.ne' (hclose lq.2 (by rw [hnext, ← hl]))

/-- A place after a term at which a chain of terms ends. -/
def EndsChain (limits : Limits) (cs : List Char) (o : Nat) (p : Place) : Prop :=
  p.Awaits limits cs .more o ∧ connective? p = none

theorem leads_chainFrom {room : Nat} (hterm : ∀ p : Place, p.Awaits limits cs .term o →
      Leads limits cs (termReader limits room p) (Awaits limits cs .more o)) {left : Rule}
    (h : p.Awaits limits cs .more o) :
    Leads limits cs (chainFrom (termReader limits room) left p) (EndsChain limits cs o) := by
  induction hlength : p.rest.length using Nat.strong_induction_on generalizing p left with
  | _ length ih =>
    cases hconnective : connective? p with
    | none =>
      rw [chainFrom_of_none hconnective]
      exact ⟨h, hconnective⟩
    | some cq =>
      obtain ⟨c, q⟩ := cq
      have hnext := connective?_eq_some.1 hconnective
      have hq : q.Awaits limits cs .term o := h.next hnext (.connective c) (Stand.not_exceeds nofun)
      rw [chainFrom_of_some termReader_rest_lt hconnective]
      refine (hterm q hq).bind fun r s hs hmore => ?_
      have hlt := Place.next?_rest_lt hnext
      have hlt' := termReader_rest_lt q r s hs
      exact ih s.rest.length (by omega) hmore rfl

variable (hstrict : limits.lenient = false)

include hstrict

theorem leads_closing (h : p.Awaits limits cs .more (o + 1)) (hconnective : connective? p = none) :
    Leads limits cs (closing limits p) (Awaits limits cs .more o) := by
  cases hx : closing limits p with
  | ok uq => exact h.next (next?_of_closing hstrict hx) .close (Stand.not_exceeds nofun)
  | error obstacle =>
    refine h.leads (stuck_of_no_connective rfl hconnective ?_ fun _ => Nat.succ_ne_zero o)
      (meets_of_closing hx).position_eq rfl
    intro q hnext
    rw [closing_of_mark hnext] at hx
    cases hx

theorem leads_term {room : Nat} (hroom : o + room = limits.depth) (h : p.Awaits limits cs .term o)
    (hgroup : ∀ group, innerReader limits room = some group → ∀ p, p.Awaits limits cs .term (o + 1) →
      Leads limits cs (group p) (EndsChain limits cs (o + 1))) :
    Leads limits cs (termReader limits room p) (Awaits limits cs .more o) := by
  by_cases hopen : ∃ q, p.next? = some (.mark '(', q)
  · obtain ⟨q, hnext⟩ := hopen
    rw [termReader, term_of_group hnext]
    cases room with
    | zero =>
      refine h.leads ?_ rfl rfl
      rw [hnext]
      exact Or.inr ⟨rfl, Or.inl ⟨rfl, hroom.ge⟩⟩
    | succ room =>
      have hq : q.Awaits limits cs .term (o + 1) := by
        refine h.next hnext .open ?_
        rintro ⟨-, ⟨-, hle⟩ | ⟨⟨w, hw⟩, -⟩⟩
        · have hdepth : limits.depth ≤ o := hle
          omega
        · cases hw
      refine (hgroup _ rfl q hq).bind fun r p₂ _ hp₂ => ?_
      exact (leads_closing hstrict hp₂.1 hp₂.2).bind fun u p₃ _ hp₃ => hp₃
  · have hno : ∀ q, p.next? ≠ some (.mark '(', q) := fun q hq => hopen ⟨q, hq⟩
    rw [termReader, term_of_no_group hno]
    exact leads_simpleTerm h hno

/-- Reading a chain of terms ends where no connective follows, or at the first offence. -/
theorem leads_expression {room : Nat} (hroom : o + room = limits.depth)
    (h : p.Awaits limits cs .term o) :
    Leads limits cs (expression limits room p) (EndsChain limits cs o) := by
  -- one more parenthesis is open inside a group, and there is room for one less
  induction room generalizing o p with
  | zero =>
    have hterm : ∀ p : Place, p.Awaits limits cs .term o →
        Leads limits cs (termReader limits 0 p) (Awaits limits cs .more o) := fun p hp =>
      leads_term hstrict hroom hp fun group hgroup => by cases hgroup
    rw [expression_eq, chain_eq]
    exact (hterm p h).bind fun r q _ hq => leads_chainFrom hterm hq
  | succ room ih =>
    have hterm : ∀ p : Place, p.Awaits limits cs .term o →
        Leads limits cs (termReader limits (room + 1) p) (Awaits limits cs .more o) := fun p hp =>
      leads_term hstrict hroom hp fun group hgroup p hp => by
        cases hgroup
        exact ih (by omega) hp
    rw [expression_eq, chain_eq]
    exact (hterm p h).bind fun r q _ hq => leads_chainFrom hterm hq

end Grammar

/-! ### Texts -/

theorem Place.awaits_start (limits : Limits) (cs : List Char) :
    Place.Awaits limits cs .term 0 { rest := cs } :=
  ⟨0, rfl, Nat.zero_add _, Nat.zero_le _, .refl .start, fun i hi => absurd hi (Nat.not_lt_zero i)⟩

theorem Rule.leads_read {limits : Limits} (hstrict : limits.lenient = false) {text : String}
    {obstacle : Obstacle} (h : Rule.read limits text = .error obstacle) :
    ∃ k, obstacle.position = offset k (Text.squeeze text.toList) ∧
      IsFirstOffence limits.depth limits.terms (Lexeme.ofText text) k := by
  have hstart := Place.awaits_start limits (Text.squeeze text.toList)
  have hlead := leads_expression hstrict (Nat.zero_add limits.depth) hstart
  rw [Rule.read] at h
  split_ifs at h with hempty
  · obtain ⟨k, hfollows⟩ := hstart
    have hnil : Text.squeeze text.toList = [] := List.isEmpty_iff.1 hempty
    have hposition : obstacle.position =
        (Place.skipSpaces { rest := Text.squeeze text.toList }).position := by
      rw [hnil]
      cases h
      rfl
    have hnone : Place.next? { rest := Text.squeeze text.toList } = none := by
      rw [hnil]
      rfl
    refine ⟨k, hposition.trans hfollows.position_skipSpaces, hfollows.isFirstOffence ?_⟩
    rw [hnone]
    exact fun hmore => by cases hmore.1
  · cases hx : expression limits limits.depth { rest := Text.squeeze text.toList } with
    | error obstacle' =>
      rw [hx] at h hlead
      cases h
      exact hlead
    | ok rq =>
      obtain ⟨r, q⟩ := rq
      rw [hx] at h hlead
      obtain ⟨⟨k, hfollows⟩, hconnective⟩ := hlead
      simp only [bind, Except.bind] at h
      split_ifs at h with hend
      · cases h
      · cases h
        have hstuck : Stand.Stuck limits.depth limits.terms ⟨.more, 0, q.terms⟩
            (q.next?.map Prod.fst) :=
          stuck_of_no_connective rfl hconnective (fun _ _ => rfl) fun hnone =>
            absurd (List.isEmpty_iff.2 (Place.rest_skipSpaces_eq_nil.2 hnone)) hend
        exact ⟨k, hfollows.position_skipSpaces, hfollows.isFirstOffence hstuck⟩

/-- A strict parser that refuses a text reports a syntax error at its first offence, which is either a
lexeme or the end of the text. -/
theorem parse_strict_error {depth terms : Nat} {text : String} {f : Fault}
    (h : Rule.parse { depth, terms, lenient := false } text = .error f) :
    ∃ k snag, f = .grammar ⟨offset k (Text.squeeze text.toList), snag⟩ ∧
      IsFirstOffence depth terms (Lexeme.ofText text) k ∧
      (k = (Lexeme.ofText text).length →
        offset k (Text.squeeze text.toList) = Text.byteCount (Text.squeeze text.toList)) := by
  rw [Rule.parse] at h
  obtain ⟨⟨position, snag⟩, hread, rfl⟩ := Outcome.mapError_eq_error.1 h
  obtain ⟨k, hposition, hfirst⟩ := Rule.leads_read rfl hread
  refine ⟨k, snag, ?_, hfirst, fun hk => ?_⟩
  · rw [← hposition]
  · rw [hk]
    exact Lexeme.offset_length _

/-- Inside parentheses a connective stands where a value should be, at byte 18 of the squeezed text. -/
theorem parse_strict_error_connective :
    let text := "a = 'é'  AND (b > OR)"
    let limits : Limits := { depth := 2, terms := 3, lenient := false }
    let f : Fault := .grammar ⟨18, .noValue (some 'O')⟩
    Rule.parse limits text = .error f ∧
    ∃ k snag, f = .grammar ⟨offset k (Text.squeeze text.toList), snag⟩ ∧
      IsFirstOffence limits.depth limits.terms (Lexeme.ofText text) k ∧
      (k = (Lexeme.ofText text).length →
        offset k (Text.squeeze text.toList) = Text.byteCount (Text.squeeze text.toList)) := by
  intro text limits f
  have h : Rule.parse { depth := 2, terms := 3, lenient := false } text = .error f :=
    Outcome.mapError_eq_error.2 ⟨⟨18, .noValue (some 'O')⟩, by decide +kernel, rfl⟩
  exact ⟨h, parse_strict_error h⟩

end Rulebook
