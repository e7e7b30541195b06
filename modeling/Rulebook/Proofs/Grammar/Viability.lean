import Rulebook.Proofs.Grammar.Phrase

/-!
# Lexemes that can still become a phrase

Lexemes are viable if a phrase starts with them. How far they have got in a phrase is a `Stand`: what
has to come next, how many parentheses are open, and how many comparisons have been read. One lexeme is
a `Step` from a stand to the next, and lexemes are viable exactly if steps lead over them
(`viable_iff`), a phrase exactly if they lead to its end (`isPhrase_iff`). So the first lexeme from which
no step leads on is the first one with which the lexemes are no longer viable.
-/

namespace Rulebook

namespace Lexeme

/-- The lexemes of a phrase. -/
def IsPhrase (ls : List Lexeme) : Prop := ∃ d : Phrase, d.lexemes = ls

/-- Lexemes with which a phrase starts. -/
def Viable (ls : List Lexeme) : Prop := ∃ d : Phrase, ls <+: d.lexemes

/-- The number of parentheses that lexemes open and do not close. -/
def opened (ls : List Lexeme) : Nat := ls.count (.mark '(') - ls.count (.mark ')')

/-- Does a comparison end with the lexeme? -/
def endsComparison : Lexeme → Bool
  | quoted _ | numeral _ => true
  | _ => false

/-- The number of comparisons among lexemes. -/
def comparisons (ls : List Lexeme) : Nat := ls.countP endsComparison

end Lexeme

/-! ### Steps -/

/-- What has to come next in a phrase. -/
inductive Awaited where
  | term
  | comparison
  | value
  | more
deriving DecidableEq

/-- How far lexemes have got in a phrase. -/
structure Stand where
  awaits : Awaited
  opened : Nat
  terms : Nat

/-- A lexeme that leads from a stand to the next. -/
inductive Stand.Step : Stand → Lexeme → Stand → Prop
  | «open» {o n : Nat} : Step ⟨.term, o, n⟩ (.mark '(') ⟨.term, o + 1, n⟩
  | field {o n : Nat} (w : List Char) : Step ⟨.term, o, n⟩ (.word w) ⟨.comparison, o, n⟩
  | symbol {o n : Nat} (c : Comparison) :
    Step ⟨.comparison, o, n⟩ (.symbol c.symbol.toList) ⟨.value, o, n⟩
  | literal {o n : Nat} (literal : Literal) :
    Step ⟨.value, o, n⟩ literal.lexeme ⟨.more, o, n + 1⟩
  | connective {o n : Nat} (c : Connective) :
    Step ⟨.more, o, n⟩ (.word c.symbol.toList) ⟨.term, o, n⟩
  | close {o n : Nat} : Step ⟨.more, o + 1, n⟩ (.mark ')') ⟨.more, o, n⟩

/-- Lexemes that lead from a stand to another, one step after the other. -/
inductive Stand.Steps : Stand → List Lexeme → Stand → Prop
  | refl (s : Stand) : Steps s [] s
  | step {s t u : Stand} {l : Lexeme} {ls : List Lexeme} :
    s.Step l t → Steps t ls u → Steps s (l :: ls) u

namespace Stand

/-- Where a phrase starts. -/
def start : Stand := ⟨.term, 0, 0⟩

variable {s t u : Stand} {l : Lexeme} {ls ms : List Lexeme}

/-- Where a lexeme leads to, if it leads anywhere. -/
def next (s : Stand) (l : Lexeme) : Stand :=
  match s.awaits, l with
  | .term, .mark _ => { s with opened := s.opened + 1 }
  | .term, _ => { s with awaits := .comparison }
  | .comparison, _ => { s with awaits := .value }
  | .value, _ => { s with awaits := .more, terms := s.terms + 1 }
  | .more, .mark _ => { s with opened := s.opened - 1 }
  | .more, _ => { s with awaits := .term }

theorem Step.eq_next (h : s.Step l t) : t = s.next l := by
  cases h <;> rfl

theorem Step.unique (h : s.Step l t) (h' : s.Step l u) : t = u := h.eq_next.trans h'.eq_next.symm

theorem Steps.append (h : s.Steps ls t) (h' : t.Steps ms u) : s.Steps (ls ++ ms) u := by
  induction h with
  | refl => exact h'
  | step hstep _ ih => exact .step hstep (ih h')

theorem Steps.concat (h : s.Steps ls t) (h' : t.Step l u) : s.Steps (ls ++ [l]) u :=
  h.append (.step h' (.refl u))

theorem Steps.exists_of_append (h : s.Steps (ls ++ ms) u) : ∃ t, s.Steps ls t ∧ t.Steps ms u := by
  induction ls generalizing s with
  | nil => exact ⟨s, .refl s, h⟩
  | cons l ls ih =>
    cases h with
    | step hstep hsteps =>
      obtain ⟨t, hl, hm⟩ := ih hsteps
      exact ⟨t, .step hstep hl, hm⟩

theorem Steps.unique (h : s.Steps ls t) (h' : s.Steps ls u) : t = u := by
  induction h with
  | refl =>
    cases h'
    rfl
  | step hstep _ ih =>
    cases h' with
    | step hstep' hsteps' =>
      obtain rfl := hstep.unique hstep'
      exact ih hsteps'

/-- A stand counts what has been opened and read since an earlier one. -/
theorem Steps.counts (h : s.Steps ls t) :
    s.opened + ls.count (.mark '(') = t.opened + ls.count (.mark ')') ∧
      t.terms = s.terms + Lexeme.comparisons ls := by
  unfold Lexeme.comparisons
  induction h with
  | refl => exact ⟨rfl, rfl⟩
  | step hstep _ ih =>
    rw [List.count_cons, List.count_cons, List.countP_cons]
    cases hstep with
    | literal literal =>
      cases literal <;> simp [Literal.lexeme, Lexeme.endsComparison] at ih ⊢ <;> omega
    | _ =>
      simp [Lexeme.endsComparison] at ih ⊢
      omega

theorem Steps.opened_eq (h : start.Steps ls s) : Lexeme.opened ls = s.opened := by
  have hcounts := h.counts.1
  simp only [start] at hcounts
  rw [Lexeme.opened]
  omega

theorem Steps.comparisons_eq (h : start.Steps ls s) : Lexeme.comparisons ls = s.terms := by
  have hcounts := h.counts.2
  simp only [start] at hcounts
  omega

end Stand

open Stand (Step Steps)

/-! ### Steps over phrases -/

mutual

theorem Phrase.steps : ∀ (d : Phrase) (o n : Nat), ∃ m, Steps ⟨.term, o, n⟩ d.lexemes ⟨.more, o, m⟩
  | .chain first links, o, n => by
    obtain ⟨m, hfirst⟩ := Clause.steps first o n
    obtain ⟨k, hlinks⟩ := Links.steps links o m
    exact ⟨k, hfirst.append hlinks⟩

theorem Links.steps : ∀ (links : Links) (o n : Nat),
    ∃ m, Steps ⟨.more, o, n⟩ links.lexemes ⟨.more, o, m⟩
  | .nil, o, n => ⟨n, .refl _⟩
  | .cons c next more, o, n => by
    obtain ⟨m, hnext⟩ := Clause.steps next o n
    obtain ⟨k, hmore⟩ := Links.steps more o m
    exact ⟨k, .step (.connective c) (hnext.append hmore)⟩

theorem Clause.steps : ∀ (t : Clause) (o n : Nat), ∃ m, Steps ⟨.term, o, n⟩ t.lexemes ⟨.more, o, m⟩
  | .comparison field c literal, o, n =>
    ⟨n + 1, .step (.field field) (.step (.symbol c) (.step (.literal literal) (.refl _)))⟩
  | .group inner, o, n => by
    obtain ⟨m, hinner⟩ := Phrase.steps inner (o + 1) n
    exact ⟨m, .step .open (hinner.append (.step .close (.refl _)))⟩

end

/-! ### What stands before a term -/

/-- What stands before a phrase in this many parentheses. -/
inductive Outer : Nat → List Lexeme → Prop
  | root : Outer 0 []
  | first {o : Nat} {before : List Lexeme} : Outer o before → Outer (o + 1) (before ++ [.mark '('])
  | later {o : Nat} {before : List Lexeme} (d : Phrase) (c : Connective) : Outer o before →
    Outer (o + 1) (before ++ d.lexemes ++ [.word c.symbol.toList] ++ [.mark '('])

/-- What stands before a term in this many parentheses: it is the first one of a phrase, or others and
a connective come before it. -/
inductive Front : Nat → List Lexeme → Prop
  | first {o : Nat} {before : List Lexeme} : Outer o before → Front o before
  | later {o : Nat} {before : List Lexeme} (d : Phrase) (c : Connective) : Outer o before →
    Front o (before ++ d.lexemes ++ [.word c.symbol.toList])

variable {o : Nat} {before : List Lexeme}

theorem Front.open (h : Front o before) : Outer (o + 1) (before ++ [.mark '(']) := by
  cases h with
  | first houter => exact .first houter
  | later d c houter => exact .later d c houter

theorem Outer.exists_front (h : Outer (o + 1) before) :
    ∃ front, Front o front ∧ before = front ++ [.mark '('] := by
  cases h with
  | first houter => exact ⟨_, .first houter, rfl⟩
  | later d c houter => exact ⟨_, .later d c houter, rfl⟩

/-- A term ends a phrase. -/
theorem Front.exists_phrase (h : Front o before) (t : Clause) :
    ∃ outer d, Outer o outer ∧ before ++ t.lexemes = outer ++ Phrase.lexemes d := by
  cases h with
  | first houter =>
    exact ⟨before, .chain t .nil, houter, by simp [Phrase.lexemes, Links.lexemes]⟩
  | later d c houter =>
    exact ⟨_, d.snoc c t, houter, by simp [Phrase.lexemes_snoc]⟩

/-- A phrase in parentheses becomes one without when the parentheses are closed. -/
theorem Outer.exists_phrase (h : Outer o before) (d : Phrase) :
    ∃ closings e, before ++ d.lexemes ++ closings = Phrase.lexemes e := by
  induction o generalizing before d with
  | zero =>
    cases h
    exact ⟨[], d, by simp⟩
  | succ o ih =>
    obtain ⟨front, hfront, rfl⟩ := h.exists_front
    obtain ⟨outer, e, houter, hgroup⟩ := hfront.exists_phrase (.group d)
    obtain ⟨closings, f, hf⟩ := ih houter e
    refine ⟨.mark ')' :: closings, f, ?_⟩
    rw [← hf, ← hgroup]
    simp [Clause.lexemes]

/-! ### Viable lexemes -/

/-- Lexemes that have got to a stand: terms before it, and what has been read of the last one. -/
def Stand.Holds (s : Stand) (ls : List Lexeme) : Prop :=
  match s.awaits with
  | .term => Front s.opened ls
  | .comparison => ∃ before w, Front s.opened before ∧ ls = before ++ [.word w]
  | .value => ∃ before w, ∃ c : Comparison, Front s.opened before ∧
      ls = before ++ [.word w, .symbol c.symbol.toList]
  | .more => ∃ before d, Outer s.opened before ∧ ls = before ++ Phrase.lexemes d

namespace Stand

variable {s t : Stand} {l : Lexeme} {ls : List Lexeme}

theorem Holds.step (h : s.Holds ls) (hstep : s.Step l t) : t.Holds (ls ++ [l]) := by
  cases hstep with
  | «open» => exact .first (Front.open h)
  | field w => exact ⟨ls, w, h, rfl⟩
  | symbol c =>
    obtain ⟨before, w, hfront, rfl⟩ := h
    exact ⟨before, w, c, hfront, by simp⟩
  | literal literal =>
    obtain ⟨before, w, c, hfront, rfl⟩ := h
    obtain ⟨outer, d, houter, hd⟩ := hfront.exists_phrase (.comparison w c literal)
    exact ⟨outer, d, houter, by simpa [Clause.lexemes] using hd⟩
  | connective c =>
    obtain ⟨before, d, houter, rfl⟩ := h
    exact .later d c houter
  | close =>
    obtain ⟨before, d, houter, rfl⟩ := h
    obtain ⟨front, hfront, rfl⟩ := houter.exists_front
    obtain ⟨outer, e, houter, he⟩ := hfront.exists_phrase (.group d)
    exact ⟨outer, e, houter, by simpa [Clause.lexemes] using he⟩

theorem Holds.steps (h : s.Holds ls) {ms : List Lexeme} (hsteps : s.Steps ms t) :
    t.Holds (ls ++ ms) := by
  induction hsteps generalizing ls with
  | refl => simpa using h
  | step hstep _ ih => simpa using ih (h.step hstep)

theorem Steps.holds (h : start.Steps ls s) : s.Holds ls :=
  Holds.steps (s := start) (.first .root) h

theorem Holds.viable (h : s.Holds ls) : Lexeme.Viable ls := by
  have hterm : ∀ {o before} (t : Clause), Front o before → ls <+: before ++ t.lexemes →
      Lexeme.Viable ls := by
    intro o before t hfront hprefix
    obtain ⟨outer, d, houter, hd⟩ := hfront.exists_phrase t
    obtain ⟨closings, e, he⟩ := houter.exists_phrase d
    exact ⟨e, hprefix.trans (by rw [hd, ← he]; exact List.prefix_append _ _)⟩
  obtain ⟨awaits, o, n⟩ := s
  cases awaits with
  | term => exact hterm (.comparison [] .equal (.text [])) h (List.prefix_append _ _)
  | comparison =>
    obtain ⟨before, w, hfront, rfl⟩ := h
    refine hterm (.comparison w .equal (.text [])) hfront ((List.prefix_append_right_inj _).2 ?_)
    exact ⟨[.symbol Comparison.equal.symbol.toList, .quoted []], rfl⟩
  | value =>
    obtain ⟨before, w, c, hfront, rfl⟩ := h
    refine hterm (.comparison w c (.text [])) hfront ((List.prefix_append_right_inj _).2 ?_)
    exact ⟨[.quoted []], rfl⟩
  | more =>
    obtain ⟨before, d, houter, rfl⟩ := h
    obtain ⟨closings, e, he⟩ := houter.exists_phrase d
    exact ⟨e, closings, he⟩

end Stand

namespace Lexeme

variable {ls : List Lexeme}

/-- Lexemes are viable if they lead somewhere. -/
theorem viable_iff : Viable ls ↔ ∃ s, Steps .start ls s := by
  constructor
  · rintro ⟨d, rest, hd⟩
    obtain ⟨n, hsteps⟩ := d.steps 0 0
    rw [← hd] at hsteps
    obtain ⟨s, hs, -⟩ := hsteps.exists_of_append
    exact ⟨s, hs⟩
  · rintro ⟨s, hs⟩
    exact hs.holds.viable

/-- Lexemes are a phrase if they lead to where no parenthesis is open and nothing is missing. -/
theorem isPhrase_iff : IsPhrase ls ↔ ∃ n, Steps .start ls ⟨.more, 0, n⟩ := by
  constructor
  · rintro ⟨d, rfl⟩
    exact d.steps 0 0
  · rintro ⟨n, hsteps⟩
    obtain ⟨before, d, houter, rfl⟩ := hsteps.holds
    cases houter
    exact ⟨d, rfl⟩

variable {s : Stand}

/-- A further lexeme is viable if a step leads over it. -/
theorem viable_concat_iff (h : Steps .start ls s) {l : Lexeme} :
    Viable (ls ++ [l]) ↔ ∃ t, s.Step l t := by
  rw [viable_iff]
  constructor
  · rintro ⟨t, ht⟩
    obtain ⟨s', hs', hstep⟩ := ht.exists_of_append
    obtain rfl := h.unique hs'
    cases hstep with
    | step hstep _ => exact ⟨_, hstep⟩
  · rintro ⟨t, ht⟩
    exact ⟨t, h.concat ht⟩

/-- A parenthesis may be opened where a term may start. -/
theorem viable_opening_iff (h : Steps .start ls s) :
    Viable (ls ++ [.mark '(']) ↔ s.awaits = .term := by
  rw [viable_concat_iff h]
  constructor
  · rintro ⟨t, ht⟩
    generalize hl : Lexeme.mark '(' = l at ht
    cases ht with
    | «open» => rfl
    | field w => rfl
    | literal literal => cases literal <;> cases hl
    | _ => simp at hl
  · intro hterm
    obtain ⟨awaits, o, n⟩ := s
    obtain rfl : awaits = .term := hterm
    exact ⟨_, .open⟩

end Lexeme

end Rulebook
