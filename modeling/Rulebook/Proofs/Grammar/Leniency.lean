import Rulebook.Proofs.Grammar.Replay

/-!
# Leniency

A lenient reader takes any character, or the end of the text, for the closing parenthesis of a group.
It reads as the strict reader does until that one stops at the end of a group that is not closed
(`Grammar.agreesUnless_read`). From there on it reads as if the closing parenthesis stood in place of
what it takes (`Grammar.Unclosed.found_eq`).
-/

namespace Rulebook
open Grammar

/-- The same limits for a lenient reader. -/
def Limits.relax (limits : Limits) : Limits := { limits with lenient := true }

theorem Limits.lenient_relax (limits : Limits) : limits.relax.lenient = true := rfl

namespace Grammar

variable {limits : Limits} {α β : Type}

/-- A strict reader stops at the second place: there ends a group that is not closed. -/
inductive Unclosed (limits : Limits) : Part → Nat → Place → Place → Prop
  | here {room : Nat} {p p₁ p₂ : Place} {r : Rule} :
    p.next? = some (.mark '(', p₁) → Run limits .chain room p₁ r p₂ → connective? p₂ = none →
    p₂.skipSpaces.rest.head? ≠ some ')' → Unclosed limits .term (room + 1) p p₂.skipSpaces
  | inside {room : Nat} {p p₁ s : Place} :
    p.next? = some (.mark '(', p₁) → Unclosed limits .chain room p₁ s →
    Unclosed limits .term (room + 1) p s
  | first {room : Nat} {p s : Place} :
    Unclosed limits .term room p s → Unclosed limits .chain room p s
  | later {room : Nat} {p p₁ p₂ s : Place} {c : Connective} {l : Rule} :
    Run limits .chain room p l p₁ → connective? p₁ = some (c, p₂) →
    Unclosed limits .term room p₂ s → Unclosed limits .chain room p s

/-! ### Until a group is not closed -/

/-- No closing parenthesis is missed. -/
def MissesNoClosing (x : Except Obstacle α) : Prop := ∀ o, x = .error o → o.snag ≠ .noClosing

theorem missesNoClosing_ok (a : α) : MissesNoClosing (.ok a) := fun o h => by cases h

theorem missesNoClosing_obstacle {snag : Snag} (p : Place) (h : snag ≠ .noClosing) :
    MissesNoClosing (p.obstacle snag : Except Obstacle α) := fun o ho => by
  cases ho
  exact h

theorem MissesNoClosing.bind {x : Except Obstacle (α × Place)}
    {f : α × Place → Except Obstacle β} (hx : MissesNoClosing x)
    (hf : ∀ a q, MissesNoClosing (f (a, q))) : MissesNoClosing (x >>= f) := by
  cases x with
  | error o => exact fun o' h => hx o' (by cases h; rfl)
  | ok aq => exact hf aq.1 aq.2

theorem missesNoClosing_field (p : Place) : MissesNoClosing (field p) := by
  rw [field_eq]
  split
  · exact missesNoClosing_ok _
  · exact missesNoClosing_obstacle _ Snag.noConfusion

theorem missesNoClosing_comparison (p : Place) : MissesNoClosing (comparison p) := by
  rw [comparison_eq]
  split
  · split
    · exact missesNoClosing_ok _
    · exact missesNoClosing_obstacle _ Snag.noConfusion
  · exact missesNoClosing_obstacle _ Snag.noConfusion

theorem missesNoClosing_value (p : Place) : MissesNoClosing (value p) := by
  rw [value_eq]
  split
  · exact missesNoClosing_ok _
  · split
    · exact missesNoClosing_ok _
    · exact missesNoClosing_obstacle _ Snag.noConfusion
  · exact missesNoClosing_obstacle _ Snag.noConfusion
  · exact missesNoClosing_obstacle _ Snag.noConfusion

theorem missesNoClosing_simpleTerm (limits : Limits) (p : Place) :
    MissesNoClosing (simpleTerm limits p) := by
  rw [simpleTerm]
  split
  · exact missesNoClosing_obstacle _ Snag.noConfusion
  · refine (missesNoClosing_field p).bind fun f p₁ => ?_
    refine (missesNoClosing_comparison p₁).bind fun c p₂ => ?_
    exact (missesNoClosing_value p₂).bind fun v p₃ => missesNoClosing_ok _

/-- A strict outcome is the lenient one, unless the strict reader has stopped at the end of a group
that is not closed. -/
def AgreesUnless (unclosed : Place → Prop) (strict lenient : Except Obstacle α) : Prop :=
  (strict = lenient ∧ MissesNoClosing strict) ∨ ∃ s, unclosed s ∧ strict = s.obstacle .noClosing

theorem MissesNoClosing.agrees {unclosed : Place → Prop} {x : Except Obstacle α}
    (h : MissesNoClosing x) : AgreesUnless unclosed x x := Or.inl ⟨rfl, h⟩

theorem AgreesUnless.bind {inner outer : Place → Prop} {x y : Except Obstacle (α × Place)}
    {f g : α × Place → Except Obstacle β} (hxy : AgreesUnless inner x y)
    (hfg : ∀ a q, x = .ok (a, q) → AgreesUnless outer (f (a, q)) (g (a, q)))
    (hio : ∀ s, inner s → outer s) : AgreesUnless outer (x >>= f) (y >>= g) := by
  rcases hxy with ⟨rfl, hx⟩ | ⟨s, hs, rfl⟩
  · cases x with
    | error o => exact Or.inl ⟨rfl, fun o' h => hx o' (by cases h; rfl)⟩
    | ok aq => exact hfg aq.1 aq.2 rfl
  · exact Or.inr ⟨s, hio s hs, rfl⟩

theorem agreesUnless_closing (hstrict : limits.lenient = false) (p : Place) :
    AgreesUnless (fun s => s = p.skipSpaces ∧ s.rest.head? ≠ some ')') (closing limits p)
      (closing limits.relax p) := by
  cases hr : p.skipSpaces.rest with
  | nil =>
    rw [closing_of_nil hr, hstrict]
    exact Or.inr ⟨_, ⟨rfl, by simp [hr]⟩, rfl⟩
  | cons c cs =>
    by_cases hc : c = ')'
    · rw [closing_of_cons hr, closing_of_cons hr, if_pos (Or.inl hc), if_pos (Or.inl hc)]
      exact (missesNoClosing_ok _).agrees
    · rw [closing_of_cons hr, if_neg (by simp [hc, hstrict])]
      exact Or.inr ⟨_, ⟨rfl, by simpa [hr] using hc⟩, rfl⟩

theorem agreesUnless_term (hstrict : limits.lenient = false) {room : Nat}
    (hgroup : ∀ room', room = room' + 1 → ∀ p, AgreesUnless (Unclosed limits .chain room' p)
      (expression limits room' p) (expression limits.relax room' p)) (p : Place) :
    AgreesUnless (Unclosed limits .term room p) (termReader limits room p)
      (termReader limits.relax room p) := by
  by_cases hg : ∃ p₁, p.next? = some (.mark '(', p₁)
  · obtain ⟨p₁, hp₁⟩ := hg
    rw [termReader, termReader, term_of_group hp₁, term_of_group hp₁]
    cases room with
    | zero => exact (missesNoClosing_obstacle _ Snag.noConfusion).agrees
    | succ room =>
      refine (hgroup room rfl p₁).bind (fun r p₂ hr => ?_) fun s hs => .inside hp₁ hs
      obtain ⟨hrun, hstop⟩ := expression_eq_ok.1 hr
      refine (agreesUnless_closing hstrict p₂).bind (fun u q _ => (missesNoClosing_ok _).agrees) ?_
      rintro s ⟨rfl, hs⟩
      exact .here hp₁ hrun hstop hs
  · have hno : ∀ q, p.next? ≠ some (.mark '(', q) := fun q hq => hg ⟨q, hq⟩
    rw [termReader, termReader, term_of_no_group hno, term_of_no_group hno]
    exact (missesNoClosing_simpleTerm limits p.skipSpaces).agrees

theorem agreesUnless_chainUpTo {room : Nat} (hterm : ∀ p, AgreesUnless (Unclosed limits .term room p)
      (termReader limits room p) (termReader limits.relax room p)) {fuel : Nat} {start p : Place}
    {left : Rule} (hleft : Run limits .chain room start left p) :
    AgreesUnless (Unclosed limits .chain room start) (chainUpTo (termReader limits room) fuel left p)
      (chainUpTo (termReader limits.relax room) fuel left p) := by
  induction fuel generalizing left p with
  | zero => exact (missesNoClosing_ok _).agrees
  | succ fuel ih =>
    cases hc : connective? p with
    | none =>
      simp only [chainUpTo, hc]
      exact (missesNoClosing_ok _).agrees
    | some cq =>
      obtain ⟨c, next⟩ := cq
      simp only [chainUpTo, hc]
      refine (hterm next).bind (fun right q hright => ?_) fun s hs => .later hleft hc hs
      exact ih (.join hleft hc (term_eq_ok.1 hright))

theorem agreesUnless_chain {room : Nat} (hterm : ∀ p, AgreesUnless (Unclosed limits .term room p)
      (termReader limits room p) (termReader limits.relax room p)) (p : Place) :
    AgreesUnless (Unclosed limits .chain room p) (expression limits room p)
      (expression limits.relax room p) := by
  rw [expression_eq, expression_eq, chain_eq, chain_eq]
  refine (hterm p).bind (fun first q hfirst => ?_) fun s hs => .first hs
  exact agreesUnless_chainUpTo hterm (.single (term_eq_ok.1 hfirst))

theorem agreesUnless_expression (hstrict : limits.lenient = false) (room : Nat) (p : Place) :
    AgreesUnless (Unclosed limits .chain room p) (expression limits room p)
      (expression limits.relax room p) := by
  induction room generalizing p with
  | zero => exact agreesUnless_chain (agreesUnless_term hstrict fun _ h => by cases h) p
  | succ room ih =>
    refine agreesUnless_chain (agreesUnless_term hstrict fun room' h => ?_) p
    cases h
    exact ih

theorem agreesUnless_read (hstrict : limits.lenient = false) (text : String) :
    AgreesUnless (Unclosed limits .chain limits.depth { rest := Text.squeeze text.toList })
      (Rule.read limits text) (Rule.read limits.relax text) := by
  rw [Rule.read, Rule.read]
  split
  · exact (missesNoClosing_obstacle _ Snag.noConfusion).agrees
  · refine (agreesUnless_expression hstrict limits.depth _).bind (fun r q _ => ?_) fun _ hs => hs
    apply MissesNoClosing.agrees
    simp only
    split
    · exact missesNoClosing_ok _
    · exact missesNoClosing_obstacle _ Snag.noConfusion

/-! ### With the closing parenthesis supplied -/

theorem Unclosed.reaches {part : Part} {room : Nat} {p s : Place}
    (h : Unclosed limits part room p s) : p.Reaches s := by
  induction h with
  | here ho hrun _ _ =>
    exact (Place.reaches_of_next? ho).trans (hrun.reaches.trans (Place.reaches_skipSpaces _))
  | inside ho _ ih => exact (Place.reaches_of_next? ho).trans ih
  | first _ ih => exact ih
  | later hleft hc _ ih => exact hleft.reaches.trans ((reaches_of_connective? hc).trans ih)

theorem Run.relax (hstrict : limits.lenient = false) {part : Part} {room : Nat} {p q : Place}
    {r : Rule} (h : Run limits part room p r q) : Run limits.relax part room p r q := by
  induction h with
  | comparison ht hf hc hv => exact .comparison ht hf hc hv
  | group ho _ hstop hclose ih =>
    exact .group ho ih hstop (closing_of_mark (next?_of_closing hstrict hclose))
  | single _ ih => exact .single ih
  | join _ hc _ ih₁ ih₂ => exact .join ih₁ hc ih₂

theorem exists_closing_relax (limits : Limits) (p : Place) :
    ∃ q, closing limits.relax p = .ok ((), q) ∧ q.rest = p.skipSpaces.rest.tail ∧
      q.terms = p.terms := by
  cases hr : p.skipSpaces.rest with
  | nil => exact ⟨p.skipSpaces, by rw [closing_of_nil hr]; rfl, hr, rfl⟩
  | cons c cs =>
    refine ⟨p.skipSpaces.after [c], by rw [closing_of_cons hr, if_pos (Or.inr limits.lenient_relax)], ?_, rfl⟩
    rw [Place.after_rest, hr]
    rfl

theorem exists_mark_of_replaces {cs : List Char} {p p' : Place}
    (h : p.Replaces p.skipSpaces.rest (')' :: cs) p') :
    ∃ q, p'.next? = some (.mark ')', q) ∧ q.rest = cs := by
  obtain ⟨front, hp, hp'⟩ := h
  have hfront : p.rest.takeWhile (· = ' ') = front := by
    have happend : p.rest.takeWhile (· = ' ') ++ p.skipSpaces.rest = front ++ p.skipSpaces.rest := by
      rw [← hp, Place.skipSpaces_rest]
      exact List.takeWhile_append_dropWhile
    exact List.append_cancel_right happend
  apply Place.next?_of_front? (l := .mark ')')
  · rw [hp', ← hfront]
    exact Place.trimSpaces_append_of_all List.all_takeWhile (by simp)
  · rfl

/-- What is found at the end of a group that is not closed is found too if the group is closed there. -/
theorem found_eq_of_unclosed (hstrict : limits.lenient = false) {room : Nat} {p p' p₁ p₂ : Place}
    {r : Rule} (ho : p.next? = some (.mark '(', p₁)) (hrun : Run limits .chain room p₁ r p₂)
    (hstop : connective? p₂ = none) (hterms : p.terms = p'.terms)
    (hp : p.Replaces p₂.skipSpaces.rest (')' :: p₂.skipSpaces.rest.tail) p') :
    found (termReader limits.relax (room + 1) p) = found (termReader limits.relax (room + 1) p') := by
  have htail := p₂.reaches_skipSpaces.suffix
  have hstops := stops_closing p₂.skipSpaces.rest.tail
  obtain ⟨p₁', ho', h₁⟩ := hp.next? ho (htail.trans hrun.reaches.suffix) hstops (by decide)
  have hterms₁ : p₁.terms = p₁'.terms := by
    rw [Place.next?_terms ho, Place.next?_terms ho', hterms]
  have hle : p₁'.terms + r.count ≤ limits.relax.terms := by
    rw [← hterms₁, ← hrun.terms_eq]
    exact hrun.terms_le
  obtain ⟨p₂', hrun', h₂⟩ := hrun.replace hstrict hstops h₁ htail hle
  obtain ⟨q, hclose, hrest, hq⟩ := exists_closing_relax limits p₂
  obtain ⟨q', hmark, hrest'⟩ := exists_mark_of_replaces h₂
  have hread := term_eq_ok.2 (.group ho (hrun.relax hstrict) hstop hclose)
  have hread' :=
    term_eq_ok.2 (.group ho' hrun' (connective?_eq_none_of_mark hmark) (closing_of_mark hmark))
  rw [hread, hread']
  refine found_of_alike r ⟨hrest.trans hrest'.symm, ?_⟩
  rw [hq, hrun.terms_eq, hterms₁, Place.next?_terms hmark, hrun'.terms_eq]

/-- The reader of a part of a rule text. -/
def partReader (limits : Limits) : Part → Nat → Reading Rule
  | .term => termReader limits
  | .chain => expression limits

/-- A lenient reader finds the same as if the closing parenthesis stood where the strict reader stops. -/
theorem Unclosed.found_eq (hstrict : limits.lenient = false) {part : Part} {room : Nat}
    {p p' s : Place} (h : Unclosed limits part room p s) (hterms : p.terms = p'.terms)
    (hp : p.Replaces s.rest (')' :: s.rest.tail) p') :
    found (partReader limits.relax part room p) = found (partReader limits.relax part room p') := by
  induction h generalizing p' with
  | here ho hrun hstop _ => exact found_eq_of_unclosed hstrict ho hrun hstop hterms hp
  | @inside room p p₁ s ho hs ih =>
    obtain ⟨p₁', ho', h₁⟩ := hp.next? ho hs.reaches.suffix (stops_closing _) (by decide)
    have hinner := ih (by rw [Place.next?_terms ho, Place.next?_terms ho', hterms]) h₁
    show found (termReader limits.relax (room + 1) p) = found (termReader limits.relax (room + 1) p')
    rw [termReader, term_of_group ho, term_of_group ho']
    refine found_bind hinner fun r q q' hq => ?_
    refine found_bind ((ignoresPosition_closing _).found_eq hq) fun u q q' hq => ?_
    exact found_of_alike r hq
  | @first room p s _ ih =>
    show found (expression limits.relax room p) = found (expression limits.relax room p')
    rw [expression_eq, expression_eq, chain_eq, chain_eq]
    refine found_bind (ih hterms hp) fun l q q' hq => ?_
    exact (ignoresPosition_chainFrom (ignoresPosition_termReader _ _) l).found_eq hq
  | @later room p p₁ p₂ s c l hleft hc hs ih =>
    have hword := connective?_eq_some.1 hc
    have htail₂ := hs.reaches.suffix
    have htail₁ := htail₂.trans (Place.reaches_of_next? hword).suffix
    have hle : p'.terms + l.count ≤ limits.relax.terms := by
      rw [← hterms, ← hleft.terms_eq]
      exact hleft.terms_le
    obtain ⟨p₁', hleft', h₁⟩ := hleft.replace hstrict (stops_closing _) hp htail₁ hle
    obtain ⟨p₂', hword', h₂⟩ := h₁.next? hword htail₂ (stops_closing _) Lexeme.noConfusion
    have hterms₂ : p₂.terms = p₂'.terms := by
      rw [Place.next?_terms hword, Place.next?_terms hword', hleft.terms_eq, hleft'.terms_eq, hterms]
    have hread := (hleft.relax hstrict).reader_eq
    have hread' := hleft'.reader_eq
    simp only at hread hread'
    show found (expression limits.relax room p) = found (expression limits.relax room p')
    rw [hread, hread', chainFrom_of_some termReader_rest_lt hc,
      chainFrom_of_some termReader_rest_lt (connective?_eq_some.2 hword')]
    refine found_bind (ih hterms₂ h₂) fun right q q' hq => ?_
    exact (ignoresPosition_chainFrom (ignoresPosition_termReader _ _) _).found_eq hq

end Grammar

/-! ### Words -/

/-- The words with which the message of a snag starts. -/
def Snag.opening : Snag → String
  | noRule => "Empty rule"
  | tooDeep _ => "Nesting deeper than "
  | tooManyTerms _ => "More than "
  | noClosing => "Expected ')'"
  | noField _ => "Expected field name, found "
  | noComparison _ => "Expected comparison operator, found "
  | unknownComparison _ => "Unknown comparison operator '"
  | noValue _ => "Expected value, found "
  | unclosedText => "Unterminated string literal"
  | badNumber _ => "Invalid number '"
  | unreadRest _ => "Unexpected input '"

theorem Snag.exists_message_eq (snag : Snag) : ∃ rest, snag.message = snag.opening ++ rest := by
  cases snag with
  | noRule => exact ⟨"", String.append_empty.symm⟩
  | tooDeep => exact ⟨_, String.append_assoc⟩
  | tooManyTerms => exact ⟨_, String.append_assoc⟩
  | noClosing => exact ⟨"", String.append_empty.symm⟩
  | noField => exact ⟨_, rfl⟩
  | noComparison => exact ⟨_, rfl⟩
  | unknownComparison => exact ⟨_, String.append_assoc⟩
  | noValue => exact ⟨_, rfl⟩
  | unclosedText => exact ⟨"", String.append_empty.symm⟩
  | badNumber => exact ⟨_, String.append_assoc⟩
  | unreadRest => exact ⟨_, String.append_assoc⟩

theorem Snag.opening_prefix {snag : Snag} {s : String} (h : snag.message = s) :
    snag.opening.toList <+: s.toList := by
  obtain ⟨rest, hrest⟩ := snag.exists_message_eq
  rw [← h, hrest, String.toList_append]
  exact List.prefix_append _ _

/-- No other snag has the words of a missing closing parenthesis. -/
theorem Snag.message_eq_iff {snag : Snag} : snag.message = "Expected ')'" ↔ snag = .noClosing := by
  constructor
  · intro h
    have hopening := Snag.opening_prefix h
    cases snag with
    | noClosing => rfl
    | _ => exact absurd hopening (by simp only [opening]; decide)
  · rintro rfl
    rfl

/-! ### Whole texts -/

theorem Rule.read_eq_ok_iff_found {limits : Limits} {text : String} {r : Rule} :
    Rule.read limits text = .ok r ↔ ∃ rest terms, Lexeme.trimSpaces rest = [] ∧
      found (expression limits limits.depth { rest := Text.squeeze text.toList }) =
        some (r, rest, terms) := by
  rw [Rule.read_eq_ok]
  constructor
  · rintro ⟨q, hrun, hend⟩
    have hstop : connective? q = none :=
      connective?_eq_none_of_next? fun c q' hword => by
        rw [hend] at hword
        cases hword
    refine ⟨q.rest, q.terms, Place.next?_eq_none.1 hend, ?_⟩
    rw [expression_eq_ok.2 ⟨hrun, hstop⟩]
    rfl
  · rintro ⟨rest, terms, hend, hfound⟩
    obtain ⟨q, hq, rfl, -⟩ := found_eq_some.1 hfound
    exact ⟨q, (expression_eq_ok.1 hq).1, Place.next?_eq_none.2 hend⟩

theorem Rule.squeeze_ne_nil_of_unclosed {limits : Limits} {text : String} {s : Place}
    (h : Rule.read limits text = s.obstacle .noClosing) : Text.squeeze text.toList ≠ [] := by
  intro hnil
  rw [Rule.read, hnil] at h
  exact Snag.noConfusion (Obstacle.mk.inj (Except.error.inj h)).2

theorem Rule.parse_eq_grammar {limits : Limits} {text : String} {o : Obstacle} :
    Rule.parse limits text = .error (.grammar o) ↔ Rule.read limits text = .error o := by
  rw [Rule.parse]
  cases Rule.read limits text with
  | error o' =>
    constructor
    · intro h
      cases h
      rfl
    · intro h
      cases h
      rfl
  | ok r => constructor <;> intro h <;> cases h

/-- The strict and the lenient reader agree on a text unless the strict one misses a closing
parenthesis. Then the lenient one reads the squeezed text as if that parenthesis stood there in place
of the next character, or at the end of the text. -/
theorem parse_lenient_closes (depth terms : Nat) (text : String) :
    let strict : Limits := { depth, terms, lenient := false }
    let lenient : Limits := { depth, terms, lenient := true }
    let squeezed := Text.squeeze text.toList
    (Rule.parse strict text = Rule.parse lenient text ∨
      ∃ o, Rule.parse strict text = .error (.grammar o) ∧ o.snag.message = "Expected ')'") ∧
    (∀ o, Rule.parse strict text = .error (.grammar o) → o.snag.message = "Expected ')'" →
      ∃ before after, squeezed = before ++ after ∧ o.position = Text.byteCount before ∧
        ∀ r, Rule.parse lenient (String.ofList squeezed) = .ok r ↔
          Rule.parse lenient (String.ofList (before ++ ')' :: after.tail)) = .ok r) ∧
    ∀ r, Rule.parse strict text = .ok r → Rule.parse lenient text = .ok r := by
  intro strict lenient squeezed
  have hagree : AgreesUnless (Unclosed strict .chain depth { rest := squeezed })
      (Rule.read strict text) (Rule.read lenient text) := agreesUnless_read rfl text
  refine ⟨?_, fun o ho hmessage => ?_, fun r hr => ?_⟩
  · rcases hagree with ⟨hsame, -⟩ | ⟨s, -, hread⟩
    · exact Or.inl (congrArg (Except.mapError Fault.grammar) hsame)
    · exact Or.inr ⟨_, Rule.parse_eq_grammar.2 hread, Snag.message_eq_iff.2 rfl⟩
  · rw [Rule.parse_eq_grammar] at ho
    rcases hagree with ⟨-, hmisses⟩ | ⟨s, hs, hread⟩
    · exact absurd (Snag.message_eq_iff.1 hmessage) (hmisses o ho)
    · have htight := Text.isTight_squeeze (Rule.squeeze_ne_nil_of_unclosed hread)
      rw [hread] at ho
      cases ho
      obtain ⟨before, hrest, hposition⟩ := hs.reaches
      have hput : Text.IsTight (before ++ ')' :: s.rest.tail) := by
        apply Text.IsTight.put _ (by decide)
        rw [← hrest]
        exact htight
      refine ⟨before, s.rest, hrest, by rw [hposition, Nat.zero_add], fun r => ?_⟩
      have hsqueezed : Text.squeeze squeezed = squeezed := Text.squeeze_of_isTight htight
      simp only [Rule.parse, Outcome.mapError_eq_ok, Rule.read_eq_ok_iff_found, String.toList_ofList,
        hsqueezed, Text.squeeze_of_isTight hput]
      have hfound : found (expression lenient depth { rest := squeezed }) =
          found (expression lenient depth { rest := before ++ ')' :: s.rest.tail }) :=
        hs.found_eq rfl rfl ⟨before, hrest, rfl⟩
      rw [show lenient.depth = depth from rfl, hfound]
  · rw [Rule.parse, Outcome.mapError_eq_ok] at hr ⊢
    rcases hagree with ⟨hsame, -⟩ | ⟨s, -, hread⟩
    · rw [hr] at hsame
      exact hsame.symm
    · rw [hr] at hread
      cases hread

/-- What the lenient reader takes for a closing parenthesis may be longer than one byte. -/
example :
    Rule.read { lenient := false } "(a = 'x' é AND b = 'y'" = .error ⟨9, .noClosing⟩ ∧
      Rule.read { lenient := true } "(a = 'x' é AND b = 'y'" =
        Rule.read { lenient := true } "(a = 'x' ) AND b = 'y'" := by
  decide +kernel

end Rulebook
