import Rulebook.Proofs.Grammar.Replay
import Rulebook.Proofs.Grammar.Visits

/-!
# Character boundaries

Whatever the reader takes from a text is in front of the place where it is (`Cuts.exists_prefix`), so
every place that it comes to lies on a character boundary of the text, and so does every offset at which
it cuts the text or which it reports (`reading_on_boundaries`). It goes on by the bytes of what it takes
(`Takes.exists_cut`), and whatever it reads as a rule has at least one (`progress_of_run`).
-/

namespace Rulebook
open Grammar

/-! ### Bytes -/

namespace Text

theorem utf8ByteSize_ofList (cs : List Char) : (String.ofList cs).utf8ByteSize = byteCount cs := by
  induction cs with
  | nil => simp
  | cons c cs ih =>
    rw [String.ofList_cons, String.utf8ByteSize_append, String.utf8ByteSize_singleton, ih,
      byteCount_cons]

theorem byteCount_toList (s : String) : byteCount s.toList = s.utf8ByteSize := by
  rw [← utf8ByteSize_ofList, String.ofList_toList]

theorem byteCount_pos {cs : List Char} (h : cs ≠ []) : 0 < byteCount cs := by
  obtain ⟨c, ds, rfl⟩ := List.exists_cons_of_ne_nil h
  exact Nat.add_pos_left c.utf8Size_pos _

end Text

namespace Place

/-- A place splits a text: its position is the number of bytes of the text before it, and the text
after that is what is left at it. -/
def Splits (p : Place) (s : String) : Prop :=
  ∃ before after : String, s = before ++ after ∧ p.position = before.utf8ByteSize ∧
    p.rest = after.toList

theorem Splits.isValid {p : Place} {s : String} (h : p.Splits s) :
    (String.Pos.Raw.mk p.position).IsValid s := by
  obtain ⟨before, after, hs, hposition, -⟩ := h
  refine String.Pos.Raw.isValid_iff_exists_append.2 ⟨before, after, hs, ?_⟩
  rw [hposition]
  rfl

theorem Reaches.splits {cs : List Char} {p : Place} (h : Reaches { rest := cs } p) :
    p.Splits (String.ofList cs) := by
  obtain ⟨taken, hrest, hposition⟩ := h
  refine ⟨String.ofList taken, String.ofList p.rest, ?_, ?_, ?_⟩
  · rw [← String.ofList_append, ← hrest]
  · rw [Text.utf8ByteSize_ofList, hposition, Nat.zero_add]
  · rw [String.toList_ofList]

theorem Reaches.position_lt {p q : Place} (h : p.Reaches q) (hlt : q.rest.length < p.rest.length) :
    p.position < q.position := by
  obtain ⟨taken, hrest, hposition⟩ := h
  have hne : taken ≠ [] := by
    rintro rfl
    rw [hrest, List.nil_append] at hlt
    exact Nat.lt_irrefl _ hlt
  have hpos := Text.byteCount_pos hne
  omega

end Place

namespace Grammar

variable {limits : Limits} {v : Visit}

/-! ### Cuts -/

/-- The numbers of bytes by which a task goes on behind the spaces at a place, or at which it cuts the
text that is left there. -/
inductive Cuts (limits : Limits) : Task → List Char → Nat → Prop
  | nothing {task : Task} {rest : List Char} : Cuts limits task rest 0
  | connective {room : Nat} {c : Connective} {rest : List Char} :
    c.symbol.toList <+: rest → Cuts limits (.links room) rest c.symbol.utf8ByteSize
  | opening {room : Nat} {rest : List Char} : Cuts limits (.term room) ('(' :: rest) 1
  | closing {c : Char} {rest : List Char} :
    c = ')' ∨ limits.lenient → Cuts limits .closing (c :: rest) c.utf8Size
  | field {rest : List Char} :
    Cuts limits .field rest (Text.byteCount (rest.takeWhile isFieldChar))
  | comparison {rest : List Char} :
    Cuts limits .comparison rest (Text.byteCount (rest.takeWhile isComparisonChar))
  | number {rest : List Char} :
    Cuts limits .value rest (Text.byteCount (rest.takeWhile isNumberChar))
  | apostrophe {rest : List Char} : Cuts limits .value ('\'' :: rest) 1
  | content {rest : List Char} : '\'' ∈ rest →
    Cuts limits .value ('\'' :: rest) (Text.byteCount (rest.takeWhile (· ≠ '\'')) + 1)
  | quoted {rest : List Char} : '\'' ∈ rest →
    Cuts limits .value ('\'' :: rest) (Text.byteCount (rest.takeWhile (· ≠ '\'')) + 2)

/-- What is cut off is in front of the text. -/
theorem Cuts.exists_prefix {task : Task} {rest : List Char} {n : Nat} (h : Cuts limits task rest n) :
    ∃ taken, taken <+: rest ∧ Text.byteCount taken = n := by
  cases h with
  | nothing => exact ⟨[], List.nil_prefix, rfl⟩
  | @connective room c rest hc => exact ⟨c.symbol.toList, hc, Text.byteCount_toList _⟩
  | opening => exact ⟨['('], List.prefix_append ['('] _, rfl⟩
  | @closing c rest _ => exact ⟨[c], List.prefix_append [c] rest, Nat.add_zero _⟩
  | field => exact ⟨_, List.takeWhile_prefix _, rfl⟩
  | comparison => exact ⟨_, List.takeWhile_prefix _, rfl⟩
  | number => exact ⟨_, List.takeWhile_prefix _, rfl⟩
  | apostrophe => exact ⟨['\''], List.prefix_append ['\''] _, rfl⟩
  | @content rest hq =>
    refine ⟨'\'' :: rest.takeWhile (· ≠ '\''), ?_, Nat.add_comm _ _⟩
    exact List.cons_prefix_cons.2 ⟨rfl, List.takeWhile_prefix _⟩
  | @quoted rest hq =>
    refine ⟨'\'' :: (rest.takeWhile (· ≠ '\'') ++ ['\'']), ?_, ?_⟩
    · refine List.cons_prefix_cons.2 ⟨rfl, (rest.dropWhile (· ≠ '\'')).tail, ?_⟩
      rw [List.append_assoc, List.singleton_append, Text.takeWhile_ne_append hq]
    · rw [Text.byteCount_cons, Text.byteCount_append]
      exact Nat.add_comm _ _

theorem Visits.cut_splits {text : String} (h : Visits limits text v) {n : Nat}
    (hcut : Cuts limits v.task v.place.skipSpaces.rest n) :
    ∃ q : Place, q.position = v.place.skipSpaces.position + n ∧
      q.Splits (String.ofList (Text.squeeze text.toList)) := by
  obtain ⟨taken, hprefix, rfl⟩ := hcut.exists_prefix
  have hreaches := h.reaches.trans (v.place.reaches_skipSpaces.trans (Place.reaches_after hprefix))
  exact ⟨v.place.skipSpaces.after taken, rfl, hreaches.splits⟩

/-- The reader takes something at a visit and comes to the place behind it. -/
inductive Takes (limits : Limits) : Visit → Place → Prop
  | connective {room : Nat} {p q : Place} {c : Connective} :
    connective? p = some (c, q) → Takes limits ⟨.links room, p⟩ q
  | opening {room : Nat} {p q : Place} :
    p.next? = some (.mark '(', q) → Takes limits ⟨.term room, p⟩ q
  | closing {p q : Place} : closing limits p = .ok ((), q) → Takes limits ⟨.closing, p⟩ q
  | field {p q : Place} {name : String} : field p = .ok (name, q) → Takes limits ⟨.field, p⟩ q
  | comparison {p q : Place} {c : Comparison} :
    comparison p = .ok (c, q) → Takes limits ⟨.comparison, p⟩ q
  | value {p q : Place} {v : Value} : value p = .ok (v, q) → Takes limits ⟨.value, p⟩ q

theorem Takes.reaches {q : Place} (h : Takes limits v q) : v.place.Reaches q := by
  cases h with
  | connective hc => exact reaches_of_connective? hc
  | opening ho => exact Place.reaches_of_next? ho
  | closing hc => exact reaches_of_closing hc
  | field hf => exact Place.reaches_of_next? (field_eq_ok.1 hf)
  | comparison hc => exact Place.reaches_of_next? (comparison_eq_ok.1 hc)
  | value hv =>
    obtain ⟨l, hl⟩ := next?_of_value hv
    exact Place.reaches_of_next? hl

theorem exists_cut_of_closing {p q : Place} (h : Grammar.closing limits p = .ok ((), q)) :
    ∃ n, Cuts limits .closing p.skipSpaces.rest n ∧ q.position = p.skipSpaces.position + n := by
  cases hr : p.skipSpaces.rest with
  | nil =>
    rw [closing_of_nil hr] at h
    split_ifs at h <;> cases h
    exact ⟨0, .nothing, rfl⟩
  | cons c rest =>
    rw [closing_of_cons hr] at h
    split_ifs at h with hc <;> cases h
    exact ⟨c.utf8Size, .closing hc, rfl⟩

theorem exists_cut_of_value {p q : Place} {v : Value} (h : Grammar.value p = .ok (v, q)) :
    ∃ n, Cuts limits .value p.skipSpaces.rest n ∧ q.position = p.skipSpaces.position + n := by
  obtain ⟨literal, hnext, -⟩ := Literal.exists_of_value h
  obtain ⟨hfront, rfl⟩ := Place.next?_eq_some.1 hnext
  rw [← Place.skipSpaces_rest] at hfront
  cases literal with
  | number n =>
    have hdigits : p.skipSpaces.rest.takeWhile isNumberChar = n.digits := Lexeme.eq_of_front? hfront
    refine ⟨_, .number, ?_⟩
    rw [hdigits]
    rfl
  | text content =>
    cases hr : p.skipSpaces.rest with
    | nil =>
      rw [hr] at hfront
      cases hfront
    | cons c rest =>
      rw [hr] at hfront
      simp only [Lexeme.front?] at hfront
      split_ifs at hfront with _ _ _ hq <;> cases hfront
      obtain ⟨rfl, hmem⟩ := hq
      refine ⟨_, .quoted hmem, ?_⟩
      show _ + Text.byteCount ('\'' :: (_ ++ ['\''])) = _
      rw [Text.byteCount_cons, Text.byteCount_append, Nat.add_comm ('\''.utf8Size)]
      rfl

/-- What the reader takes ends at one of its cuts. -/
theorem Takes.exists_cut {q : Place} (h : Takes limits v q) :
    ∃ n, Cuts limits v.task v.place.skipSpaces.rest n ∧
      q.position = v.place.skipSpaces.position + n := by
  cases h with
  | connective hc =>
    obtain ⟨-, hfront, rfl⟩ := Place.next?_eq_word.1 (connective?_eq_some.1 hc)
    refine ⟨_, .connective (by rw [← hfront]; exact List.takeWhile_prefix _), ?_⟩
    rw [← Text.byteCount_toList]
    rfl
  | opening ho =>
    obtain ⟨hr, rfl⟩ :=
      (Place.next?_eq_mark (by decide) (by decide) (by decide) (by decide)).1 ho
    obtain ⟨rest, hrest⟩ := List.head?_eq_some_iff.1 hr
    refine ⟨1, ?_, rfl⟩
    rw [hrest]
    exact .opening
  | closing hc => exact exists_cut_of_closing hc
  | field hf =>
    obtain ⟨-, hfront, rfl⟩ := Place.next?_eq_word.1 (field_eq_ok.1 hf)
    exact ⟨_, .field, by rw [← hfront]; rfl⟩
  | comparison hc =>
    obtain ⟨hfront, rfl⟩ := Place.next?_eq_some.1 (comparison_eq_ok.1 hc)
    rw [← Place.skipSpaces_rest] at hfront
    exact ⟨_, .comparison, by rw [Lexeme.eq_of_front? hfront]; rfl⟩
  | value hv => exact exists_cut_of_value hv

/-! ### Whole texts -/

theorem progress_of_run {part : Part} {room : Nat} {p q : Place} {r : Rule}
    (h : Run limits part room p r q) :
    p.position < q.position ∧ q.terms = p.terms + r.count :=
  ⟨h.reaches.position_lt h.rest_lt, h.terms_eq⟩

end Grammar

/-- Wherever the reader comes to in a text, and wherever it cuts the text or reports an obstacle, that is
a character boundary of the squeezed text. What it reads of a rule takes it further in the text and
counts the comparisons of the rule. No run of turns is endless, and the bound on the connectives of a
chain never ends the chain. -/
theorem reading_on_boundaries (limits : Limits) (text : String) :
    let squeezed := String.ofList (Text.squeeze text.toList)
    (∀ v, Visits limits text v → v.place.Splits squeezed ∧ v.place.skipSpaces.Splits squeezed ∧
      (∀ n, Cuts limits v.task v.place.skipSpaces.rest n →
        (String.Pos.Raw.mk (v.place.skipSpaces.position + n)).IsValid squeezed) ∧
      ∀ q, Takes limits v q → q.Splits squeezed ∧
        ∃ n, Cuts limits v.task v.place.skipSpaces.rest n ∧
          q.position = v.place.skipSpaces.position + n) ∧
    (∀ f, Rule.parse limits text = .error f → ∃ o before after, f = .grammar o ∧
      squeezed = before ++ after ∧ o.position = before.utf8ByteSize) ∧
    (∀ room p r q,
      (termReader limits room p = .ok (r, q) ∨ expression limits room p = .ok (r, q)) →
        p.position < q.position ∧ q.terms = p.terms + r.count) ∧
    (WellFounded fun next now => Turns limits now next) ∧
    ∀ room fuel left (p : Place), p.rest.length ≤ fuel →
      chainUpTo (termReader limits room) fuel left p =
        chainUpTo (termReader limits room) p.rest.length left p := by
  intro squeezed
  refine ⟨fun v hv => ?_, fun f hf => ?_, ?_, wellFounded_turns limits,
    fun room fuel left p hfuel => chainUpTo_eq_chainFrom termReader_rest_lt hfuel⟩
  · refine ⟨hv.reaches.splits, (hv.reaches.trans v.place.reaches_skipSpaces).splits,
      fun n hcut => ?_,
      fun q htakes => ⟨(hv.reaches.trans htakes.reaches).splits, htakes.exists_cut⟩⟩
    obtain ⟨q, hposition, hsplits⟩ := hv.cut_splits hcut
    rw [← hposition]
    exact hsplits.isValid
  · rw [Rule.parse] at hf
    obtain ⟨o, hread, rfl⟩ := Outcome.mapError_eq_error.1 hf
    obtain ⟨-, rfl⟩ | ⟨v, hv, hmeets⟩ := Rule.visit_of_read hread
    · exact ⟨_, "", squeezed, rfl, (String.empty_append).symm, rfl⟩
    · obtain ⟨before, after, hs, hposition, -⟩ :=
        (hv.reaches.trans v.place.reaches_skipSpaces).splits
      exact ⟨o, before, after, rfl, hs, hmeets.position_eq.trans hposition⟩
  · rintro room p r q (hr | hr)
    · exact progress_of_run (term_eq_ok.1 hr)
    · exact progress_of_run (expression_eq_ok.1 hr).1

/-- A lenient reader looks for the closing parenthesis at the end of the text, nine bytes behind its
start. -/
example : Visits { lenient := true } "(a = 'é'" ⟨.closing, ⟨[], 9, 1⟩⟩ := by
  have hopen : Place.next? { rest := "(a = 'é'".toList } =
      some (.mark '(', ⟨"a = 'é'".toList, 1, 0⟩) := by decide +kernel
  have hinner : expression { lenient := true } 63 ⟨"a = 'é'".toList, 1, 0⟩ =
      .ok (.comparison .equal "a" (.text "é"), ⟨[], 9, 1⟩) := by decide +kernel
  exact .tail (.single .first) (.afterGroup hopen hinner)

end Rulebook
