import Rulebook.Proofs.Memo.Transparency
import Rulebook.Proofs.Table

/-!
# What a memo holds

Which texts a memo holds can be told from the requests alone, without what it remembers of them. A text
that is looked up and can be parsed is held from then on; if the memo is full, the new text drives out
all others. Texts that are held change nothing when they are looked up again, and neither do texts that
cannot be parsed. `heldAfter` says which texts are held after some requests, and a memo holds exactly
these, each under its own spelling (`Memo.run_holds`).
-/

namespace Rulebook.Memo

/-! ### The texts that requests leave behind -/

/-- The text that is looked up where a text is checked: blank ones are not. -/
def checked? (text : String) : Option String := if Text.isAllBlank text then none else some text

/-- The text that a request looks up, if it looks one up. Nothing is looked up under settings that turn
remembering off or have limits of their own. -/
def Request.lookup? : Request → Option String
  | parse text => some text
  | check text _ => checked? text
  | checkWith settings text _ =>
    if settings.remember = true ∧ settings.limits = {} then checked? text else none
  | clear => none

/-- The texts that are held after one was looked up. -/
def afterLookup (held : Finset String) (text : String) : Finset String :=
  if text ∈ held then held
  else match Rule.parse {} text with
    | .error _ => held
    | .ok _ => if held.card = capacity then {text} else insert text held

/-- The texts that are held after a request. -/
def afterRequest (held : Finset String) : Request → Finset String
  | .clear => ∅
  | request => (request.lookup?.map (afterLookup held)).getD held

/-- The texts that are held after some requests, if none was held before. -/
def heldAfter (requests : List Request) : Finset String := requests.foldl afterRequest ∅

variable {m : Memo} {held : Finset String} {text : String}

theorem afterLookup_of_mem (h : text ∈ held) : afterLookup held text = held := if_pos h

theorem afterLookup_of_error (h : text ∉ held) {fault : Fault}
    (hparse : Rule.parse {} text = .error fault) : afterLookup held text = held := by
  rw [afterLookup, if_neg h, hparse]

theorem afterLookup_of_ok (h : text ∉ held) {rule : Rule} (hparse : Rule.parse {} text = .ok rule) :
    afterLookup held text = if held.card = capacity then {text} else insert text held := by
  rw [afterLookup, if_neg h, hparse]

theorem heldAfter_concat (requests : List Request) (request : Request) :
    heldAfter (requests ++ [request]) = afterRequest (heldAfter requests) request := by
  rw [heldAfter, List.foldl_append]
  rfl

/-! ### The texts that a memo holds -/

/-- A request changes a memo as parsing the text does that it looks up. -/
theorem after_answer (m : Memo) {request : Request} (h : request ≠ .clear) :
    (m.answer request).2 = (request.lookup?.map fun text => (m.parse text).2).getD m := by
  have hcheck : ∀ text facts,
      (m.check text facts).2 = ((checked? text).map fun text => (m.parse text).2).getD m := by
    intro text facts
    unfold Memo.check checked?
    split <;> rfl
  cases request with
  | parse text => rfl
  | check text facts => exact hcheck text facts
  | checkWith settings text facts =>
    have hserves : serves settings ↔ settings.remember = true ∧ settings.limits = {} := by
      rw [serves, Bool.and_eq_true, decide_eq_true_iff]
    show (m.checkWith settings text facts).2 = _
    by_cases hdefault : settings.remember = true ∧ settings.limits = {}
    · rw [Memo.checkWith, if_pos (hserves.2 hdefault), hcheck, Request.lookup?, if_pos hdefault]
    · rw [Memo.checkWith, if_neg (mt hserves.1 hdefault), Request.lookup?, if_neg hdefault]
      split <;> rfl
  | clear => exact absurd rfl h

/-- A memo holds some texts, no more than there is room for. -/
structure Holds (m : Memo) (held : Finset String) : Prop where
  keySet_eq : m.rules.keySet = held
  card_le : held.card ≤ capacity

namespace Holds

theorem size_eq (h : m.Holds held) : m.size = held.card := by
  rw [← h.keySet_eq, Table.card_keySet]
  rfl

theorem mem_iff (h : m.Holds held) : text ∈ held ↔ (m.rules.find? text).isSome := by
  rw [← h.keySet_eq, Table.mem_keySet_iff]

theorem empty : Holds {} ∅ := ⟨rfl, Nat.zero_le _⟩

/-- A new text drives out all others if the memo is full, and joins them if it is not. -/
theorem remember (h : m.Holds held) (hnew : text ∉ held) (rule : Rule) :
    (m.remember text rule).Holds (if held.card = capacity then {text} else insert text held) := by
  by_cases hfull : held.card = capacity
  · have hkept : m.remember text rule = ⟨Table.empty.insert text rule⟩ := by
      rw [Memo.remember, if_pos (by rw [h.size_eq, hfull])]
    rw [if_pos hfull, hkept]
    refine ⟨Table.keySet_insert _ _ _, ?_⟩
    rw [Finset.card_singleton]
    decide
  · have hroom : held.card < capacity := Nat.lt_of_le_of_ne h.card_le hfull
    have hkept : m.remember text rule = ⟨m.rules.insert text rule⟩ := by
      rw [Memo.remember, if_neg (by rw [h.size_eq]; omega)]
    rw [if_neg hfull, hkept]
    refine ⟨by rw [Table.keySet_insert, h.keySet_eq], ?_⟩
    rw [Finset.card_insert_of_notMem hnew]
    exact hroom

/-- A text that is held already leaves the memo as it is. -/
theorem parse_of_mem (h : m.Holds held) (hmem : text ∈ held) : (m.parse text).2 = m := by
  obtain ⟨rule, hrule⟩ := Option.isSome_iff_exists.1 (h.mem_iff.1 hmem)
  rw [Memo.parse, hrule]

theorem parse (h : m.Holds held) (text : String) :
    (m.parse text).2.Holds (afterLookup held text) := by
  by_cases hmem : text ∈ held
  · rw [h.parse_of_mem hmem, afterLookup_of_mem hmem]
    exact h
  · have hfind : m.rules.find? text = none := by
      rw [← Option.not_isSome_iff_eq_none, ← h.mem_iff]
      exact hmem
    rw [Memo.parse, hfind]
    cases hparse : Rule.parse {} text with
    | error fault =>
      rw [afterLookup_of_error hmem hparse]
      exact h
    | ok rule =>
      rw [afterLookup_of_ok hmem hparse]
      exact h.remember hmem rule

theorem answer (h : m.Holds held) (request : Request) :
    (m.answer request).2.Holds (afterRequest held request) := by
  by_cases hclear : request = .clear
  · subst hclear
    exact empty
  · have hafter : afterRequest held request = (request.lookup?.map (afterLookup held)).getD held := by
      cases request with
      | clear => exact absurd rfl hclear
      | _ => rfl
    rw [after_answer m hclear, hafter]
    cases request.lookup? with
    | none => exact h
    | some text => exact h.parse text

theorem run (h : m.Holds held) (requests : List Request) :
    (m.run requests).2.Holds (requests.foldl afterRequest held) := by
  induction requests generalizing m held with
  | nil => exact h
  | cons request requests ih => exact ih (h.answer request)

theorem answer_of_mem (h : m.Holds held) {request : Request} (hlookup : request.lookup? = some text)
    (hmem : text ∈ held) : (m.answer request).2 = m := by
  have hclear : request ≠ .clear := by
    rintro rfl
    cases hlookup
  rw [after_answer m hclear, hlookup]
  exact h.parse_of_mem hmem

end Holds

/-- A memo that starts empty holds after some requests exactly the texts that these leave behind, at most
as many as it has room for. A text that it holds changes nothing when it is looked up again, and another
spelling of a rule that it holds counts as one more text. -/
theorem run_holds (requests : List Request) :
    (run {} requests).2.rules.keySet = heldAfter requests ∧
      (run {} requests).2.size = (heldAfter requests).card ∧
      (run {} requests).2.size ≤ capacity ∧
      (∀ request text, request.lookup? = some text → text ∈ heldAfter requests →
        ((run {} requests).2.answer request).2 = (run {} requests).2) ∧
      ∀ text text' rule, text ∈ heldAfter requests → text' ∉ heldAfter requests →
        Rule.parse {} text = .ok rule → Rule.parse {} text' = .ok rule →
        (heldAfter requests).card < capacity →
        heldAfter (requests ++ [.parse text']) = insert text' (heldAfter requests) ∧
          (run {} (requests ++ [.parse text'])).2.size = (run {} requests).2.size + 1 := by
  have hholds := Holds.empty.run requests
  refine ⟨hholds.keySet_eq, hholds.size_eq, ?_, fun _ _ => hholds.answer_of_mem, ?_⟩
  · rw [hholds.size_eq]
    exact hholds.card_le
  · intro text text' rule _ hnew _ hparse hroom
    have hheld : heldAfter (requests ++ [.parse text']) = insert text' (heldAfter requests) := by
      rw [heldAfter_concat]
      exact (afterLookup_of_ok hnew hparse).trans (if_neg hroom.ne)
    have hnext := Holds.empty.run (requests ++ [.parse text'])
    refine ⟨hheld, ?_⟩
    rw [hnext.size_eq, hholds.size_eq]
    exact (congrArg Finset.card hheld).trans (Finset.card_insert_of_notMem hnew)

/-- Two spellings of one rule are held, one of them is looked up again, and a text that cannot be parsed
and one that is parsed under other limits leave nothing behind. -/
theorem run_holds_two_spellings :
    let requests : List Request := [.parse "a = 1", .check "a = 1" Table.empty, .parse "a =",
      .checkWith { limits := { depth := 1 } } "b = 2" Table.empty]
    let rule := Rule.comparison .equal "a" (.number (.signed false (Magnitude.nearest 1 1)))
    Rule.parse {} "a = 1" = .ok rule ∧ Rule.parse {} " a  = 1" = .ok rule ∧
      heldAfter requests = {"a = 1"} ∧ (run {} (requests ++ [.parse " a  = 1"])).2.size = 2 := by
  intro requests rule
  have hparse : Rule.parse {} "a = 1" = .ok rule := by rfl
  have hparse' : Rule.parse {} " a  = 1" = .ok rule := by rfl
  have hheld : heldAfter requests = {"a = 1"} := by decide +kernel
  obtain ⟨-, hsize, -, -, hspelling⟩ := run_holds requests
  have hcard : (heldAfter requests).card = 1 := by rw [hheld, Finset.card_singleton]
  obtain ⟨-, hnext⟩ := hspelling "a = 1" " a  = 1" rule (by rw [hheld]; decide) (by rw [hheld]; decide)
    hparse hparse' (by rw [hcard]; decide)
  exact ⟨hparse, hparse', hheld, by rw [hnext, hsize, hcard]⟩

end Rulebook.Memo
