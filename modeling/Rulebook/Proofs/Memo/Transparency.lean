import Mathlib.Tactic.SplitIfs
import Rulebook.Memo

/-!
# A memo cannot be seen

A memo answers requests one after the other, and what it has remembered decides what it has to parse.
None of this shows in the answers (`Memo.run_transparent`): whatever texts were asked about before,
under whatever settings, each answer is the one that the request has without a memo. The invariant
is that each remembered rule is the rule of its text under the default limits.
-/

namespace Rulebook.Memo

/-- What is asked of a memo. -/
inductive Request where
  | parse (text : String)
  | check (text : String) (facts : Facts)
  | checkWith (settings : Settings) (text : String) (facts : Facts)
  | clear

/-- What a memo answers. -/
inductive Reply where
  | rule (outcome : Except Fault Rule)
  | truth (outcome : Except Fault Bool)
  | cleared

/-- Answers one request. -/
def answer (m : Memo) : Request → Reply × Memo
  | .parse text =>
    let (outcome, after) := m.parse text
    (.rule outcome, after)
  | .check text facts =>
    let (outcome, after) := m.check text facts
    (.truth outcome, after)
  | .checkWith settings text facts =>
    let (outcome, after) := m.checkWith settings text facts
    (.truth outcome, after)
  | .clear => (.cleared, {})

/-- Answers requests in their order. -/
def run (m : Memo) : List Request → List Reply × Memo
  | [] => ([], m)
  | request :: requests =>
    let (reply, after) := m.answer request
    let (replies, last) := run after requests
    (reply :: replies, last)

/-! ### Answers without a memo -/

/-- The truth of the rule of a text under some limits. A blank text holds. -/
def directTruth (limits : Limits) (text : String) (facts : Facts) : Except Fault Bool :=
  if Text.isAllBlank text then .ok true else do (← Rule.parse limits text).judge facts

/-- The answer that a request has where nothing is remembered. -/
def Request.direct : Request → Reply
  | parse text => .rule (Rule.parse {} text)
  | check text facts => .truth (directTruth {} text facts)
  | checkWith settings text facts => .truth (directTruth settings.limits text facts)
  | clear => .cleared

/-! ### What a memo remembers -/

/-- Every rule that is remembered is the rule of its text under the default limits. -/
def IsSound (m : Memo) : Prop :=
  ∀ text rule, m.rules.find? text = some rule → Rule.parse {} text = .ok rule

theorem isSound_empty : IsSound {} := by
  intro text rule h
  cases h

variable {m : Memo}

theorem IsSound.remember (h : m.IsSound) {text : String} {rule : Rule}
    (hparse : Rule.parse {} text = .ok rule) : (m.remember text rule).IsSound := by
  intro t r ht
  rw [Memo.remember, Table.find?_insert] at ht
  -- the new text is looked for first, then the memo that is kept, which is empty after a flush
  split_ifs at ht with heq hflush
  · cases ht
    rw [heq, hparse]
  · cases ht
  · exact h t r ht

/-- An answer is right if it is the direct one and leaves only right rules behind. -/
structure IsRight {α : Type} (answer : α × Memo) (direct : α) : Prop where
  reply_eq : answer.1 = direct
  isSound : answer.2.IsSound

namespace IsSound

theorem parse (h : m.IsSound) (text : String) : IsRight (m.parse text) (Rule.parse {} text) := by
  unfold Memo.parse
  cases hfind : m.rules.find? text with
  | some rule => exact ⟨(h text rule hfind).symm, h⟩
  | none =>
    cases hparse : Rule.parse {} text with
    | ok rule => exact ⟨rfl, h.remember hparse⟩
    | error fault => exact ⟨rfl, h⟩

theorem check (h : m.IsSound) (text : String) (facts : Facts) :
    IsRight (m.check text facts) (directTruth {} text facts) := by
  unfold Memo.check directTruth
  split_ifs with hblank
  · exact ⟨rfl, h⟩
  · obtain ⟨hreply, hsound⟩ := h.parse text
    refine ⟨?_, hsound⟩
    show (m.parse text).1.bind (Rule.judge facts) = _
    rw [hreply]
    rfl

theorem checkWith (h : m.IsSound) (settings : Settings) (text : String) (facts : Facts) :
    IsRight (m.checkWith settings text facts) (directTruth settings.limits text facts) := by
  unfold Memo.checkWith
  by_cases hserves : serves settings
  · have hlimits : settings.limits = {} := by
      rw [serves, Bool.and_eq_true, decide_eq_true_iff] at hserves
      exact hserves.2
    rw [if_pos hserves, hlimits]
    exact h.check text facts
  · rw [if_neg hserves, directTruth]
    split_ifs with hblank
    · exact ⟨rfl, h⟩
    · exact ⟨rfl, h⟩

theorem answer (h : m.IsSound) (request : Request) : IsRight (m.answer request) request.direct := by
  cases request with
  | parse text =>
    have hright := h.parse text
    exact ⟨congrArg Reply.rule hright.reply_eq, hright.isSound⟩
  | check text facts =>
    have hright := h.check text facts
    exact ⟨congrArg Reply.truth hright.reply_eq, hright.isSound⟩
  | checkWith settings text facts =>
    have hright := h.checkWith settings text facts
    exact ⟨congrArg Reply.truth hright.reply_eq, hright.isSound⟩
  | clear => exact ⟨rfl, isSound_empty⟩

theorem run (h : m.IsSound) (requests : List Request) :
    IsRight (m.run requests) (requests.map Request.direct) := by
  induction requests generalizing m with
  | nil => exact ⟨rfl, h⟩
  | cons request requests ih =>
    have hfirst := h.answer request
    have hrest := ih hfirst.isSound
    refine ⟨?_, hrest.isSound⟩
    show (m.answer request).1 :: ((m.answer request).2.run requests).1 = _
    rw [hfirst.reply_eq, hrest.reply_eq, List.map_cons]

end IsSound

/-- A memo that starts empty gives the answers that the requests have without it, and whatever it
remembers after them is the rule of its text under the default limits. -/
theorem run_transparent (requests : List Request) :
    (run {} requests).1 = requests.map Request.direct ∧
      ∀ text rule, (run {} requests).2.rules.find? text = some rule →
        Rule.parse {} text = .ok rule := by
  have hright := isSound_empty.run requests
  exact ⟨hright.reply_eq, hright.isSound⟩

end Rulebook.Memo
