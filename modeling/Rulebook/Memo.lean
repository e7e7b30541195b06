import Rulebook.Rule.Judgement
import Rulebook.Settings

/-!
# Remembered rules

A memo remembers the rules of the texts that were read with the default limits, under the texts as
they were given. It holds a bounded number of them: a new text that meets a full memo empties it
first. Faults are not remembered.
-/

namespace Rulebook

/-- The rules of some texts. -/
structure Memo where
  rules : Table String Rule := Table.empty
deriving Inhabited

namespace Memo

/-- How many texts a memo holds at most. -/
def capacity : Nat := 2048

/-- The number of texts that a memo holds. -/
def size (m : Memo) : Nat := m.rules.size

/-- Remembers the rule of a new text. -/
def remember (m : Memo) (text : String) (rule : Rule) : Memo :=
  let kept := if capacity ≤ m.size then Table.empty else m.rules
  ⟨kept.insert text rule⟩

/-- The rule of a text, from the memo if it has the text, and the memo afterwards. -/
def parse (m : Memo) (text : String) : Except Fault Rule × Memo :=
  match m.rules.find? text with
  | some rule => (.ok rule, m)
  | none =>
    match Rule.parse {} text with
    | .ok rule => (.ok rule, m.remember text rule)
    | .error fault => (.error fault, m)

/-- The truth of the rule of a text by facts, and the memo afterwards. A blank text holds. -/
def check (m : Memo) (text : String) (facts : Facts) : Except Fault Bool × Memo :=
  if Text.isAllBlank text then (.ok true, m)
  else
    let (rule, after) := m.parse text
    (rule.bind (Rule.judge facts), after)

/-- Whether settings let a text go through the memo: it remembers rules of the default limits only.
-/
def serves (s : Settings) : Bool := s.remember && s.limits = {}

/-- The truth of the rule of a text by facts under settings, and the memo afterwards. -/
def checkWith (m : Memo) (s : Settings) (text : String) (facts : Facts) :
    Except Fault Bool × Memo :=
  if serves s then m.check text facts
  else if Text.isAllBlank text then (.ok true, m)
  else ((Rule.parse s.limits text).bind (Rule.judge facts), m)

end Memo

end Rulebook
