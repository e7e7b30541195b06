import Rulebook.Facts

/-!
# Judging a rule by facts

A comparison holds if what its field holds compares as it says. Numbers are ordered as numbers and
texts by their characters. A number and a text are never equal; to order them, the text is read as a
number. Both sides of a connective are judged, so a field without a fact is a fault wherever it
stands; the leftmost one is reported.
-/

namespace Rulebook

/-- The number that a text stands for where one is needed: zero if it is blank, and not a number if
it is no numeral. -/
def numberOfText (s : String) : Binary64 :=
  let cs := Text.trim s.toList
  if cs.isEmpty then Binary64.zero else (Numeral.read? cs).getD .nan

/-- Does a comparison hold between values that are ordered so? -/
def Comparison.admits : Comparison → Ordering → Bool
  | greater, o => o = .gt
  | less, o => o = .lt
  | equal, o => o = .eq
  | atLeast, o => o ≠ .lt
  | atMost, o => o ≠ .gt

/-- The order of two values, if they have one; a text takes its number beside a number. -/
def Value.order : Value → Value → Option Ordering
  | number x, number y => x.order y
  | text s, text t => some (compareOfLessAndEq s t)
  | text s, number y => (numberOfText s).order y
  | number x, text t => x.order (numberOfText t)

def Value.alike : Value → Value → Bool
  | number _, number _ | text _, text _ => true
  | _, _ => false

def Comparison.holds (c : Comparison) (actual wanted : Value) : Bool :=
  if c = .equal ∧ ¬ actual.alike wanted then false
  else (actual.order wanted).any c.admits

namespace Rule

def judge (facts : Facts) : Rule → Except Fault Bool
  | comparison c field wanted =>
    match facts.find? field with
    | some actual => .ok (c.holds actual wanted)
    | none => .error (.unknownField field)
  | join c left right => do
    let l ← left.judge facts
    let r ← right.judge facts
    return c.apply l r

/-- The truth of an encoded rule by facts. -/
def judgeEncoded (facts : Facts) (j : Json) : Except Fault Bool := do
  let rule ← (ofJson j).mapError fun c => .unjudgeable (.complaint c)
  rule.judge facts

/-- The truth of a rule that a JSON text encodes, by facts. -/
def judgeText (facts : Facts) (text : String) : Except Fault Bool := do
  let rule ← (decode text).mapError .unjudgeable
  rule.judge facts

end Rule

end Rulebook
