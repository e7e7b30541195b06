import Rulebook.Json.Nesting
import Rulebook.Json.Reader
import Rulebook.Limits
import Rulebook.Rule.Encoding

/-!
# Rules from JSON

An encoded rule is an object with a `type` and the parts of a rule of that type, or an array of the
type and the parts in their order. The type is decoded where it stands; the parts are decoded after
the whole rule has been read, in the order in which they stand, so that a text that is no JSON is
refused as such. Other members are ignored.

`Rule.ofJson` decodes a value and `Rule.take` the tokens of a text; `Rule.decode` first bounds the
nesting of the text.
-/

namespace Rulebook

open Json (Complaint Glimpse Reader Token)

namespace Rule

/-! ## Parts -/

/-- The kind of rule that a glimpse of a type tells. A rule inside another one may tell its kind by
a number too. -/
def Tag.ofGlimpse (inside : Bool) (g : Glimpse) : Except Complaint Tag :=
  match g with
  | .string s =>
    if s = join.word then .ok join
    else if s = comparison.word then .ok comparison
    else .error (.unknownSpelling s [join.word, comparison.word])
  | .integer i =>
    if inside ∧ 0 ≤ i then
      if i = 0 then .ok join
      else if i = 1 then .ok comparison
      else .error (.wrongValue g .tagNumber)
    else .error (.wrongType g .tag)
  | _ => .error (.wrongType g .tag)

/-- One of several things that have symbols, by its symbol. -/
def ofSymbol {α : Type} (symbol : α → String) (all : List α) (s : String) : Except Complaint α :=
  match all.find? fun a => symbol a = s with
  | some a => .ok a
  | none => .error (.unknownSpelling s (all.map symbol))

/-- One of several things that have symbols: its symbol, or an object whose only member has the
symbol for its name and nothing for its value. -/
def symbolPart {α : Type} (symbol : α → String) (all : List α) : Json → Except Complaint α
  | .string s => ofSymbol symbol all s
  | .object [(s, value)] => do
    let a ← ofSymbol symbol all s
    match value with
    | .null | .object [] => return a
    | other => .error (.wrongType other.glimpse .nothing)
  | .object _ => .error (.wrongValue .map .oneMember)
  | other => .error (.wrongType other.glimpse .spelling)

def connectivePart : Json → Except Complaint Connective :=
  symbolPart Connective.symbol Connective.all

def comparisonPart : Json → Except Complaint Comparison :=
  symbolPart Comparison.symbol Comparison.all

/-- The name of a field is not empty. -/
def fieldPart : Json → Except Complaint String
  | .string s => if s.isEmpty then .error .namelessField else .ok s
  | other => .error (.wrongType other.glimpse .text)

def valuePart : Json → Except Complaint Value
  | .number n => .ok (.number n.toBinary64)
  | .string s => .ok (.text s)
  | _ => .error .noOperand

/-- A part that must not have been read before. -/
def onlyOnce {α : Type} (name : String) (seen : Option α) (read : Except Complaint α) :
    Except Complaint (Option α) :=
  match seen with
  | some _ => .error (.repeatedField name)
  | none => read.map some

/-- A part that must have been read. -/
def required {α : Type} (name : String) : Option α → Except Complaint α
  | some a => .ok a
  | none => .error (.missingField name)

/-! ## Comparisons -/

structure ComparisonParts where
  comparison : Option Comparison := none
  field : Option String := none
  value : Option Value := none

namespace ComparisonParts

/-- Reads one member of an encoded comparison. -/
def add (parts : ComparisonParts) (name : String) (j : Json) :
    Except Complaint ComparisonParts :=
  match name with
  | "operator" => do
    return { parts with comparison := ← onlyOnce name parts.comparison (comparisonPart j) }
  | "field" => do return { parts with field := ← onlyOnce name parts.field (fieldPart j) }
  | "value" => do return { parts with value := ← onlyOnce name parts.value (valuePart j) }
  | _ => .ok parts

def finish (parts : ComparisonParts) : Except Complaint Rule := do
  return .comparison (← required "operator" parts.comparison) (← required "field" parts.field)
    (← required "value" parts.value)

end ComparisonParts

/-- The comparison that members encode. -/
def comparisonOfMembers (parts : ComparisonParts) :
    List (String × Json) → Except Complaint Rule
  | [] => parts.finish
  | (name, j) :: members => do comparisonOfMembers (← parts.add name j) members

/-- The comparison that array elements encode. -/
def comparisonOfItems : List Json → Except Complaint Rule
  | [] => .error (.wrongLength 0 .comparison)
  | [c] => do
    let _ ← comparisonPart c
    .error (.wrongLength 1 .comparison)
  | [c, f] => do
    let _ ← comparisonPart c
    let _ ← fieldPart f
    .error (.wrongLength 2 .comparison)
  | c :: f :: v :: more => do
    let rule := Rule.comparison (← comparisonPart c) (← fieldPart f) (← valuePart v)
    if more.isEmpty then return rule else .error (.wrongLength (3 + more.length) .noMoreParts)

/-! ## Joined rules -/

structure JoinParts where
  connective : Option Connective := none
  left : Option Rule := none
  right : Option Rule := none

def JoinParts.finish (parts : JoinParts) : Except Complaint Rule := do
  return .join (← required "operator" parts.connective) (← required "left" parts.left)
    (← required "right" parts.right)

/-- The kind of rule that members tell. -/
def tagOfMembers (inside : Bool) : Option Tag → List (String × Json) → Except Complaint Tag
  | seen, [] => required "type" seen
  | seen, (name, j) :: members => do
    if name = "type" then
      tagOfMembers inside (← onlyOnce name seen (Tag.ofGlimpse inside j.glimpse)) members
    else tagOfMembers inside seen members

mutual

/-- The rule that a value encodes, as a part of another rule or on its own. -/
def decodeValue (inside : Bool) : Json → Except Complaint Rule
  | .object members => do
    match ← tagOfMembers inside none members with
    | .comparison => comparisonOfMembers {} members
    | .join => joinOfMembers {} members
  | .array [] => .error (.missingField "type")
  | .array (t :: items) => do
    match ← Tag.ofGlimpse inside t.glimpse with
    | .comparison => comparisonOfItems items
    | .join => joinOfItems items
  | other => .error (.wrongType other.glimpse .rule)

/-- The joined rule that members encode. -/
def joinOfMembers (parts : JoinParts) : List (String × Json) → Except Complaint Rule
  | [] => parts.finish
  | (name, j) :: members => do
    if name = "operator" then
      let c ← onlyOnce name parts.connective (connectivePart j)
      joinOfMembers { parts with connective := c } members
    else if name = "left" then
      let r ← onlyOnce name parts.left (decodeValue true j)
      joinOfMembers { parts with left := r } members
    else if name = "right" then
      let r ← onlyOnce name parts.right (decodeValue true j)
      joinOfMembers { parts with right := r } members
    else joinOfMembers parts members

/-- The joined rule that array elements encode. -/
def joinOfItems : List Json → Except Complaint Rule
  | [] => .error (.wrongLength 0 .join)
  | [c] => do
    let _ ← connectivePart c
    .error (.wrongLength 1 .join)
  | [c, l] => do
    let _ ← connectivePart c
    let _ ← decodeValue true l
    .error (.wrongLength 2 .join)
  | c :: l :: r :: more => do
    let rule := Rule.join (← connectivePart c) (← decodeValue true l) (← decodeValue true r)
    if more.isEmpty then return rule else .error (.wrongLength (3 + more.length) .noMoreParts)

end

/-- The rule that a value encodes. Objects are read as dictionaries, by name. -/
def ofJson (j : Json) : Except Complaint Rule := decodeValue false j.canonical

/-! ## Text -/

/-- The type of an encoded rule, read where it stands. -/
def takeTag : Reader Tag := fun tokens => do
  let (g, tokens) ← Json.glimpseFirst tokens
  return (← Tag.ofGlimpse false g, tokens)

def take : Reader Rule
  | .openBrace :: tokens => do
    let member (seen : Option Tag × List (String × Json)) (name : String) :
        Reader (Option Tag × List (String × Json)) := fun tokens => do
      if name = "type" then
        if seen.1.isSome then .error (.repeatedField name)
        else
          let (tag, tokens) ← takeTag (← Json.afterColon tokens)
          return ((some tag, seen.2), tokens)
      else
        let (j, tokens) ← Json.anyValue (← Json.afterColon tokens)
        return ((seen.1, (name, j) :: seen.2), tokens)
    let ((tag, members), tokens) ← Json.members Json.Grade.strict member (none, []) tokens
    match ← required "type" tag with
    | .comparison => return (← comparisonOfMembers {} members.reverse, tokens)
    | .join => return (← joinOfMembers {} members.reverse, tokens)
  | .openBracket :: tokens => do
    let item (seen : Option Tag × List Json) : Reader (Option Tag × List Json) := fun tokens => do
      if seen.1.isNone then
        let (tag, tokens) ← takeTag tokens
        return ((some tag, seen.2), tokens)
      else
        let (j, tokens) ← Json.anyValue tokens
        return ((seen.1, j :: seen.2), tokens)
    let ((tag, items), tokens) ← Json.elements item (none, []) tokens
    match ← required "type" tag with
    | .comparison => return (← comparisonOfItems items.reverse, tokens)
    | .join => return (← joinOfItems items.reverse, tokens)
  | tokens => do
    let (g, _) ← Json.glimpseFirst tokens
    .error (.wrongType g .rule)

end Rule

/-- Why an encoded text is refused: it is nested too deeply, or a reader complains. -/
inductive DecodingProblem where
  | tooDeep (depth limit : Nat)
  | complaint (c : Complaint)
deriving DecidableEq, Repr

def DecodingProblem.message : DecodingProblem → String
  | tooDeep depth limit =>
    "nested " ++ toString depth ++ " levels deep, limit is " ++ toString limit
  | complaint c => c.message

/-- What a reader makes of a text that is nested at most so deeply. -/
def decodeNested {α : Type} (limit : Nat) (read : Reader α) (text : String) :
    Except DecodingProblem α :=
  let depth := Json.nesting text.toList
  if limit < depth then .error (.tooDeep depth limit)
  else (Json.whole read text).mapError .complaint

def Rule.decode (text : String) : Except DecodingProblem Rule :=
  decodeNested greatestDepth Rule.take text

end Rulebook
