import Rulebook.Fault

/-!
# Settings

Settings are the limits on rule texts and the choice whether parsed rules are remembered. All of
them have default values. They are read from JSON, as an object that names some of them or as an
array of the first few, either from the tokens of a text or from a value; the limits have to be
positive and rules small enough to be read back from their JSON text.
-/

namespace Rulebook

open Json (Complaint Glimpse Reader Token)

/-- What can be set. -/
structure Settings where
  limits : Limits := {}
  /-- Whether parsed rules are remembered. -/
  remember : Bool := true
deriving DecidableEq, Repr, Inhabited

namespace Settings

/-! ## Members -/

/-- The members of the object for limits, in the order of the array for them. -/
inductive LimitsField where
  | depth
  | terms
  | lenient
deriving DecidableEq, Repr

/-- The members of the object for settings, in the order of the array for them. -/
inductive Field where
  | limits
  | remember
deriving DecidableEq, Repr

def LimitsField.all : List LimitsField := [depth, terms, lenient]

def LimitsField.name : LimitsField → String
  | depth => "max_depth"
  | terms => "max_terms"
  | lenient => "lenient_parentheses"

def Field.all : List Field := [limits, remember]

def Field.name : Field → String
  | limits => "parser"
  | remember => "cache_enabled"

/-- One of several members by its name. -/
def memberOfName {α : Type} (name : α → String) (all : List α) (s : String) :
    Except Complaint α :=
  match all.find? fun a => name a = s with
  | some a => .ok a
  | none => .error (.unknownField s (all.map name))

def count (g : Glimpse) : Except Complaint Nat :=
  match g with
  | .integer i => if 0 ≤ i then .ok i.toNat else .error (.wrongValue g .count)
  | _ => .error (.wrongType g .count)

def flag (g : Glimpse) : Except Complaint Bool :=
  match g with
  | .boolean b => .ok b
  | _ => .error (.wrongType g .flag)

/-- The limits that have been read. -/
structure LimitsParts where
  depth : Option Nat := none
  terms : Option Nat := none
  lenient : Option Bool := none

namespace LimitsParts

def has (parts : LimitsParts) : LimitsField → Bool
  | .depth => parts.depth.isSome
  | .terms => parts.terms.isSome
  | .lenient => parts.lenient.isSome

/-- Reads one limit. -/
def put (parts : LimitsParts) (field : LimitsField) (g : Glimpse) :
    Except Complaint LimitsParts := do
  match field with
  | .depth => return { parts with depth := some (← count g) }
  | .terms => return { parts with terms := some (← count g) }
  | .lenient => return { parts with lenient := some (← flag g) }

/-- Limits, with the default for each that has not been read. -/
def finish (parts : LimitsParts) : Limits where
  depth := parts.depth.getD ({} : Limits).depth
  terms := parts.terms.getD ({} : Limits).terms
  lenient := parts.lenient.getD ({} : Limits).lenient

end LimitsParts

/-- The settings that have been read. -/
structure Parts where
  limits : Option Limits := none
  remember : Option Bool := none

namespace Parts

def has (parts : Parts) : Field → Bool
  | .limits => parts.limits.isSome
  | .remember => parts.remember.isSome

/-- Settings, with the default for each that has not been read. -/
def finish (parts : Parts) : Settings where
  limits := parts.limits.getD ({} : Settings).limits
  remember := parts.remember.getD ({} : Settings).remember

end Parts

/-! ## From tokens -/

/-- The member that a name stands for, which must not have been read before. -/
def newMember {α : Type} (name : α → String) (all : List α) (has : α → Bool) (s : String) :
    Except Complaint α := do
  let a ← memberOfName name all s
  if has a then .error (.repeatedField s) else .ok a

/-- Limits from the tokens of a text. -/
def takeLimits : Reader Limits
  | .openBrace :: tokens => do
    let member (parts : LimitsParts) (s : String) : Reader LimitsParts := fun tokens => do
      let field ← newMember LimitsField.name LimitsField.all parts.has s
      let (g, tokens) ← Json.glimpseFirst (← Json.afterColon tokens)
      return (← parts.put field g, tokens)
    let (parts, tokens) ← Json.members Json.Grade.strict member {} tokens
    return (parts.finish, tokens)
  | .openBracket :: tokens => do
    let item (state : LimitsParts × List LimitsField) : Reader (LimitsParts × List LimitsField) :=
      fun tokens => do
        match state with
        | (_, []) => .error .malformed
        | (parts, field :: fields) =>
          let (g, tokens) ← Json.glimpseFirst tokens
          return ((← parts.put field g, fields), tokens)
    let ((parts, _), tokens) ← Json.elements item ({}, LimitsField.all) tokens
    return (parts.finish, tokens)
  | tokens => do
    let (g, _) ← Json.glimpseFirst tokens
    .error (.wrongType g .limits)

/-- One setting from the tokens of a text. -/
def takePart (parts : Parts) (field : Field) : Reader Parts := fun tokens => do
  match field with
  | .limits =>
    let (limits, tokens) ← takeLimits tokens
    return ({ parts with limits := some limits }, tokens)
  | .remember =>
    let (g, tokens) ← Json.glimpseFirst tokens
    return ({ parts with remember := some (← flag g) }, tokens)

def take : Reader Settings
  | .openBrace :: tokens => do
    let member (parts : Parts) (s : String) : Reader Parts := fun tokens => do
      let field ← newMember Field.name Field.all parts.has s
      takePart parts field (← Json.afterColon tokens)
    let (parts, tokens) ← Json.members Json.Grade.strict member {} tokens
    return (parts.finish, tokens)
  | .openBracket :: tokens => do
    let item (state : Parts × List Field) : Reader (Parts × List Field) := fun tokens => do
      match state with
      | (_, []) => .error .malformed
      | (parts, field :: fields) =>
        let (parts, tokens) ← takePart parts field tokens
        return ((parts, fields), tokens)
    let ((parts, _), tokens) ← Json.elements item ({}, Field.all) tokens
    return (parts.finish, tokens)
  | tokens => do
    let (g, _) ← Json.glimpseFirst tokens
    .error (.wrongType g .settings)

/-! ## From values -/

/-- Reads values into members one after the other, and complains if there are more values. -/
def fill {α β : Type} (put : β → α → Json → Except Complaint β) (extent : Nat) :
    List α → List Json → β → Except Complaint β
  | _, [], state => .ok state
  | [], _ :: _, _ => .error (.wrongLength extent .fewer)
  | a :: as, j :: js, state => do fill put extent as js (← put state a j)

def limitsOfJson : Json → Except Complaint Limits
  | .object members => do
    let member (parts : LimitsParts) (m : String × Json) : Except Complaint LimitsParts := do
      parts.put (← memberOfName LimitsField.name LimitsField.all m.1) m.2.glimpse
    return (← members.foldlM member {}).finish
  | .array items => do
    let put (parts : LimitsParts) (field : LimitsField) (j : Json) := parts.put field j.glimpse
    return (← fill put items.length LimitsField.all items {}).finish
  | other => .error (.wrongType other.glimpse .limits)

/-- One setting from a value. -/
def putPart (parts : Parts) (field : Field) (j : Json) : Except Complaint Parts := do
  match field with
  | .limits => return { parts with limits := some (← limitsOfJson j) }
  | .remember => return { parts with remember := some (← flag j.glimpse) }

/-- Settings from a value whose objects are dictionaries. -/
def ofCanonical : Json → Except Complaint Settings
  | .object members => do
    let member (parts : Parts) (m : String × Json) : Except Complaint Parts := do
      putPart parts (← memberOfName Field.name Field.all m.1) m.2
    return (← members.foldlM member {}).finish
  | .array items => do return (← fill putPart items.length Field.all items {}).finish
  | other => .error (.wrongType other.glimpse .settings)

/-! ## Validation -/

def validate (s : Settings) : Except SettingsProblem Settings :=
  if s.limits.depth = 0 then .error .noDepth
  else if 1 ≤ s.limits.terms ∧ s.limits.terms ≤ greatestDepth then .ok s
  else .error (.badTerms greatestDepth)

def parse (text : String) : Except Fault Settings :=
  ((Json.whole take text).mapError .complaint >>= validate).mapError .settings

def ofJson (j : Json) : Except Fault Settings :=
  ((ofCanonical j.canonical).mapError .complaint >>= validate).mapError .settings

end Settings

end Rulebook
