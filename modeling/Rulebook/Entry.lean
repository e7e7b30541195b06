import Rulebook.Entry.Instant
import Rulebook.Fault

/-!
# Entries

An entry is a rule under an identifier, with a name, perhaps a description, and the instants at
which it was made and last changed. Entries are encoded as JSON objects, and read from them or from
arrays of the members in their order.
-/

namespace Rulebook

open Json (Complaint Reader)

/-- A rule that is kept. -/
structure Entry where
  id : Identifier
  name : String
  description : Option String
  rule : Rule
  createdAt : Instant
  updatedAt : Instant
deriving DecidableEq, Repr

namespace Entry

/-- An entry without its rule. -/
structure Summary where
  id : Identifier
  name : String
  description : Option String
  createdAt : Instant
  updatedAt : Instant
deriving DecidableEq, Repr

def summary (e : Entry) : Summary := ⟨e.id, e.name, e.description, e.createdAt, e.updatedAt⟩

/-- Equality of entries up to equality of the numbers in their rules. -/
def same (a b : Entry) : Bool := a.summary = b.summary && a.rule.same b.rule

/-! ## Encoding -/

/-- The member for a description, if there is one. -/
def descriptionMembers (description : Option String) : List (String × Json) :=
  description.toList.map fun d => ("description", .string d)

def toJson (e : Entry) : Json := .object (
  [("id", .string e.id.text), ("name", .string e.name)] ++ descriptionMembers e.description ++
  [("ast", e.rule.toJson), ("createdAt", .string e.createdAt.text),
    ("updatedAt", .string e.updatedAt.text)])

def Summary.toJson (s : Summary) : Json := .object (
  [("id", .string s.id.text), ("name", .string s.name)] ++ descriptionMembers s.description ++
  [("createdAt", .string s.createdAt.text), ("updatedAt", .string s.updatedAt.text)])

def encode (e : Entry) : String := e.toJson.compact

/-! ## Decoding -/

def takeText : Reader String := fun tokens => do
  match ← Json.glimpseFirst tokens with
  | (.string s, tokens) => return (s, tokens)
  | (g, _) => .error (.wrongType g .text)

def takeDescription : Reader (Option String) := fun tokens => do
  match ← Json.glimpseFirst tokens with
  | (.null, tokens) => return (none, tokens)
  | (.string s, tokens) => return (some s, tokens)
  | (g, _) => .error (.wrongType g .text)

def takeIdentifier : Reader Identifier := fun tokens => do
  match ← Json.glimpseFirst tokens with
  | (.string s, tokens) =>
    match Identifier.ofChars? s.toList with
    | some id => return (id, tokens)
    | none => .error .badIdentifier
  | (g, _) => .error (.wrongType g .identifier)

def takeInstant : Reader Instant := fun tokens => do
  match ← Json.glimpseFirst tokens with
  | (.string s, tokens) =>
    match Instant.read? s with
    | some t => return (t, tokens)
    | none => .error .badInstant
  | (g, _) => .error (.wrongType g .instant)

/-- The members of an encoded entry, in the order of the array form. -/
inductive Field where
  | id
  | name
  | description
  | rule
  | createdAt
  | updatedAt
deriving DecidableEq, Repr

def Field.all : List Field := [id, name, description, rule, createdAt, updatedAt]

def Field.key : Field → String
  | id => "id"
  | name => "name"
  | description => "description"
  | rule => "ast"
  | createdAt => "createdAt"
  | updatedAt => "updatedAt"

/-- The parts of an entry that have been read. -/
structure Parts where
  id : Option Identifier := none
  name : Option String := none
  description : Option (Option String) := none
  rule : Option Rule := none
  createdAt : Option Instant := none
  updatedAt : Option Instant := none

namespace Parts

def has (parts : Parts) : Field → Bool
  | .id => parts.id.isSome
  | .name => parts.name.isSome
  | .description => parts.description.isSome
  | .rule => parts.rule.isSome
  | .createdAt => parts.createdAt.isSome
  | .updatedAt => parts.updatedAt.isSome

/-- Reads one part. -/
def take (parts : Parts) (field : Field) : Reader Parts := fun tokens => do
  match field with
  | .id =>
    let (i, tokens) ← takeIdentifier tokens
    return ({ parts with id := some i }, tokens)
  | .name =>
    let (s, tokens) ← takeText tokens
    return ({ parts with name := some s }, tokens)
  | .description =>
    let (d, tokens) ← takeDescription tokens
    return ({ parts with description := some d }, tokens)
  | .rule =>
    let (r, tokens) ← Rule.take tokens
    return ({ parts with rule := some r }, tokens)
  | .createdAt =>
    let (t, tokens) ← takeInstant tokens
    return ({ parts with createdAt := some t }, tokens)
  | .updatedAt =>
    let (t, tokens) ← takeInstant tokens
    return ({ parts with updatedAt := some t }, tokens)

/-- The entry of parts that have been read; `missing` complains about one that has not. -/
def finish (parts : Parts) (missing : Field → Complaint) : Except Complaint Entry := do
  let need {α : Type} (field : Field) (part : Option α) : Except Complaint α :=
    match part with
    | some a => .ok a
    | none => .error (missing field)
  return {
    id := ← need .id parts.id
    name := ← need .name parts.name
    description := parts.description.getD none
    rule := ← need .rule parts.rule
    createdAt := ← need .createdAt parts.createdAt
    updatedAt := ← need .updatedAt parts.updatedAt }

end Parts

/-- An entry from the tokens of a text. Members of other names are passed over. -/
def take : Reader Entry
  | .openBrace :: tokens => do
    let member (parts : Parts) (key : String) : Reader Parts := fun tokens => do
      match Field.all.find? fun field => field.key = key with
      | some field =>
        if parts.has field then .error (.repeatedField key)
        else parts.take field (← Json.afterColon tokens)
      | none =>
        let ((), tokens) ← Json.skip (← Json.afterColon tokens)
        return (parts, tokens)
    let (parts, tokens) ← Json.members Json.Grade.strict member {} tokens
    return (← parts.finish fun field => .missingField field.key, tokens)
  | .openBracket :: tokens => do
    let item (state : Parts × List Field) : Reader (Parts × List Field) := fun tokens => do
      match state with
      | (_, []) => .error .malformed
      | (parts, field :: fields) =>
        let (parts, tokens) ← parts.take field tokens
        return ((parts, fields), tokens)
    let ((parts, _), tokens) ← Json.elements item ({}, Field.all) tokens
    return (← parts.finish fun field => .wrongLength (Field.all.idxOf field) .entry, tokens)
  | tokens => do
    let (g, _) ← Json.glimpseFirst tokens
    .error (.wrongType g .entry)

/-- The entry that a JSON text encodes, or what is wrong with the text. Its rule stands one level
below it. -/
def decode (text : String) : Except DecodingProblem Entry :=
  decodeNested (greatestDepth + 1) take text

def load (text : String) : Except Fault Entry := (decode text).mapError .undecodable

end Entry

end Rulebook
