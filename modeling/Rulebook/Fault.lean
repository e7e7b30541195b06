import Rulebook.Entry.Identifier
import Rulebook.Rule.Decoding
import Rulebook.Rule.Grammar

/-!
# Faults

Everything that can go wrong when rules are read, judged, joined and kept, by cause. `Fault.kind`
sorts the causes and `Fault.message` puts them into words.
-/

namespace Rulebook

/-- Why settings are refused. -/
inductive SettingsProblem where
  | complaint (c : Json.Complaint)
  | noDepth
  | badTerms (greatest : Nat)
deriving DecidableEq, Repr

/-- What went wrong. -/
inductive Fault where
  /-- A rule text cannot be read. -/
  | grammar (obstacle : Obstacle)
  /-- A rule names a field about which the facts say nothing. -/
  | unknownField (name : String)
  /-- An encoded rule that was to be judged cannot be decoded. -/
  | unjudgeable (problem : DecodingProblem)
  /-- There are no rules to join. -/
  | nothingToJoin
  /-- The joined rule would be too large. -/
  | tooManyTerms (terms limit : Nat)
  /-- There are no entries of these identifiers. -/
  | noEntries (ids : List Identifier)
  /-- An encoded rule or entry cannot be decoded. -/
  | undecodable (problem : DecodingProblem)
  /-- A text is not that of an identifier. -/
  | notAnIdentifier (text : String)
  /-- A new entry lacks its name, its rule text or both. -/
  | incompleteEntry (missing : List String)
  /-- Facts are to be an object and are another value. -/
  | notAnObject (found : Json)
  /-- Settings are refused. -/
  | settings (problem : SettingsProblem)
  /-- A text is no JSON text. -/
  | notJson
deriving Repr

inductive Fault.Kind where
  | grammar
  | judgement
  | joining
  | unknownEntry
  | rule
  | facts
  | settings
  | json
deriving DecidableEq, Repr

namespace Fault

def kind : Fault → Kind
  | .grammar _ => .grammar
  | .unknownField _ | .unjudgeable _ => .judgement
  | .nothingToJoin | .tooManyTerms .. => .joining
  | .noEntries _ => .unknownEntry
  | .undecodable _ | .notAnIdentifier _ | .incompleteEntry _ => .rule
  | .notAnObject _ => .facts
  | .settings _ => .settings
  | .notJson => .json

/-- The words in front of the message of a fault of a kind. -/
def Kind.heading : Kind → String
  | grammar => "Syntax error at position "
  | judgement => "Evaluation error: "
  | joining => "Combination error: "
  | unknownEntry => "Rule not found: "
  | rule => "Invalid rule: "
  | facts => "Invalid record: "
  | settings => "Invalid config: "
  | json => "Serialization error: "

/-- What is wrong with an encoded rule, in words. -/
def decodingWords (problem : DecodingProblem) : String := "Invalid AST: " ++ problem.message

/-- A fault in words, without the heading of its kind. -/
def words : Fault → String
  | .grammar obstacle => toString obstacle.position ++ ": " ++ obstacle.snag.message
  | .unknownField name => "Field '" ++ name ++ "' not found in data"
  | .unjudgeable problem => decodingWords problem
  | .nothingToJoin => "No rules to combine"
  | .tooManyTerms terms limit =>
    "Combined rule would hold " ++ toString terms ++ " comparisons, limit is " ++ toString limit
  | .noEntries ids => String.intercalate ", " (ids.map Identifier.text)
  | .undecodable problem => decodingWords problem
  | .notAnIdentifier text => "Invalid ID format: " ++ text
  | .incompleteEntry missing => String.intercalate " and " missing ++ " required"
  | .notAnObject found => "expected a JSON object, got " ++ found.canonical.compact
  | .settings (.complaint c) => c.message
  | .settings .noDepth => "parser.max_depth must be at least 1"
  | .settings (.badTerms greatest) =>
    "parser.max_terms must be between 1 and " ++ toString greatest
  | .notJson => "invalid JSON"

def message (f : Fault) : String := f.kind.heading ++ f.words

end Fault

def Json.parse (text : String) : Except Fault Json := (Json.ofText text).mapError fun _ => .notJson

def Rule.parse (limits : Limits) (text : String) : Except Fault Rule :=
  (Rule.read limits text).mapError .grammar

def Rule.load (text : String) : Except Fault Rule := (Rule.decode text).mapError .undecodable

end Rulebook
