import Rulebook.Entry
import Rulebook.Rule.Conjunction
import Rulebook.Rule.Judgement
import Rulebook.Settings

/-!
# Catalogs

A catalog keeps entries by their identifiers and knows the order in which they were made. The
identifier of a new entry and the instant at which it is made are given from outside.
`Catalog.answer` answers one request; a request that fails leaves the catalog as it was.
-/

namespace Rulebook

/-- Entries by their identifiers. -/
structure Catalog where
  /-- The limits on the texts of new rules. -/
  limits : Limits := {}
  entries : Table Identifier Entry := Table.empty
  /-- The identifiers of the entries, newest first. -/
  order : List Identifier := []
deriving Inhabited

/-- What is asked of a catalog. -/
inductive Catalog.Request where
  | create (name : String) (description : Option String) (text : String)
  | combine (ids : List String)
  | get (id : String)
  | delete (id : String)
  | judge (id : String) (facts : Facts)
  | list

/-- What a catalog answers. -/
inductive Catalog.Reply where
  | entry (e : Entry)
  | verdict (holds : Bool) (id : Identifier)
  | summaries (all : List Entry.Summary)
  | fault (f : Fault)

namespace Catalog

def size (c : Catalog) : Nat := c.entries.size

def isEmpty (c : Catalog) : Bool := c.entries.pairs.isEmpty

/-- The identifier that a text spells. -/
def identifier (text : String) : Except Fault Identifier :=
  match Identifier.read? text with
  | some id => .ok id
  | none => .error (.notAnIdentifier text)

def entry (c : Catalog) (id : Identifier) : Except Fault Entry :=
  match c.entries.find? id with
  | some e => .ok e
  | none => .error (.noEntries [id])

def get (c : Catalog) (text : String) : Except Fault Entry := do c.entry (← identifier text)

/-- Adds an entry, which becomes the newest one. -/
def add (c : Catalog) (e : Entry) : Catalog :=
  { c with entries := c.entries.insert e.id e, order := e.id :: c.order }

def erase (c : Catalog) (id : Identifier) : Catalog :=
  { c with entries := c.entries.erase id, order := c.order.filter (· ≠ id) }

def missingParts (name text : String) : List String :=
  (if Text.isAllBlank name then ["name"] else []) ++
    (if Text.isAllBlank text then ["rule string"] else [])

/-- A new entry for a rule text. -/
def newEntry (c : Catalog) (fresh : Identifier) (now : Instant) (name : String)
    (description : Option String) (text : String) : Except Fault Entry := do
  let missing := missingParts name text
  if missing.isEmpty then
    let rule ← Rule.parse c.limits text
    return ⟨fresh, name, description, rule, now, now⟩
  else .error (.incompleteEntry missing)

/-- The entries of some identifiers. All unknown ones are reported together. -/
def entriesOf (c : Catalog) (ids : List Identifier) : Except Fault (List Entry) :=
  let missing := ids.filter fun id => (c.entries.find? id).isNone
  if missing.isEmpty then .ok (ids.filterMap c.entries.find?) else .error (.noEntries missing)

/-- The name of the conjunction of some entries. -/
def combinedName (parts : List Entry) : String :=
  "Combined Rule (" ++ String.intercalate ", " (parts.map Entry.name) ++ ")"

/-- The description of the conjunction of the entries of some identifiers. -/
def combinedDescription (ids : List Identifier) : String :=
  "Automatically combined rule from IDs: " ++ String.intercalate ", " (ids.map Identifier.text)

/-- A new entry for the conjunction of the entries whose identifiers some texts spell. -/
def combinedEntry (c : Catalog) (fresh : Identifier) (now : Instant) (texts : List String) :
    Except Fault Entry := do
  let ids ← texts.mapM identifier
  let parts ← c.entriesOf ids
  let rule ← Rule.conjunctionWithin c.limits.terms (parts.map Entry.rule)
  return ⟨fresh, combinedName parts, some (combinedDescription ids), rule, now, now⟩

/-- The entries without their rules, newest first. -/
def summaries (c : Catalog) : List Entry.Summary :=
  (c.order.filterMap c.entries.find?).map Entry.summary

/-- The truth of an entry's rule by facts, and the entry's identifier. -/
def judge (c : Catalog) (text : String) (facts : Facts) : Except Fault (Bool × Identifier) := do
  let e ← c.get text
  return (← e.rule.judge facts, e.id)

/-- Answers with an entry, if there is no fault, and changes the catalog by it. -/
def reply (c : Catalog) (outcome : Except Fault Entry) (change : Entry → Catalog) :
    Reply × Catalog :=
  match outcome with
  | .ok e => (.entry e, change e)
  | .error f => (.fault f, c)

/-- Answers one request. An entry that it makes gets a fresh identifier and the present instant. -/
def answer (c : Catalog) (fresh : Identifier) (now : Instant) : Request → Reply × Catalog
  | .create name description text =>
    c.reply (c.newEntry fresh now name description text) c.add
  | .combine ids => c.reply (c.combinedEntry fresh now ids) c.add
  | .get id => c.reply (c.get id) fun _ => c
  | .delete text =>
    match identifier text with
    | .ok id => c.reply (c.entry id) fun _ => c.erase id
    | .error f => (.fault f, c)
  | .judge id facts =>
    match c.judge id facts with
    | .ok (holds, id) => (.verdict holds id, c)
    | .error f => (.fault f, c)
  | .list => (.summaries c.summaries, c)

end Catalog

end Rulebook
