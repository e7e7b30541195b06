import Rulebook.Json.Basic
import Rulebook.Text.Quoted

/-!
# Complaints about JSON values

What a reader that wants a value of a certain kind says about a value of another kind. A complaint
shows what the reader saw at the first token of the value, and names what it wanted.
-/

namespace Rulebook.Json

/-- What the first token of a value shows of it. -/
inductive Glimpse where
  | null
  | boolean (b : Bool)
  | integer (i : Int)
  | float (x : Binary64)
  | string (s : String)
  | sequence
  | map
deriving DecidableEq, Repr

/-- What the first token of a value shows of a number. -/
def Number.glimpse : Number → Glimpse
  | integer i => .integer i
  | float x => .float x

/-- What the first token shows of a value. -/
def glimpse : Json → Glimpse
  | null => .null
  | boolean b => .boolean b
  | number n => n.glimpse
  | string s => .string s
  | array _ => .sequence
  | object _ => .map

/-- What a token shows of the value that starts with it, if a value can start with it. -/
def Token.glimpse? : Token → Option Glimpse
  | null => some .null
  | boolean b => some (.boolean b)
  | number n => n.map Number.glimpse
  | string s => s.map .string
  | openBracket => some .sequence
  | openBrace => some .map
  | _ => none

def Glimpse.words : Glimpse → String
  | null => "null"
  | boolean b => "boolean `" ++ (if b then "true" else "false") ++ "`"
  | integer i => "integer `" ++ String.ofList (Number.integer i).text ++ "`"
  | float x => "floating point `" ++ String.ofList (Number.float x).text ++ "`"
  | string s => "string " ++ Text.quoted s
  | sequence => "sequence"
  | map => "map"

/-- The kinds of value that readers want. -/
inductive Wanted where
  | settings
  | limits
  | entry
  | rule
  | tag
  | tagNumber
  | spelling
  | nothing
  | oneMember
  | count
  | flag
  | text
  | identifier
  | instant
deriving DecidableEq, Repr

def Wanted.words : Wanted → String
  | settings => "struct EngineConfig"
  | limits => "struct ParserConfig"
  | entry => "struct StoredRule"
  | rule => "internally tagged enum Node"
  | tag => "variant identifier"
  | tagNumber => "variant index 0 <= i < 2"
  | spelling => "string or map"
  | nothing => "unit"
  | oneMember => "map with a single key"
  | count => "usize"
  | flag => "a boolean"
  | text => "a string"
  | identifier => "a formatted UUID string"
  | instant => "an RFC 3339 formatted date and time string"

/-- The numbers of array elements that readers want. -/
inductive Extent where
  | join
  | comparison
  | noMoreParts
  | fewer
  | entry
deriving DecidableEq, Repr

def Extent.words : Extent → String
  | join => "struct variant Node::Operator with 3 elements"
  | comparison => "struct variant Node::Operand with 3 elements"
  | noMoreParts => "3 elements in sequence"
  | fewer => "fewer elements in array"
  | entry => "struct StoredRule with 6 elements"

/-- Why a reader refuses a text or a value. -/
inductive Complaint where
  /-- The text is no JSON text up to here, or too deeply nested. -/
  | malformed
  /-- A text is not that of an identifier. -/
  | badIdentifier
  /-- A text is not that of an instant. -/
  | badInstant
  | wrongType (found : Glimpse) (wanted : Wanted)
  | wrongValue (found : Glimpse) (wanted : Wanted)
  | wrongLength (found : Nat) (wanted : Extent)
  | unknownSpelling (found : String) (known : List String)
  | unknownField (found : String) (known : List String)
  | missingField (name : String)
  | repeatedField (name : String)
  /-- The value of a comparison is neither a number nor a string. -/
  | noOperand
  /-- The field of a comparison has no name. -/
  | namelessField
deriving DecidableEq, Repr

/-- A name between backquotes. -/
def named (name : String) : String := "`" ++ name ++ "`"

/-- A choice of names in words. -/
def choice : List String → String
  | [] => "nothing"
  | [a] => named a
  | [a, b] => named a ++ " or " ++ named b
  | many => "one of " ++ String.intercalate ", " (many.map named)

def Complaint.message : Complaint → String
  | malformed | badIdentifier | badInstant => "invalid JSON"
  | wrongType found wanted => "invalid type: " ++ found.words ++ ", expected " ++ wanted.words
  | wrongValue found wanted => "invalid value: " ++ found.words ++ ", expected " ++ wanted.words
  | wrongLength found wanted =>
    "invalid length " ++ toString found ++ ", expected " ++ wanted.words
  | unknownSpelling found known =>
    "unknown variant " ++ named found ++ ", expected " ++ choice known
  | unknownField found known => "unknown field " ++ named found ++ ", expected " ++ choice known
  | missingField name => "missing field " ++ named name
  | repeatedField name => "duplicate field " ++ named name
  | noOperand => "data did not match any variant of untagged enum Value"
  | namelessField => "operand field must not be empty"

end Rulebook.Json
