import Rulebook.Json.Complaint

/-!
# Reading JSON tokens

Readers take tokens from the left and stop at the first problem. A reader gets the tokens that are
left and answers with a value and the tokens after it. `Json.elements` and `Json.members` are the
loops over arrays and objects that all readers share; `Json.value` reads any value whose containers
are not nested more deeply than there is room for.
-/

namespace Rulebook.Json

/-- A reader takes a value from the front of the tokens that are left, or complains. -/
abbrev Reader (α : Type) := List Token → Except Complaint (α × List Token)

/-- What a reader makes of the strings and numbers that denote nothing. -/
structure Grade where
  string : Option String → Option String
  number : Option Number → Option Number

/-- Strings and numbers have to denote something. -/
def Grade.strict : Grade := ⟨id, id⟩

/-- The lexical form of strings and numbers is all that counts. -/
def Grade.loose : Grade where
  string s := some (s.getD "")
  number n := some (n.getD (.integer 0))

/-- The tokens after a colon. -/
def afterColon : List Token → Except Complaint (List Token)
  | .colon :: tokens => .ok tokens
  | _ => .error .malformed

/-- The elements of an array that has one, after its opening bracket. Each element is read into a
state, by at most `fuel` turns. -/
def elementsUpTo {σ : Type} (element : σ → Reader σ) :
    (fuel : Nat) → σ → Reader σ
  | 0, _, _ => .error .malformed
  | fuel + 1, state, tokens => do
    match ← element state tokens with
    | (state, .comma :: tokens) => elementsUpTo element fuel state tokens
    | (state, .closeBracket :: tokens) => .ok (state, tokens)
    | _ => .error .malformed

/-- The elements of an array, after its opening bracket. -/
def elements {σ : Type} (element : σ → Reader σ) (state : σ) :
    Reader σ
  | .closeBracket :: tokens => .ok (state, tokens)
  | tokens => elementsUpTo element tokens.length state tokens

/-- The members of an object that has one, after its opening brace. Each member is read into a
state, from its name and the tokens after the name, by at most `fuel` turns. -/
def membersUpTo {σ : Type} (grade : Grade) (member : σ → String → Reader σ) :
    (fuel : Nat) → σ → Reader σ
  | 0, _, _ => .error .malformed
  | fuel + 1, state, .string s :: tokens =>
    match grade.string s with
    | none => .error .malformed
    | some name => do
      match ← member state name tokens with
      | (state, .comma :: tokens) => membersUpTo grade member fuel state tokens
      | (state, .closeBrace :: tokens) => .ok (state, tokens)
      | _ => .error .malformed
  | _, _, _ => .error .malformed

/-- The members of an object, after its opening brace. -/
def members {σ : Type} (grade : Grade) (member : σ → String → Reader σ) (state : σ) :
    Reader σ
  | .closeBrace :: tokens => .ok (state, tokens)
  | tokens => membersUpTo grade member tokens.length state tokens

/-- The value of a token that is a whole value. -/
def scalar? (grade : Grade) : Token → Option Json
  | .null => some .null
  | .boolean b => some (.boolean b)
  | .number n => (grade.number n).map .number
  | .string s => (grade.string s).map .string
  | _ => none

/-- A value whose first token is that of a whole value. -/
def scalar (grade : Grade) : Reader Json
  | token :: tokens =>
    match scalar? grade token with
    | some j => .ok (j, tokens)
    | none => .error .malformed
  | [] => .error .malformed

/-- A value in which at most `room` containers are open at once. -/
def value (grade : Grade) : (room : Nat) → Reader Json
  | room + 1, .openBracket :: tokens => do
    let item (items : List Json) : Reader (List Json) := fun tokens => do
      let (j, tokens) ← value grade room tokens
      return (j :: items, tokens)
    let (items, tokens) ← elements item [] tokens
    return (.array items.reverse, tokens)
  | room + 1, .openBrace :: tokens => do
    let member (members : List (String × Json)) (name : String) :
        Reader (List (String × Json)) := fun tokens => do
      let (j, tokens) ← value grade room (← afterColon tokens)
      return ((name, j) :: members, tokens)
    let (members, tokens) ← members grade member [] tokens
    return (.object members.reverse, tokens)
  | _, tokens => scalar grade tokens

/-- A value however deeply it is nested: no more containers are open than there are tokens. -/
def anyValue : Reader Json := fun tokens => value Grade.strict tokens.length tokens

/-- Takes a value of which only the lexical form counts. -/
def skip : Reader Unit := fun tokens => do
  let (_, tokens) ← value Grade.loose tokens.length tokens
  return ((), tokens)

/-- A glimpse of the value in front, and the tokens after its first token. -/
def glimpseFirst : Reader Glimpse
  | token :: tokens =>
    match token.glimpse? with
    | some g => .ok (g, tokens)
    | none => .error .malformed
  | [] => .error .malformed

/-- What a reader of a whole text makes of it: nothing may follow the value. -/
def whole {α : Type} (read : Reader α) (text : String) : Except Complaint α := do
  let (a, tokens) ← read (lex text.toList)
  if tokens.isEmpty then .ok a else .error .malformed

/-- How many containers may be open at once where no reader sets a limit of its own. -/
def usualRoom : Nat := 127

/-- The value of a JSON text of usual nesting. -/
def ofText (text : String) : Except Complaint Json := whole (value Grade.strict usualRoom) text

end Rulebook.Json
