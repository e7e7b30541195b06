import Rulebook.Json.Number
import Rulebook.Number.Hexadecimal

/-!
# JSON tokens

JSON text is read as a list of tokens from left to right. The list ends with `Token.malformed` where
no token could be read. A string or number whose lexical form is right keeps a place in the list
even if it denotes nothing (a string with half a surrogate pair, a number that is not finite),
because a value that nobody looks at may be written with it.
-/

namespace Rulebook.Json

/-- A lexical unit of JSON text. -/
inductive Token where
  | openBrace
  | closeBrace
  | openBracket
  | closeBracket
  | comma
  | colon
  | null
  | boolean (b : Bool)
  | number (n : Option Number)
  | string (s : Option String)
  | malformed
deriving DecidableEq, Repr

/-! ## Strings -/

/-- A piece of a string between its quotation marks: a character, or a 16-bit code unit that was
written by its number. -/
inductive Piece where
  | char (c : Char)
  | codeUnit (n : Nat)
deriving DecidableEq, Repr

/-- The character that a backslash and one letter stand for. -/
def shortEscape? : Char → Option Char
  | '"' => some '"'
  | '\\' => some '\\'
  | '/' => some '/'
  | 'b' => some '\x08'
  | 'f' => some '\x0c'
  | 'n' => some '\n'
  | 'r' => some '\r'
  | 't' => some '\t'
  | _ => none

/-- The pieces of a string up to its closing quotation mark, and the rest of the text. Characters
below the space stand in a string only as escapes. -/
def scanPieces? : List Char → Option (List Piece × List Char)
  | [] => none
  | '"' :: cs => some ([], cs)
  | '\\' :: 'u' :: a :: b :: c :: d :: cs => do
    let unit ← Hexadecimal.read? [a, b, c, d]
    let (pieces, rest) ← scanPieces? cs
    return (.codeUnit unit :: pieces, rest)
  | '\\' :: c :: cs => do
    let meant ← shortEscape? c
    let (pieces, rest) ← scanPieces? cs
    return (.char meant :: pieces, rest)
  | c :: cs =>
    if c.toNat < 0x20 then none
    else do
      let (pieces, rest) ← scanPieces? cs
      return (.char c :: pieces, rest)

def isHighSurrogate (n : Nat) : Bool := 0xD800 ≤ n && n < 0xDC00

def isLowSurrogate (n : Nat) : Bool := 0xDC00 ≤ n && n < 0xE000

/-- The characters that pieces denote. Code units that are halves of surrogate pairs denote one only
in pairs. -/
def assemble? : List Piece → Option (List Char)
  | [] => some []
  | .char c :: pieces => (assemble? pieces).map (c :: ·)
  | .codeUnit high :: .codeUnit low :: pieces =>
    if isHighSurrogate high then
      if isLowSurrogate low then
        let code := 0x10000 + (high - 0xD800) * 0x400 + (low - 0xDC00)
        (assemble? pieces).map (Char.ofNat code :: ·)
      else none
    else if isLowSurrogate high then none
    else (assemble? (.codeUnit low :: pieces)).map (Char.ofNat high :: ·)
  | .codeUnit unit :: pieces =>
    if isHighSurrogate unit || isLowSurrogate unit then none
    else (assemble? pieces).map (Char.ofNat unit :: ·)

/-- The text of a character inside a string: a quotation mark, a backslash and the characters below
the space are escaped. -/
def escapeChar (c : Char) : List Char :=
  match c with
  | '"' => ['\\', '"']
  | '\\' => ['\\', '\\']
  | '\x08' => ['\\', 'b']
  | '\x0c' => ['\\', 'f']
  | '\n' => ['\\', 'n']
  | '\r' => ['\\', 'r']
  | '\t' => ['\\', 't']
  | _ =>
    if c.toNat < 0x20 then
      ['\\', 'u', '0', '0', Nat.digitChar (c.toNat / 16), Nat.digitChar (c.toNat % 16)]
    else [c]

/-- A string in quotation marks. -/
def quote (cs : List Char) : List Char := '"' :: (cs.flatMap escapeChar ++ ['"'])

/-! ## Lexing -/

def isSpace (c : Char) : Bool := c = ' ' || c = '\t' || c = '\n' || c = '\r'

/-- The tokens that are one character. -/
def punctuation? : Char → Option Token
  | '{' => some .openBrace
  | '}' => some .closeBrace
  | '[' => some .openBracket
  | ']' => some .closeBracket
  | ',' => some .comma
  | ':' => some .colon
  | _ => none

/-- A string, number or name in front of a text that does not start with white space or punctuation,
and the rest of the text. -/
def scanWord? : List Char → Option (Token × List Char)
  | '"' :: cs => (scanPieces? cs).map fun (pieces, rest) =>
    (.string ((assemble? pieces).map String.ofList), rest)
  | 'n' :: 'u' :: 'l' :: 'l' :: cs => some (.null, cs)
  | 't' :: 'r' :: 'u' :: 'e' :: cs => some (.boolean true, cs)
  | 'f' :: 'a' :: 'l' :: 's' :: 'e' :: cs => some (.boolean false, cs)
  | cs => (Written.scan? cs).map fun (written, rest) => (.number written.value?, rest)

/-- The tokens of a text of at most `fuel` characters. -/
def lexUpTo : (fuel : Nat) → List Char → List Token
  | 0, _ => []
  | _, [] => []
  | fuel + 1, c :: cs =>
    if isSpace c then lexUpTo fuel cs
    else match punctuation? c with
      | some token => token :: lexUpTo fuel cs
      | none => match scanWord? (c :: cs) with
        | some (token, rest) => token :: lexUpTo fuel rest
        | none => [.malformed]

/-- The tokens of a text. -/
def lex (cs : List Char) : List Token := lexUpTo cs.length cs

def Token.text : Token → List Char
  | openBrace => ['{']
  | closeBrace => ['}']
  | openBracket => ['[']
  | closeBracket => [']']
  | comma => [',']
  | colon => [':']
  | null => "null".toList
  | boolean b => if b then "true".toList else "false".toList
  | number n => (n.map Number.text).getD []
  | string s => (s.map fun s => quote s.toList).getD []
  | malformed => []

end Rulebook.Json
