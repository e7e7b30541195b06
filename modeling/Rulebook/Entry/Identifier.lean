import Rulebook.Number.Hexadecimal
import Rulebook.Text.Blank

/-!
# Identifiers

An identifier is a number of 128 bits. It is written as 32 hexadecimal digits in groups of 8, 4, 4,
4 and 12 with hyphens between them. Readers also take the digits without hyphens, and the hyphenated
form in braces or after `urn:uuid:`, with letters of either case.
-/

namespace Rulebook

/-- A number of 128 bits that names an entry. -/
structure Identifier where
  number : BitVec 128
deriving DecidableEq, Repr, Inhabited

namespace Identifier

/-- So many hexadecimal digits of a number, the least significant ones, in their order. -/
def lastDigits : (width : Nat) → Nat → List Char
  | 0, _ => []
  | width + 1, n => lastDigits width (n / 16) ++ [Nat.digitChar (n % 16)]

def digits (i : Identifier) : List Char := lastDigits 32 i.number.toNat

/-- Digits with hyphens between the groups. -/
def hyphenate (digits : List Char) : List Char :=
  digits.take 8 ++ '-' :: ((digits.drop 8).take 4 ++ '-' :: ((digits.drop 12).take 4 ++
    '-' :: ((digits.drop 16).take 4 ++ '-' :: digits.drop 20)))

/-- The text of an identifier: hyphenated, in small letters. -/
def text (i : Identifier) : String := String.ofList (hyphenate i.digits)

/-- The identifier that 32 hexadecimal digits spell. -/
def ofDigits? (cs : List Char) : Option Identifier :=
  if cs.length = 32 then (Hexadecimal.read? cs).map fun n => ⟨BitVec.ofNat 128 n⟩ else none

/-- The digits of a hyphenated text of 36 characters. -/
def unhyphenate? (cs : List Char) : Option (List Char) :=
  let digits := cs.filter (· ≠ '-')
  if hyphenate digits = cs then some digits else none

/-- The identifier that a hyphenated text spells. -/
def ofHyphenated? (cs : List Char) : Option Identifier := (unhyphenate? cs).bind ofDigits?

/-- What stands in front of a hyphenated text in a name of names. -/
def nameMark : List Char := "urn:uuid:".toList

/-- The identifier that a text spells in one of its forms. -/
def ofChars? (cs : List Char) : Option Identifier :=
  match cs.length with
  | 32 => ofDigits? cs
  | 36 => ofHyphenated? cs
  | 38 =>
    if cs.head? = some '{' ∧ cs.getLast? = some '}' then ofHyphenated? (cs.drop 1).dropLast
    else none
  | 45 =>
    if (cs.take 9).map Char.toLower = nameMark then ofHyphenated? (cs.drop 9) else none
  | _ => none

/-- The identifier that a text spells, blank characters around it aside. -/
def read? (text : String) : Option Identifier := ofChars? (Text.trim text.toList)

end Identifier

end Rulebook
