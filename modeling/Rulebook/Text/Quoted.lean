import Rulebook.Text.Hidden

/-!
# Quoted text in messages

Messages show a text between quotation marks, so that its ends and every character in it can be
seen: quotation marks and backslashes get a backslash, and a character without a shape of its own is
shown by a letter or by its code.
-/

namespace Rulebook.Text

/-- A character by its code in hexadecimal digits. -/
def codeText (c : Char) : List Char := '\\' :: 'u' :: '{' :: (Nat.toDigits 16 c.toNat ++ ['}'])

/-- How a character is shown between quotation marks. -/
def showChar (c : Char) : List Char :=
  match c with
  | '\x00' => ['\\', '0']
  | '\t' => ['\\', 't']
  | '\n' => ['\\', 'n']
  | '\r' => ['\\', 'r']
  | '"' => ['\\', '"']
  | '\\' => ['\\', '\\']
  | _ => if isHidden c then codeText c else [c]

/-- A text between quotation marks. -/
def quoted (s : String) : String := String.ofList ('"' :: (s.toList.flatMap showChar ++ ['"']))

end Rulebook.Text
