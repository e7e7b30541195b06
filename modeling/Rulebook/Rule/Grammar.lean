import Rulebook.Limits
import Rulebook.Number.Numeral
import Rulebook.Rule.Basic
import Rulebook.Text.Blank

/-!
# Reading rule text

A rule text is a chain of terms between connectives, joined from the left; the connectives bind
equally. A term is a comparison or a chain in parentheses. The text is read once from left to right:
a place in it knows the text that is left, and a reader goes from a place to a later one or names
the place where it could not go on.
-/

namespace Rulebook

/-- What stands in the way of reading a rule text. -/
inductive Snag where
  | noRule
  | tooDeep (limit : Nat)
  | tooManyTerms (limit : Nat)
  | noClosing
  | noField (found : Option Char)
  | noComparison (found : Option Char)
  | unknownComparison (symbol : List Char)
  | noValue (found : Option Char)
  | unclosedText
  | badNumber (digits : List Char)
  | unreadRest (rest : List Char)
deriving DecidableEq, Repr

/-- A snag and the number of bytes before it. -/
structure Obstacle where
  position : Nat
  snag : Snag
deriving DecidableEq, Repr

/-- A place in a rule text: what is left of the text, the number of bytes before it, and the number
of comparisons read before it. -/
structure Place where
  rest : List Char
  position : Nat := 0
  terms : Nat := 0
deriving DecidableEq, Repr

/-- A reader takes something from the text at a place, or meets an obstacle. -/
abbrev Reading (α : Type) := Place → Except Obstacle (α × Place)

namespace Place

/-- The place after some text that stands in front. -/
def after (p : Place) (taken : List Char) : Place :=
  { p with rest := p.rest.drop taken.length, position := p.position + Text.byteCount taken }

/-- The longest text in front whose characters pass a test. -/
def front (p : Place) (test : Char → Bool) : List Char := p.rest.takeWhile test

/-- The place after the spaces in front. -/
def skipSpaces (p : Place) : Place := p.after (p.front (· = ' '))

def obstacle {α : Type} (p : Place) (snag : Snag) : Except Obstacle α := .error ⟨p.position, snag⟩

end Place

namespace Grammar

def isFieldChar (c : Char) : Bool := c.isAlpha || c = '_'

def isComparisonChar (c : Char) : Bool := c = '>' || c = '<' || c = '='

def isNumberChar (c : Char) : Bool := c.isDigit || c = '.'

/-- A connective in front, if no field character follows its symbol. -/
def connectiveAt? (c : Connective) (p : Place) : Option Place :=
  let symbol := c.symbol.toList
  if symbol.isPrefixOf p.rest then
    let next := p.after symbol
    if next.rest.head?.any isFieldChar then none else some next
  else none

/-- The connective in front, after spaces. -/
def connective? (p : Place) : Option (Connective × Place) :=
  Connective.all.findSome? fun c => (connectiveAt? c p.skipSpaces).map (c, ·)

def field : Reading String := fun start =>
  let p := start.skipSpaces
  let name := p.front isFieldChar
  if name = [] then p.obstacle (.noField p.rest.head?)
  else .ok (String.ofList name, p.after name)

def comparison : Reading Comparison := fun start =>
  let p := start.skipSpaces
  let symbol := p.front isComparisonChar
  if symbol = [] then p.obstacle (.noComparison p.rest.head?)
  else match Comparison.ofSymbol? (String.ofList symbol) with
    | some c => .ok (c, p.after symbol)
    | none => p.obstacle (.unknownComparison symbol)

/-- A value: a text between apostrophes, or the digits of a number. -/
def value : Reading Value := fun start =>
  let p := start.skipSpaces
  match p.rest with
  | '\'' :: body =>
    let content := body.takeWhile (· ≠ '\'')
    if content.length = body.length then p.obstacle .unclosedText
    else .ok (.text (String.ofList content), p.after ('\'' :: (content ++ ['\''])))
  | rest =>
    let digits := rest.takeWhile isNumberChar
    if digits = [] then p.obstacle (.noValue rest.head?)
    else match Numeral.read? digits with
      | some x => .ok (.number x, p.after digits)
      | none => p.obstacle (.badNumber digits)

/-- A comparison of a field with a value, unless the text holds as many as it may. -/
def simpleTerm (limits : Limits) : Reading Rule := fun p =>
  if limits.terms ≤ p.terms then p.obstacle (.tooManyTerms limits.terms)
  else do
    let (field, p) ← field p
    let (comparison, p) ← comparison p
    let (value, p) ← value p
    return (.comparison comparison field value, { p with terms := p.terms + 1 })

/-- The closing parenthesis of a group. A lenient reader takes any character for it, and the end of
the text. -/
def closing (limits : Limits) : Reading Unit := fun start =>
  let p := start.skipSpaces
  match p.rest with
  | c :: _ => if c = ')' ∨ limits.lenient then .ok ((), p.after [c]) else p.obstacle .noClosing
  | [] => if limits.lenient then .ok ((), p) else p.obstacle .noClosing

/-- A term. `group?` reads what stands in parentheses, if one more pair may be opened. -/
def term (limits : Limits) (group? : Option (Reading Rule)) : Reading Rule := fun start =>
  let p := start.skipSpaces
  match p.rest with
  | '(' :: _ =>
    match group? with
    | none => p.obstacle (.tooDeep limits.depth)
    | some group => do
      let (rule, p) ← group (p.after ['('])
      let ((), p) ← closing limits p
      return (rule, p)
  | _ => simpleTerm limits p

/-- Joins the terms that follow a rule to it, by at most `fuel` connectives. -/
def chainUpTo (term : Reading Rule) : (fuel : Nat) → Rule → Reading Rule
  | 0, left, p => .ok (left, p)
  | fuel + 1, left, p =>
    match connective? p with
    | none => .ok (left, p)
    | some (c, next) => do
      let (right, p) ← term next
      chainUpTo term fuel (.join c left right) p

def chain (term : Reading Rule) : Reading Rule := fun start => do
  let (first, p) ← term start
  chainUpTo term p.rest.length first p

/-- A chain of terms in which at most `room` parentheses are open at once. -/
def expression (limits : Limits) : (room : Nat) → Reading Rule
  | 0, p => chain (term limits none) p
  | room + 1, p => chain (term limits (some (expression limits room))) p

end Grammar

/-- The rule that a text spells, and the obstacle if it spells none. Blank runs in the text count as
single spaces, and positions are those in the squeezed text. -/
def Rule.read (limits : Limits) (text : String) : Except Obstacle Rule := do
  let start : Place := { rest := Text.squeeze text.toList }
  if start.rest.isEmpty then start.obstacle .noRule
  else
    let (rule, p) ← Grammar.expression limits limits.depth start
    let p := p.skipSpaces
    if p.rest.isEmpty then return rule else p.obstacle (.unreadRest p.rest)

namespace Snag

/-- What stands at a place, in words. -/
def foundWords : Option Char → String
  | some c => "'" ++ String.singleton c ++ "'"
  | none => "end of input"

def message : Snag → String
  | noRule => "Empty rule"
  | tooDeep limit => "Nesting deeper than " ++ toString limit ++ " levels"
  | tooManyTerms limit => "More than " ++ toString limit ++ " comparisons"
  | noClosing => "Expected ')'"
  | noField found => "Expected field name, found " ++ foundWords found
  | noComparison found => "Expected comparison operator, found " ++ foundWords found
  | unknownComparison symbol => "Unknown comparison operator '" ++ String.ofList symbol ++ "'"
  | noValue found => "Expected value, found " ++ foundWords found
  | unclosedText => "Unterminated string literal"
  | badNumber digits => "Invalid number '" ++ String.ofList digits ++ "'"
  | unreadRest rest => "Unexpected input '" ++ String.ofList rest ++ "'"

end Snag

end Rulebook
