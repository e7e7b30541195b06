import Rulebook.Number.Numeral
import Rulebook.Text.Blank

/-!
# Instants

An instant is a second of a day of the Gregorian calendar, in universal time, with a fraction in
nanoseconds. A leap second is the second before it with a fraction of `10 ^ 9` nanoseconds or more.
Instants are written in the form of RFC 3339. Readers take that form with any offset from universal
time, a space in place of the letter `T`, and blank characters around its parts.
-/

namespace Rulebook

/-- A day of the calendar. -/
structure Date where
  year : Int
  month : Nat
  day : Nat
deriving DecidableEq, Repr, Inhabited

namespace Date

def isLeapYear (year : Int) : Bool := year % 4 = 0 && (year % 100 ≠ 0 || year % 400 = 0)

def daysInMonth (year : Int) (month : Nat) : Nat :=
  if month = 2 then if isLeapYear year then 29 else 28
  else if month = 4 ∨ month = 6 ∨ month = 9 ∨ month = 11 then 30
  else 31

/-- The years that an instant may lie in. -/
def hasYear (year : Int) : Bool := -262143 ≤ year && year ≤ 262142

/-- The day of a year, month and day number, if there is one. -/
def of? (year : Int) (month day : Nat) : Option Date :=
  if hasYear year ∧ 1 ≤ month ∧ month ≤ 12 ∧ 1 ≤ day ∧ day ≤ daysInMonth year month then
    some ⟨year, month, day⟩
  else none

/-- The day after, unless the years end. -/
def next? (d : Date) : Option Date :=
  if d.day < daysInMonth d.year d.month then some { d with day := d.day + 1 }
  else if d.month < 12 then some ⟨d.year, d.month + 1, 1⟩
  else of? (d.year + 1) 1 1

/-- The day before, unless the years begin. -/
def previous? (d : Date) : Option Date :=
  if 1 < d.day then some { d with day := d.day - 1 }
  else if 1 < d.month then some ⟨d.year, d.month - 1, daysInMonth d.year (d.month - 1)⟩
  else of? (d.year - 1) 12 31

end Date

/-- A moment of universal time. -/
structure Instant where
  date : Date
  /-- Seconds since the day began. -/
  second : Nat
  /-- Nanoseconds since the second began. -/
  nano : Nat
deriving DecidableEq, Repr, Inhabited

namespace Instant

/-! ## Writing -/

/-- A number in at least so many digits. -/
def padded (width n : Nat) : List Char :=
  let digits := Nat.toDigits 10 n
  List.replicate (width - digits.length) '0' ++ digits

/-- A year: four digits, or a sign and at least four digits for the years that four digits cannot
tell. -/
def yearText (year : Int) : List Char :=
  if 0 ≤ year ∧ year ≤ 9999 then padded 4 year.toNat
  else (if year < 0 then '-' else '+') :: padded 4 year.natAbs

/-- A fraction of a second in thousandths, millionths or billionths, whichever is enough. -/
def fractionText (nano : Nat) : List Char :=
  if nano = 0 then []
  else if nano % 1000000 = 0 then '.' :: padded 3 (nano / 1000000)
  else if nano % 1000 = 0 then '.' :: padded 6 (nano / 1000)
  else '.' :: padded 9 nano

/-- The text of an instant. A leap second is second 60 of its minute. -/
def text (t : Instant) : String :=
  let isLeap := decide (1000000000 ≤ t.nano)
  let second := t.second % 60 + (if isLeap then 1 else 0)
  let nano := if isLeap then t.nano - 1000000000 else t.nano
  String.ofList (yearText t.date.year ++ '-' :: (padded 2 t.date.month ++ '-' ::
    (padded 2 t.date.day ++ 'T' :: (padded 2 (t.second / 3600) ++ ':' ::
    (padded 2 (t.second / 60 % 60) ++ ':' :: (padded 2 second ++ fractionText nano ++ ['Z']))))))

/-! ## Reading -/

/-- A reader of a part of an instant. -/
abbrev Part (α : Type) := List Char → Option (α × List Char)

def skipBlanks (cs : List Char) : List Char := cs.dropWhile Text.isBlank

/-- A run of digits, at most so many of them. -/
def takeDigits (most : Nat) : Part Nat := fun cs =>
  let run := (cs.take most).takeWhile Char.isDigit
  if run = [] then none else some (Numeral.natOfDigits run, cs.drop run.length)

/-- Blank characters, a digit or two, and a test of the number they spell. -/
def takeTwoDigits (least greatest : Nat) : Part Nat := fun cs => do
  let (n, rest) ← takeDigits 2 (skipBlanks cs)
  if least ≤ n ∧ n ≤ greatest then some (n, rest) else none

/-- Blank characters and a year: four digits at most, or any number of them after a sign. -/
def takeYear : Part Int := fun cs =>
  match skipBlanks cs with
  | '-' :: rest => (takeDigits rest.length rest).map fun (n, rest) => (-(n : Int), rest)
  | '+' :: rest => (takeDigits rest.length rest).map fun (n, rest) => ((n : Int), rest)
  | rest => (takeDigits 4 rest).map fun (n, rest) => ((n : Int), rest)

/-- Blank characters and one certain character. -/
def takeMark (c : Char) : Part Unit := fun cs =>
  match skipBlanks cs with
  | d :: rest => if d = c then some ((), rest) else none
  | [] => none

def takeDate : Part Date := fun cs => do
  let (year, cs) ← takeYear cs
  let ((), cs) ← takeMark '-' cs
  let (month, cs) ← takeTwoDigits 1 12 cs
  let ((), cs) ← takeMark '-' cs
  let (day, cs) ← takeTwoDigits 1 31 cs
  let date ← Date.of? year month day
  return (date, cs)

def takeSeparator : Part Unit
  | 'T' :: cs | 't' :: cs | ' ' :: cs => some ((), cs)
  | _ => none

/-- A fraction in nanoseconds; digits after the ninth are passed over. -/
def takeFraction : Part Nat
  | '.' :: cs =>
    let run := cs.takeWhile Char.isDigit
    let kept := run.take 9
    if run = [] then none
    else some (Numeral.natOfDigits kept * Nat.pow 10 (9 - kept.length), cs.drop run.length)
  | cs => some (0, cs)

/-- A time of day: seconds since the day began, and nanoseconds. Second 60 is a leap second. -/
def takeTime : Part (Nat × Nat) := fun cs => do
  let (hour, cs) ← takeTwoDigits 0 23 cs
  let ((), cs) ← takeMark ':' cs
  let (minute, cs) ← takeTwoDigits 0 59 cs
  let ((), cs) ← takeMark ':' cs
  let (second, cs) ← takeTwoDigits 0 60 cs
  let (nano, cs) ← takeFraction cs
  let before := hour * 3600 + minute * 60
  return (if second = 60 then (before + 59, nano + 1000000000) else (before + second, nano), cs)

/-- Two digits that spell a number up to a bound. -/
def takePair (greatest : Nat) : Part Nat
  | a :: b :: cs =>
    let n := Numeral.natOfDigits [a, b]
    if a.isDigit ∧ b.isDigit ∧ n ≤ greatest then some (n, cs) else none
  | _ => none

/-- Hours and minutes of an offset in seconds; colons and blank characters may stand between them.
-/
def takeOffsetSize : Part Nat := fun cs => do
  let (hours, cs) ← takePair 23 cs
  let (minutes, cs) ← takePair 59 (cs.dropWhile fun c => c = ':' || Text.isBlank c)
  return (hours * 3600 + minutes * 60, cs)

/-- The offset of a local time from universal time, in seconds. -/
def takeOffset : Part Int := fun cs =>
  if (cs.take 3).map Char.toUpper = ['U', 'T', 'C'] then some (0, cs.drop 3)
  else match cs with
    | 'Z' :: rest | 'z' :: rest => some (0, rest)
    | '+' :: rest => (takeOffsetSize rest).map fun (n, rest) => ((n : Int), rest)
    | '-' :: rest | '−' :: rest => (takeOffsetSize rest).map fun (n, rest) => (-(n : Int), rest)
    | _ => none

/-- The instant at which clocks with an offset show a time of a day. -/
def ofLocal? (date : Date) (second nano : Nat) (offset : Int) : Option Instant :=
  let universal := second - offset
  if universal < 0 then date.previous?.map (⟨·, (universal + 86400).toNat, nano⟩)
  else if 86400 ≤ universal then date.next?.map (⟨·, (universal - 86400).toNat, nano⟩)
  else some ⟨date, universal.toNat, nano⟩

/-- The instant that a text tells. -/
def read? (text : String) : Option Instant := do
  let (date, cs) ← takeDate text.toList
  let ((), cs) ← takeSeparator cs
  let ((second, nano), cs) ← takeTime cs
  let (offset, cs) ← takeOffset (skipBlanks cs)
  if (skipBlanks cs).isEmpty then ofLocal? date second nano offset else none

end Instant

end Rulebook
