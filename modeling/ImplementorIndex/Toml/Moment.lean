/-!
# Dates and times of TOML

A moment is a date, a time of day, or a date and a time with the offset of its place or without. It
has to exist: months have their days, leap years counted, and a minute may have a leap second.
-/

namespace ImplementorIndex.Toml

def digitValue (c : Char) : Nat := c.toNat - '0'.toNat

/-- Reads exactly so many digits onto a value. -/
def readDigits : Nat → Nat → List Char → Option (Nat × List Char)
  | 0, value, text => some (value, text)
  | count + 1, value, c :: text =>
    if c.isDigit then readDigits count (10 * value + digitValue c) text else none
  | _ + 1, _, [] => none

/-- Reads a number of two digits up to a greatest one. -/
def readPair? (most : Nat) (text : List Char) : Option (Nat × List Char) :=
  match readDigits 2 0 text with
  | some (value, rest) => if value ≤ most then some (value, rest) else none
  | none => none

def takeChar? (expected : Char) : List Char → Option (List Char)
  | c :: rest => if c = expected then some rest else none
  | [] => none

def isLeapYear (year : Nat) : Bool := year % 4 = 0 && (year % 100 ≠ 0 || year % 400 = 0)

/-- The number of days of a month, none if there is no such month. -/
def daysOf (year month : Nat) : Nat :=
  if month = 2 then if isLeapYear year then 29 else 28
  else if month = 4 || month = 6 || month = 9 || month = 11 then 30
  else if 1 ≤ month && month ≤ 12 then 31
  else 0

def takeDate? (text : List Char) : Option (List Char) := do
  let (year, rest) ← readDigits 4 0 text
  let (month, rest) ← readDigits 2 0 (← takeChar? '-' rest)
  let (day, rest) ← readDigits 2 0 (← takeChar? '-' rest)
  if 1 ≤ day && day ≤ daysOf year month then some rest else none

def takeFraction? : List Char → Option (List Char)
  | '.' :: rest =>
    if rest.takeWhile Char.isDigit = [] then none else some (rest.dropWhile Char.isDigit)
  | rest => some rest

/-- Takes a time of day off the front of a text, with seconds and their fraction or without. -/
def takeTime? (text : List Char) : Option (List Char) := do
  let (_, rest) ← readPair? 23 text
  let (_, rest) ← readPair? 59 (← takeChar? ':' rest)
  match rest with
  | ':' :: rest =>
    let (_, rest) ← readPair? 60 rest
    takeFraction? rest
  | rest => some rest

/-- The offset of a place: none, that of the zero meridian, or hours and minutes. -/
def isOffset : List Char → Bool
  | [] => true
  | c :: rest =>
    if c = 'Z' || c = 'z' then rest.isEmpty
    else if c = '+' || c = '-' then
      match readPair? 23 rest with
      | some (_, ':' :: rest) =>
        match readPair? 59 rest with
        | some (_, rest) => rest.isEmpty
        | none => false
      | _ => false
    else false

def isMoment (text : List Char) : Bool :=
  match takeDate? text with
  | some [] => true
  | some (c :: rest) =>
    (c = 'T' || c = 't' || c = ' ') &&
      match takeTime? rest with
      | some rest => isOffset rest
      | none => false
  | none => takeTime? text = some []

end ImplementorIndex.Toml
