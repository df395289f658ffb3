/-!
Timestamps of a YAML text: a date, or a date and a time. Month, day, hour, minute and second may have one digit. A time
after a `T` has a zone; one after blanks has none.
-/
namespace Rtl.Yaml.Timestamp

def digit? : List Char → Option (Nat × List Char)
  | c :: rest => if c.isDigit then some (c.toNat - '0'.toNat, rest) else none
  | [] => none

/-- A number of one or two digits. -/
def number? (cs : List Char) : Option (Nat × List Char) := do
  let (a, rest) ← digit? cs
  match digit? rest with
  | some (b, rest) => return (a * 10 + b, rest)
  | none => return (a, rest)

/-- A number of two digits. -/
def pair? (cs : List Char) : Option (Nat × List Char) := do
  let (a, rest) ← digit? cs
  let (b, rest) ← digit? rest
  return (a * 10 + b, rest)

/-- What follows a mark. -/
def after? (mark : Char) : List Char → Option (List Char)
  | c :: rest => if c = mark then some rest else none
  | [] => none

def isLeap (year : Nat) : Bool := year % 4 = 0 && (year % 100 != 0 || year % 400 = 0)

def daysIn (year month : Nat) : Nat :=
  if month = 2 then if isLeap year then 29 else 28
  else if [4, 6, 9, 11].contains month then 30
  else 31

/-- A date that the calendar has; its year has four digits. -/
def date? (cs : List Char) : Option (List Char) := do
  let (high, cs) ← pair? cs
  let (low, cs) ← pair? cs
  let (month, cs) ← number? (← after? '-' cs)
  let (day, cs) ← number? (← after? '-' cs)
  if 1 ≤ month && month ≤ 12 && 1 ≤ day && day ≤ daysIn (high * 100 + low) month then return cs else none

/-- A part of a second, if there is one. -/
def fraction (cs : List Char) : List Char :=
  match cs with
  | mark :: d :: rest =>
    if (mark = '.' || mark = ',') && d.isDigit then rest.dropWhile Char.isDigit else cs
  | _ => cs

def time? (cs : List Char) : Option (List Char) := do
  let (hour, cs) ← number? cs
  let (minute, cs) ← number? (← after? ':' cs)
  let (second, cs) ← number? (← after? ':' cs)
  if hour < 24 && minute < 60 && second < 60 then return fraction cs else none

/-- A zone: a `Z`, or how far it is ahead or behind. -/
def zone? : List Char → Option (List Char)
  | 'Z' :: rest => some rest
  | sign :: cs => do
    let (hour, cs) ← pair? cs
    let (minute, cs) ← pair? (← after? ':' cs)
    if (sign = '+' || sign = '-') && hour ≤ 24 && minute ≤ 60 then return cs else none
  | [] => none

def afterDate? : List Char → Option (List Char)
  | [] => some []
  | c :: cs =>
    if c = 'T' || c = 't' then (time? cs).bind zone?
    else if c = ' ' then time? (cs.dropWhile (· = ' '))
    else none

def isWritten (s : String) : Bool := ((date? s.toList).bind afterDate?) = some []

end Rtl.Yaml.Timestamp
