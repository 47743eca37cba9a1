/-
# Points in time

Dates in YAML scalars: year, month and day, with a time of day or without. The year has four digits, and
all other parts have one or two. A time of day stands after a letter, and then a zone follows it, or
after spaces, and then none does.
-/

import LineScript.Number.Integer

namespace LineScript.Yaml

/-- How a time of day relates to universal time. -/
inductive Zone where
  | universal
  /-- So many minutes ahead of universal time. -/
  | offset (minutes : Int)
  deriving DecidableEq, Repr

/-- A point in time as it is written. -/
structure Moment where
  year : Nat
  month : Nat
  day : Nat
  hour : Nat := 0
  minute : Nat := 0
  second : Nat := 0
  nanosecond : Nat := 0
  zone : Zone := .universal
  deriving DecidableEq, Repr

namespace Moment

/-- How many days a month has. -/
def daysIn (year month : Nat) : Nat :=
  if month = 2 then
    if year % 4 = 0 && (year % 100 ≠ 0 || year % 400 = 0) then 29 else 28
  else if month = 4 || month = 6 || month = 9 || month = 11 then 30 else 31

/-- A number of one or two digits and what follows it. -/
def short? : List Char → Option (Nat × List Char)
  | a :: b :: rest =>
    if !a.isDigit then none
    else if b.isDigit then some (10 * (a.toNat - 48) + (b.toNat - 48), rest)
    else some (a.toNat - 48, b :: rest)
  | [a] => if a.isDigit then some (a.toNat - 48, []) else none
  | [] => none

/-- What follows a character. -/
def after? (c : Char) : List Char → Option (List Char)
  | [] => none
  | x :: rest => if x == c then some rest else none

/-- The date at the front of a scalar and what follows it. Whether there is such a day is not
checked. -/
def date? (cs : List Char) : Option (Moment × List Char) := do
  let digits := cs.takeWhile Char.isDigit
  if digits.length ≠ 4 then none
  let year ← Number.inBase? 10 digits
  let cs ← after? '-' (cs.drop 4)
  let (month, cs) ← short? cs
  if month = 0 || 12 < month then none
  let cs ← after? '-' cs
  let (day, cs) ← short? cs
  some ({ year, month, day }, cs)

/-- A fraction of a second in nanoseconds, if there is one, and what follows it. Digits past the ninth
are passed over. -/
def fraction (cs : List Char) : Nat × List Char :=
  match cs with
  | mark :: rest =>
    let digits := rest.takeWhile Char.isDigit
    if (mark == '.' || mark == ',') && !digits.isEmpty then
      let nine := (digits ++ List.replicate 9 '0').take 9
      ((Number.inBase? 10 nine).getD 0, rest.drop digits.length)
    else (0, cs)
  | [] => (0, cs)

/-- The time of day at the front of what follows a date. -/
def time? (m : Moment) (cs : List Char) : Option (Moment × List Char) := do
  let (hour, cs) ← short? cs
  if 24 ≤ hour then none
  let cs ← after? ':' cs
  let (minute, cs) ← short? cs
  if 60 ≤ minute then none
  let cs ← after? ':' cs
  let (second, cs) ← short? cs
  if 60 ≤ second then none
  let (nanosecond, cs) := fraction cs
  some ({ m with hour, minute, second, nanosecond }, cs)

/-- The zone that ends a scalar. -/
def zone? : List Char → Option Zone
  | ['Z'] => some .universal
  | [sign, h₁, h₂, ':', m₁, m₂] => do
    let hours ← Number.inBase? 10 [h₁, h₂]
    let minutes ← Number.inBase? 10 [m₁, m₂]
    if 24 < hours || 60 < minutes then none
    let total : Int := 60 * hours + minutes
    if sign == '+' then some (.offset total)
    else if sign == '-' then some (.offset (-total))
    else none
  | _ => none

/-- The point in time that a scalar is. The day has to be one of its month. -/
def read? (cs : List Char) : Option Moment := do
  let (m, cs) ← date? cs
  let found ← match cs with
    | [] => some m
    | c :: rest =>
      if c == 'T' || c == 't' then do
        let (m, rest) ← m.time? rest
        let zone ← zone? rest
        some { m with zone }
      else if c == ' ' then
        match m.time? (rest.dropWhile (· == ' ')) with
        | some (m, []) => some m
        | _ => none
      else none
  if found.day = 0 || daysIn found.year found.month < found.day then none
  some found

/-- The names of the months. -/
def monthNames : List String :=
  ["January", "February", "March", "April", "May", "June", "July", "August", "September", "October",
    "November", "December"]

/-- A point in time with all its parts. -/
def detailed (m : Moment) : String :=
  let zone := match m.zone with
    | .universal => "time.UTC"
    | .offset minutes => if minutes = 0 then "time.Local" else "time.Location(\"\")"
  let parts := [toString m.year, "time." ++ (monthNames[m.month - 1]?).getD "", toString m.day,
    toString m.hour, toString m.minute, toString m.second, toString m.nanosecond, zone]
  "time.Date(" ++ Text.joined ", " parts ++ ")"

end Moment

end LineScript.Yaml
