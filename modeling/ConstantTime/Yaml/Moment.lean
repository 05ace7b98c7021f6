/-
# Dates and times

A scalar is a date, or a date and a time, if it is written as a year of four
digits, a month and a day, and perhaps hours, minutes and seconds, with a
fraction of a second and a time zone.
-/

import ConstantTime.Text.Bytes
import ConstantTime.Text.Number

namespace ConstantTime
namespace Yaml

/-- A number of one or two digits. -/
def shortNumber? (cs : List Char) : Option (Nat × List Char) :=
  let ds := (cs.take 2).takeWhile Char.isDigit
  (Text.natural? 10 ds).map fun n => (n, cs.drop ds.length)

/-- A number of exactly two digits. -/
def twoDigits? (cs : List Char) : Option (Nat × List Char) :=
  let ds := cs.take 2
  if ds.length = 2 && ds.all Char.isDigit then
    (Text.natural? 10 ds).map fun n => (n, cs.drop 2)
  else none

/-- The characters after one that has to be there. -/
def after? (c : Char) : List Char → Option (List Char)
  | x :: rest => if x = c then some rest else none
  | [] => none

/-- Does the year have a day more? -/
def isLeap (year : Nat) : Bool := year % 4 = 0 && (year % 100 ≠ 0 || year % 400 = 0)

/-- The number of days of a month. -/
def daysIn (year month : Nat) : Nat :=
  if month = 2 then (if isLeap year then 29 else 28)
  else if month ∈ [4, 6, 9, 11] then 30
  else 31

/-- The characters after a date. -/
def afterDate? (cs : List Char) : Option (List Char) := do
  let year ← Text.natural? 10 (cs.take 4)
  let rest ← after? '-' (cs.drop 4)
  let (month, rest) ← shortNumber? rest
  let rest ← after? '-' rest
  let (day, rest) ← shortNumber? rest
  if 1 ≤ month && month ≤ 12 && 1 ≤ day && day ≤ daysIn year month then some rest else none

/-- The characters after a fraction of a second, if there is one. -/
def afterFraction : List Char → List Char
  | p :: d :: rest =>
    if (p = '.' || p = ',') && d.isDigit then rest.dropWhile Char.isDigit else p :: d :: rest
  | cs => cs

/-- The characters after a time. -/
def afterTime? (cs : List Char) : Option (List Char) := do
  let (hour, rest) ← shortNumber? cs
  let rest ← after? ':' rest
  let (minute, rest) ← shortNumber? rest
  let rest ← after? ':' rest
  let (second, rest) ← shortNumber? rest
  if hour < 24 && minute < 60 && second < 60 then some (afterFraction rest) else none

/-- Is it a time zone? -/
def isZone : List Char → Bool
  | ['Z'] => true
  | sign :: rest =>
    if sign = '+' || sign = '-' then
      match twoDigits? rest with
      | some (hours, ':' :: rest) =>
        match twoDigits? rest with
        | some (minutes, []) => hours ≤ 24 && minutes ≤ 60
        | _ => false
      | _ => false
    else false
  | [] => false

/-- Is it a date, or a date and a time? -/
def isMoment (cs : List Char) : Bool :=
  match afterDate? cs with
  | none => false
  | some [] => true
  | some (c :: rest) =>
    if c = 'T' || c = 't' then (afterTime? rest).any isZone
    else if c = ' ' then (afterTime? (rest.dropWhile (· = ' '))).any List.isEmpty
    else false

end Yaml
end ConstantTime
