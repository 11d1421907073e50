import AgentRelay.Number.Shortest

/-
  Dates, times of day and moments, with the texts they are written as.

  A moment may carry an offset from universal time, kept in seconds. Two
  moments with offsets are the same when they name the same instant.
-/

namespace AgentRelay

open AgentRelay.Number (digitsOf padLeft)

/-- A day of the calendar. -/
structure Date where
  year : Nat
  month : Nat
  day : Nat
  deriving DecidableEq, Repr

/-- A time of day. -/
structure TimeOfDay where
  hour : Nat
  minute : Nat
  second : Nat
  microsecond : Nat
  deriving DecidableEq, Repr

/-- A day with a time, and the offset in seconds when one is known. -/
structure Moment where
  date : Date
  time : TimeOfDay
  offset : Option Int
  deriving DecidableEq, Repr

/-- Every fourth year is a leap year, of the centuries every fourth. -/
def isLeapYear (y : Nat) : Bool := y % 4 == 0 && (y % 100 != 0 || y % 400 == 0)

def daysInMonth (y m : Nat) : Nat :=
  if m = 2 then if isLeapYear y then 29 else 28
  else if m = 4 ∨ m = 6 ∨ m = 9 ∨ m = 11 then 30
  else 31

namespace Date

/-- The day with these numbers, if the calendar has it; years run to 9999. -/
def ofParts? (year month day : Int) : Option Date :=
  if 1 ≤ year ∧ year ≤ 9999 ∧ 1 ≤ month ∧ month ≤ 12 ∧ 1 ≤ day ∧
      day ≤ daysInMonth year.toNat month.toNat then
    some ⟨year.toNat, month.toNat, day.toNat⟩
  else none

def text (d : Date) : List Char :=
  padLeft 4 (digitsOf d.year) ++ '-' :: padLeft 2 (digitsOf d.month) ++
    '-' :: padLeft 2 (digitsOf d.day)

/-- The number of days before the year, from the year 1 on. -/
def daysBeforeYear (y : Nat) : Nat :=
  let p := y - 1
  p * 365 + p / 4 - p / 100 + p / 400

/-- The number of the day, counted from the first day of the year 1. -/
def ordinal (d : Date) : Nat :=
  daysBeforeYear d.year +
    (List.range (d.month - 1)).foldl (fun n m => n + daysInMonth d.year (m + 1)) 0 + d.day

end Date

namespace TimeOfDay

/-- The time with these numbers, if a day has it. -/
def ofParts? (hour minute second microsecond : Int) : Option TimeOfDay :=
  if 0 ≤ hour ∧ hour ≤ 23 ∧ 0 ≤ minute ∧ minute ≤ 59 ∧ 0 ≤ second ∧ second ≤ 59 ∧
      0 ≤ microsecond ∧ microsecond ≤ 999999 then
    some ⟨hour.toNat, minute.toNat, second.toNat, microsecond.toNat⟩
  else none

/-- Hour, minute and second with colons, and six places when there is a
fraction. -/
def text (t : TimeOfDay) : List Char :=
  padLeft 2 (digitsOf t.hour) ++ ':' :: padLeft 2 (digitsOf t.minute) ++
    ':' :: padLeft 2 (digitsOf t.second) ++
    if t.microsecond = 0 then [] else '.' :: padLeft 6 (digitsOf t.microsecond)

def seconds (t : TimeOfDay) : Nat := t.hour * 3600 + t.minute * 60 + t.second

end TimeOfDay

def offsetInRange (seconds : Int) : Bool := -86400 < seconds && seconds < 86400

/-- Sign, hours and minutes of an offset, and seconds when there are any. -/
def offsetText (seconds : Int) : List Char :=
  let n := seconds.natAbs
  (if seconds < 0 then '-' else '+') :: padLeft 2 (digitsOf (n / 3600)) ++
    ':' :: padLeft 2 (digitsOf (n / 60 % 60)) ++
    if n % 60 = 0 then [] else ':' :: padLeft 2 (digitsOf (n % 60))

namespace Moment

/-- Date and time with `glue` between them, and the offset when there is one. -/
def text (glue : Char) (m : Moment) : List Char :=
  m.date.text ++ glue :: m.time.text ++
    match m.offset with
    | none => []
    | some s => offsetText s

/-- The text of a moment, `none` when its offset is a day or more. -/
def text? (glue : Char) (m : Moment) : Option (List Char) :=
  if m.offset.all offsetInRange then some (m.text glue) else none

def instant (m : Moment) (offset : Int) : Int :=
  ((m.date.ordinal : Int) * 86400 + m.time.seconds - offset) * 1000000 + m.time.microsecond

/-- Moments with offsets are the same when they name one instant, without
offsets when they are equal; one of each kind are never the same. -/
def same (a b : Moment) : Bool :=
  match a.offset, b.offset with
  | none, none => a.date == b.date && a.time == b.time
  | some s, some t => a.instant s == b.instant t
  | _, _ => false

end Moment

end AgentRelay
