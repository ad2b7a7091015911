/-!
The proleptic Gregorian calendar: days counted from 1970-01-01, dates before it and before the year
one included. Years run from March here, so that the leap day is the last of its year, and repeat
every 400 years.
-/

namespace RecordLedger.Calendar

structure Date where
  year : Int
  month : Nat
  day : Nat
deriving DecidableEq, Repr

def isLeapYear (y : Int) : Bool := y % 4 == 0 && (y % 100 != 0 || y % 400 == 0)

def daysInMonth (year : Int) (month : Nat) : Nat :=
  if month == 2 then (if isLeapYear year then 29 else 28)
  else if month == 4 || month == 6 || month == 9 || month == 11 then 30
  else 31

def Date.isValid (d : Date) : Bool :=
  decide (1 ≤ d.month) && decide (d.month ≤ 12) && decide (1 ≤ d.day) &&
    decide (d.day ≤ daysInMonth d.year d.month)

/-- Days in one cycle of 400 years, and from the start of a cycle to 1970-01-01. -/
def cycleDays : Int := 146097
def cycleOffset : Int := 719468

def Date.toDays (d : Date) : Int :=
  let year := if d.month ≤ 2 then d.year - 1 else d.year
  let cycle := year / 400
  let yearOfCycle := year % 400
  let month : Int := if d.month ≤ 2 then d.month + 9 else d.month - 3
  let dayOfYear := (153 * month + 2) / 5 + d.day - 1
  let dayOfCycle := 365 * yearOfCycle + yearOfCycle / 4 - yearOfCycle / 100 + dayOfYear
  cycle * cycleDays + dayOfCycle - cycleOffset

/-- The date that lies `n` days after 1970-01-01. -/
def Date.ofDays (n : Int) : Date :=
  let cycle := (n + cycleOffset) / cycleDays
  let dayOfCycle := (n + cycleOffset) % cycleDays
  let yearOfCycle :=
    (dayOfCycle - dayOfCycle / 1460 + dayOfCycle / 36524 - dayOfCycle / 146096) / 365
  let dayOfYear := dayOfCycle - (365 * yearOfCycle + yearOfCycle / 4 - yearOfCycle / 100)
  let month := (5 * dayOfYear + 2) / 153
  let day := dayOfYear - (153 * month + 2) / 5 + 1
  let year := 400 * cycle + yearOfCycle
  if month < 10 then ⟨year, (month + 3).toNat, day.toNat⟩
  else ⟨year + 1, (month - 9).toNat, day.toNat⟩

example : (Date.mk 1970 1 1).toDays = 0 := by decide
example : Date.ofDays (-1) = ⟨1969, 12, 31⟩ := by decide
example : Date.ofDays 19782 = ⟨2024, 2, 29⟩ := by decide

end RecordLedger.Calendar
