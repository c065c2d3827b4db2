/-!
# Calendar days

Days of the proleptic Gregorian calendar and their numbers, counted from 1970-01-01. Both directions
count years from March, so that the leap day is the last of its year.
-/

namespace ResourceQuery

def isLeapYear (year : Int) : Bool :=
  year % 4 == 0 && (year % 100 != 0 || year % 400 == 0)

def daysInMonth (year : Int) : Nat → Nat
  | 2 => if isLeapYear year then 29 else 28
  | 4 | 6 | 9 | 11 => 30
  | _ => 31

structure Date where
  year : Int
  month : Nat
  day : Nat
  month_bounds : 1 ≤ month ∧ month ≤ 12
  day_bounds : 1 ≤ day ∧ day ≤ daysInMonth year month
  deriving DecidableEq

namespace Date

def of? (year : Int) (month day : Nat) : Option Date :=
  if h : (1 ≤ month ∧ month ≤ 12) ∧ (1 ≤ day ∧ day ≤ daysInMonth year month) then
    some ⟨year, month, day, h.1, h.2⟩
  else none

/-- The number of days from 0000-03-01 to 1970-01-01. -/
def epoch : Int := 719468

/-- The days of a year that began in March which lie before its `n`-th month, `n` from 0. -/
def daysBeforeMonth (n : Int) : Int :=
  (153 * n + 2) / 5

/-- The days before the year that begins in March of year `n`. -/
def daysBeforeYear (n : Int) : Int :=
  365 * n + n / 4 - n / 100 + n / 400

/-- The number of the day, counted from 1970-01-01. -/
def number (date : Date) : Int :=
  let year := if date.month ≤ 2 then date.year - 1 else date.year
  let month : Int := if date.month ≤ 2 then date.month + 9 else date.month - 3
  daysBeforeYear year + daysBeforeMonth month + date.day - 1 - epoch

end Date

/-- Year, month and day of the month. -/
structure CivilDay where
  year : Int
  month : Nat
  day : Nat
  deriving DecidableEq, Repr

/-- The calendar day of a day number. -/
def CivilDay.ofNumber (number : Int) : CivilDay :=
  let days := number + Date.epoch
  let cycle := days / 146097
  let dayOfCycle := days % 146097
  let leapDays := dayOfCycle / 1460 - dayOfCycle / 36524 + dayOfCycle / 146096
  let yearOfCycle := (dayOfCycle - leapDays) / 365
  let dayOfYear := dayOfCycle - (365 * yearOfCycle + yearOfCycle / 4 - yearOfCycle / 100)
  let month := (5 * dayOfYear + 2) / 153
  let year := 400 * cycle + yearOfCycle
  { year := if month < 10 then year else year + 1
    month := (if month < 10 then month + 3 else month - 9).toNat
    day := (dayOfYear - Date.daysBeforeMonth month + 1).toNat }

end ResourceQuery
