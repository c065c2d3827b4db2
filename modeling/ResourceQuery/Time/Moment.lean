import ResourceQuery.Time.Date
import ResourceQuery.Time.Offset

/-!
# Moments

A moment is an instant together with the way it was anchored and the offset it is shown in. Two
moments are equal when they are the same instant and were anchored the same way; the offset does
not count. `print` writes the civil date and time at that offset in the format of RFC 3339, with
as few of 0, 3, 6 or 9 fraction digits as keep the nanoseconds.
-/

namespace ResourceQuery

/-- What a date without a zone of its own refers to. -/
inductive Anchor where
  | local
  | utc
  deriving DecidableEq, Repr

structure Moment where
  anchor : Anchor
  /-- Seconds since 1970-01-01T00:00:00Z. -/
  seconds : Int
  nanos : Nat
  offset : UtcOffset
  deriving DecidableEq

namespace Moment

instance : BEq Moment where
  beq a b := a.seconds == b.seconds && a.nanos == b.nanos && a.anchor == b.anchor

/-- The moment at which a clock that is `zone` ahead of UTC shows a time of day. -/
def ofCivil (anchor : Anchor) (date : Date) (secondOfDay nanos : Nat) (zone offset : UtcOffset) :
    Moment :=
  ⟨anchor, date.number * 86400 + secondOfDay - zone.seconds, nanos, offset⟩

/-- Four digits, or a sign and at least four digits for a year that needs more or lies before 0. -/
def printYear (year : Int) : List Char :=
  if 0 ≤ year && year ≤ 9999 then Text.decimalPadded 4 year.natAbs
  else (if year < 0 then '-' else '+') :: Text.decimalPadded 4 year.natAbs

def printFraction (nanos : Nat) : List Char :=
  if nanos = 0 then []
  else if nanos % 1000000 = 0 then '.' :: Text.decimalPadded 3 (nanos / 1000000)
  else if nanos % 1000 = 0 then '.' :: Text.decimalPadded 6 (nanos / 1000)
  else '.' :: Text.decimalPadded 9 nanos

def printZone (moment : Moment) : List Char :=
  if moment.anchor = .utc && moment.offset.seconds = 0 then ['Z'] else moment.offset.print

def print (moment : Moment) : List Char :=
  let shown := moment.seconds + moment.offset.seconds
  let day := CivilDay.ofNumber (shown / 86400)
  let second := (shown % 86400).toNat
  printYear day.year ++ '-' :: Text.decimalPadded 2 day.month ++
    '-' :: Text.decimalPadded 2 day.day ++ 'T' :: Text.decimalPadded 2 (second / 3600) ++
    ':' :: Text.decimalPadded 2 (second / 60 % 60) ++ ':' :: Text.decimalPadded 2 (second % 60) ++
    printFraction moment.nanos ++ moment.printZone

end Moment

end ResourceQuery
