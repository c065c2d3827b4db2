import ResourceQuery.Literal.Span
import ResourceQuery.Time.Moment

/-!
# Date and time literals

A date is `yyyy-mm-dd` or `mm-dd-yyyy`, with hyphens or slashes; a time of day may follow after
`T` or one space, and a zone after that. Without a zone the literal refers to the local offset, or
to UTC where the prefix says so. `ahead` decides whether a run of digits is committed to being a
date: four digits and a separator in front of a digit always are, one or two digits only when the
shape is complete.
-/

namespace ResourceQuery.Moment

def isSeparator (c : Char) : Bool :=
  c == '-' || c == '/'

/-- One or two digits, `separator` and exactly four digits. -/
def dayAndYearAhead (separator : Char) (text : List Char) : Bool :=
  let day := (text.take 3).takeWhile Text.isDigit
  let rest := text.drop day.length
  let year := ((rest.drop 1).take 5).takeWhile Text.isDigit
  (day.length == 1 || day.length == 2) && rest.head? == some separator && year.length == 4

/-- The digits at the cursor are committed to being a date. -/
def ahead (cursor : Cursor) : Bool :=
  let lead := cursor.countAhead Text.isDigit
  match cursor.ahead.drop lead with
  | separator :: rest =>
    isSeparator separator &&
      ((lead == 4 && rest.head?.any Text.isDigit) ||
        ((lead == 1 || lead == 2) && dayAndYearAhead separator rest))
  | [] => false

def failAt {α : Type} (mark : Nat) (fault : DateFault) : Scan α :=
  Scan.failFrom mark (.date · fault)

/-- Reads a number of `least` to `most` digits. -/
def scanDigits (mark least most : Nat) (part : DatePart) : Scan Nat := do
  let digits ← Scan.readAtMost most Text.isDigit
  if digits.length < least then failAt mark (.missing part)
  return Text.ofDigits digits

def scanSeparator (mark : Nat) (separator : Char) : Scan Unit := do
  unless ← Scan.accept separator do failAt mark (.missing (.separator separator))

/-- Reads the rest of a date whose first field has been read, as year, month and day. -/
def scanAfterFirst (mark : Nat) (first : List Char) (separator : Char) :
    Scan (Nat × Nat × Nat) := do
  match first.length with
  | 4 =>
    let month ← scanDigits mark 1 2 .month
    scanSeparator mark separator
    let day ← scanDigits mark 1 2 .day
    return (Text.ofDigits first, month, day)
  | 1 | 2 =>
    let day ← scanDigits mark 1 2 .day
    scanSeparator mark separator
    let year ← scanDigits mark 4 4 .year
    return (year, Text.ofDigits first, day)
  | _ => failAt mark .unknownOrder

def scanDate (mark : Nat) : Scan Date := do
  let first ← Scan.readWhile Text.isDigit
  let some separator ← Scan.readIf isSeparator | failAt mark .noSeparator
  let (year, month, day) ← scanAfterFirst mark first separator
  match Date.of? year month day with
  | some date => return date
  | none => failAt mark (.noSuchDay year month day)

/-- A time of day, as a second of the day and nanoseconds. -/
structure ClockTime where
  second : Nat
  nanos : Nat

def midnight : ClockTime := ⟨0, 0⟩

/-- Reads the seconds and their fraction, if a colon announces them. -/
def scanSeconds (mark : Nat) : Scan (Nat × Nat) := do
  if ← Scan.accept ':' then
    let second ← scanDigits mark 2 2 .second
    let nanos ← TimeSpan.scanFraction
    return (second, nanos)
  else return (0, 0)

def scanClock (mark : Nat) : Scan ClockTime := do
  let hour ← scanDigits mark 1 2 .hour
  scanSeparator mark ':'
  let minute ← scanDigits mark 2 2 .minute
  let (second, nanos) ← scanSeconds mark
  if 23 < hour || 59 < minute || 59 < second then failAt mark .timeOutOfRange
  return ⟨hour * 3600 + minute * 60 + second, nanos⟩

def startsWithGmt (text : List Char) : Bool :=
  Text.lowerAscii (text.take 3) == "gmt".toList

/-- Reads the minutes of an offset, if there are any. -/
def scanOffsetMinutes (mark : Nat) : Scan Nat := do
  if ← Scan.nextIs Text.isDigit then scanDigits mark 2 2 .offsetMinutes else return 0

def scanOffset (mark : Nat) (behind : Bool) : Scan UtcOffset := do
  let hours ← scanDigits mark 2 2 .offsetHours
  let _ ← Scan.accept ':'
  let minutes ← scanOffsetMinutes mark
  match UtcOffset.ofClock? behind hours minutes with
  | some offset => return offset
  | none => failAt mark .offsetOutOfRange

/-- Reads a zone: `Z`, `GMT` with or without a space in front, or a signed offset. -/
def scanZone? (mark : Nat) : Scan (Option UtcOffset) := do
  match (← get).ahead with
  | 'Z' :: _ | 'z' :: _ =>
    Scan.skip 1
    return some .utc
  | ' ' :: rest =>
    if startsWithGmt rest then
      Scan.skip 4
      return some .utc
    else return none
  | '+' :: digit :: _ | '-' :: digit :: _ =>
    if Text.isDigit digit then
      let behind ← Scan.accept '-'
      unless behind do Scan.skip 1
      return some (← scanOffset mark behind)
    else return none
  | text =>
    if startsWithGmt text then
      Scan.skip 3
      return some .utc
    else return none

/-- A time of day comes next: after `T`, or after one space when digits and a colon follow. -/
def clockAhead (cursor : Cursor) : Bool :=
  match cursor.ahead with
  | 'T' :: _ | 't' :: _ => true
  | ' ' :: rest =>
    let digits := ((rest.take 2).takeWhile Text.isDigit).length
    0 < digits && rest[digits]? == some ':'
  | _ => false

/-- Reads the time of day and the zone after a date. A date alone may still carry a `Z`. -/
def scanClockAndZone (mark : Nat) : Scan (ClockTime × Option UtcOffset) := do
  if clockAhead (← get) then
    Scan.skip 1
    let clock ← scanClock mark
    return (clock, ← scanZone? mark)
  else if ← Scan.nextIs fun c ↦ c == 'Z' || c == 'z' then return (midnight, ← scanZone? mark)
  else return (midnight, none)

/-- Reads a date and time. The local offset anchors a literal without a zone, unless it is one of
UTC, and is the offset the moment is shown in. -/
def scan (anchor : Anchor) (localOffset : UtcOffset) : Scan Moment := do
  let mark ← Scan.position
  let date ← scanDate mark
  let (clock, zone) ← scanClockAndZone mark
  unless ← Scan.atBoundary do
    let stray := (← Scan.peek).getD ' '
    Scan.skip 1
    failAt mark (.stray stray)
  let home := match anchor with
    | .local => localOffset
    | .utc => .utc
  return ofCivil anchor date clock.second clock.nanos (zone.getD home) home

end ResourceQuery.Moment
