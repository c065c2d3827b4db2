import ResourceQuery.Literal.Scan
import ResourceQuery.Number.Power
import ResourceQuery.Time.Span

/-!
# Time span literals

Hours of one to nine digits, two digits of minutes and two of seconds, with colons between them,
after an optional sign. A fraction counts as far as nanoseconds.
-/

namespace ResourceQuery.TimeSpan

/-- Digits and a colon come next, possibly after a sign. -/
def ahead (cursor : Cursor) : Bool :=
  let signs := if cursor.peek.any fun c ↦ c == '+' || c == '-' then 1 else 0
  let rest := cursor.passOver signs
  let digits := rest.countAhead Text.isDigit
  0 < digits && rest.peekAt digits == some ':'

/-- The nanoseconds in the digits of a fraction of a second. -/
def nanosOfFraction (digits : List Char) : Nat :=
  let kept := digits.take 9
  Text.ofDigits kept * tenTo (9 - kept.length)

/-- Reads a point and digits as nanoseconds; a point without a digit is left alone. -/
def scanFraction : Scan Nat := do
  if (← Scan.nextIs (· == '.')) && (← Scan.secondIs Text.isDigit) then
    Scan.skip 1
    return nanosOfFraction (← Scan.readWhile Text.isDigit)
  else return 0

def scanTwoDigits (mark : Nat) (part : SpanPart) : Scan Nat := do
  let digits ← Scan.readAtMost 2 Text.isDigit
  if digits.length ≠ 2 then Scan.failFrom mark (.span · (.missing part))
  return Text.ofDigits digits

def scanColon (mark : Nat) (part : SpanPart) : Scan Unit := do
  unless ← Scan.accept ':' do Scan.failFrom mark (.span · (.missing part))

def scan : Scan TimeSpan := do
  let mark ← Scan.position
  let sign ← Scan.readIf fun c ↦ c == '+' || c == '-'
  let hours ← Scan.readAtMost 9 Text.isDigit
  if hours.isEmpty then Scan.failFrom mark (.span · (.missing .hours))
  scanColon mark .colon
  let minutes ← scanTwoDigits mark .minutes
  scanColon mark .secondColon
  let seconds ← scanTwoDigits mark .seconds
  let nanos ← scanFraction
  unless ← Scan.atBoundary do Scan.failFrom mark (.span · (.missing .stop))
  if 59 < minutes || 59 < seconds then Scan.failFrom mark (.span · .sixtyOrMore)
  return ofParts (sign == some '-') (Text.ofDigits hours) minutes seconds nanos

end ResourceQuery.TimeSpan
