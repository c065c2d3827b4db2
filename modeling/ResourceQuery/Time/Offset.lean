import ResourceQuery.Text.Blank
import ResourceQuery.Text.Case
import ResourceQuery.Text.Digits

/-!
# Offsets from UTC

How far local time is ahead of UTC, always by less than a day. `read?` is the reading of an offset
that is given as an option: a sign and two digits of hours, any colons and blanks, and two digits
of minutes; whatever follows is ignored.
-/

namespace ResourceQuery

structure UtcOffset where
  seconds : Int
  lt_day : -86400 < seconds ∧ seconds < 86400
  deriving DecidableEq

namespace UtcOffset

def utc : UtcOffset := ⟨0, by decide⟩

def ofSeconds? (seconds : Int) : Option UtcOffset :=
  if h : -86400 < seconds ∧ seconds < 86400 then some ⟨seconds, h⟩ else none

/-- The offset of so many hours and minutes, ahead of UTC or behind it. -/
def ofClock? (behind : Bool) (hours minutes : Nat) : Option UtcOffset :=
  let seconds : Int := hours * 3600 + minutes * 60
  ofSeconds? (if behind then -seconds else seconds)

def behind? : Char → Option Bool
  | '+' => some false
  | '-' | '−' => some true
  | _ => none

def readClock? (behind : Bool) : List Char → Option UtcOffset
  | tens :: ones :: rest =>
    match rest.dropWhile fun c ↦ c == ':' || Text.isBlank c with
    | minuteTens :: minuteOnes :: _ =>
      if [tens, ones, minuteTens, minuteOnes].all Text.isDigit &&
          Text.digitValue minuteTens < 6 then
        ofClock? behind (Text.ofDigits [tens, ones]) (Text.ofDigits [minuteTens, minuteOnes])
      else none
    | _ => none
  | _ => none

/-- The offset that an option names, by a sign and a clock reading or as `Z` or `UTC` in any case.
-/
def read? (text : List Char) : Option UtcOffset :=
  if ["z".toList, "utc".toList].contains (Text.lowerAscii text) then some utc
  else match text with
    | sign :: rest => (behind? sign).bind fun behind ↦ readClock? behind rest
    | [] => none

/-- `+HH:MM`, to the nearest minute, and half a minute away from zero. -/
def print (offset : UtcOffset) : List Char :=
  let minutes := (offset.seconds.natAbs + 30) / 60
  (if offset.seconds < 0 then '-' else '+') :: Text.decimalPadded 2 (minutes / 60) ++
    ':' :: Text.decimalPadded 2 (minutes % 60)

end UtcOffset

end ResourceQuery
