import ResourceQuery.Literal.Scan

/-!
# Numerals

The written form of a decimal number: a sign, digits, a fraction, an exponent and the letters of a
suffix, each of them optional except that there is some digit. A numeral ends at a terminator or
at the end of the text; a run that goes on differently is no numeral, and the cursor stays where
that became clear.
-/

namespace ResourceQuery

/-- A power of ten, by its sign and digits. -/
structure Exponent where
  sign : Option Char
  digits : List Char
  deriving DecidableEq, Repr

structure Numeral where
  sign : Option Char
  whole : List Char
  /-- The digits after the point; none when there is no point. -/
  fraction : List Char
  exponent : Option Exponent
  suffix : List Char
  deriving DecidableEq, Repr

def isSign (c : Char) : Bool :=
  c == '+' || c == '-'

def Exponent.value (exponent : Exponent) : Int :=
  let magnitude : Int := Text.ofDigits exponent.digits
  if exponent.sign = some '-' then -magnitude else magnitude

namespace Numeral

def isNegative (numeral : Numeral) : Bool :=
  numeral.sign == some '-'

/-- A point or an exponent is written. -/
def isReal (numeral : Numeral) : Bool :=
  !numeral.fraction.isEmpty || numeral.exponent.isSome

/-- The number before the point. -/
def integer (numeral : Numeral) : Int :=
  let magnitude : Int := Text.ofDigits numeral.whole
  if numeral.isNegative then -magnitude else magnitude

/-- The decimal exponent of the last digit. -/
def lastPlace (numeral : Numeral) : Int :=
  (numeral.exponent.map Exponent.value).getD 0 - numeral.fraction.length

def isExponentMark (c : Char) : Bool :=
  c == 'e' || c == 'E'

def isSuffixLetter (c : Char) : Bool :=
  ['u', 'l', 'f', 'd', 'm'].contains c.toLower

/-- One letter, or both `u` and `l`. -/
def isSuffix (letters : List Char) : Bool :=
  letters.length ≤ 1 || ["ul".toList, "lu".toList].contains (Text.lowerAscii letters)

/-- A point and the digits after it; a point without a digit is left alone. -/
def scanFraction : Scan (List Char) := do
  if (← Scan.nextIs (· == '.')) && (← Scan.secondIs Text.isDigit) then
    Scan.skip 1
    Scan.readWhile Text.isDigit
  else return []

/-- An exponent, if a mark is followed by a digit or a sign. -/
def scanExponent : Scan (Option Exponent) := do
  if (← Scan.nextIs isExponentMark) && (← Scan.secondIs fun c ↦ Text.isDigit c || isSign c) then
    Scan.skip 1
    let sign ← Scan.readIf isSign
    let digits ← Scan.readWhile Text.isDigit
    return some ⟨sign, digits⟩
  else return none

/-- Reads a numeral; none, and no fault, when the run is not one. -/
def scan? : Scan (Option Numeral) := do
  let sign ← Scan.readIf isSign
  let whole ← Scan.readWhile Text.isDigit
  let fraction ← scanFraction
  if whole.isEmpty && fraction.isEmpty then return none
  let exponent ← scanExponent
  if exponent.any (·.digits.isEmpty) then return none
  let suffix ← Scan.readAtMost 2 isSuffixLetter
  if isSuffix suffix && (← Scan.atBoundary) then
    return some ⟨sign, whole, fraction, exponent, suffix⟩
  else return none

end Numeral

end ResourceQuery
