import ResourceQuery.Number.Power
import ResourceQuery.Text.Digits

/-!
# Binary floating point

The finite numbers of a binary format, as a sign, a significand and the exponent of its last bit.
The canonical form makes the representation unique, so that two numbers are the same value exactly
when they have the same fields or are both zero. `ofDecimal?` rounds a decimal number to the
nearest of them, a half to the even significand, in exact arithmetic.
-/

namespace ResourceQuery

/-- A format: how many bits a significand has, and the exponents its last bit may have. -/
structure FloatFormat where
  precision : Nat
  lowest : Int
  highest : Int

namespace FloatFormat

def binary32 : FloatFormat := ⟨24, -149, 104⟩

def binary64 : FloatFormat := ⟨53, -1074, 971⟩

/-- The significand fills the format, unless the exponent is already the lowest. -/
def Canonical (format : FloatFormat) (significand : Nat) (exponent : Int) : Prop :=
  significand < twoTo format.precision ∧ format.lowest ≤ exponent ∧ exponent ≤ format.highest ∧
    (twoTo (format.precision - 1) ≤ significand ∨ exponent = format.lowest)

instance (format : FloatFormat) (significand : Nat) (exponent : Int) :
    Decidable (format.Canonical significand exponent) :=
  inferInstanceAs (Decidable (_ ∧ _))

end FloatFormat

structure FloatingPoint (format : FloatFormat) where
  negative : Bool
  significand : Nat
  exponent : Int
  canonical : format.Canonical significand exponent
  deriving DecidableEq

namespace FloatingPoint

variable {format : FloatFormat}

def isZero (x : FloatingPoint format) : Bool :=
  x.significand == 0

/-- Equality of the numbers: the two zeros are equal. -/
instance : BEq (FloatingPoint format) where
  beq x y := (x.isZero && y.isZero) || decide (x = y)

/-- `num / den / 2 ^ exponent` as a fraction. -/
def scaled (num den : Nat) (exponent : Int) : Nat × Nat :=
  if 0 ≤ exponent then (num, den * twoTo exponent.toNat) else (num * twoTo (-exponent).toNat, den)

def roundHalfEven (num den : Nat) : Nat :=
  let quotient := num / den
  let twice := 2 * (num % den)
  if den < twice || (twice == den && quotient % 2 == 1) then quotient + 1 else quotient

/-- The exponent at which the whole part of `num / den` fills the significand, or the lowest. -/
def exponentFor (format : FloatFormat) (num den : Nat) : Int :=
  let guess := max format.lowest ((num.log2 : Int) - den.log2 - format.precision)
  let (top, bottom) := scaled num den guess
  if top < bottom * twoTo format.precision then guess else guess + 1

/-- The significand and exponent nearest to `num / den`; the exponent may be above the format. Zero
has the lowest exponent, as its significand never fills the format. -/
def nearest (format : FloatFormat) (num den : Nat) : Nat × Int :=
  if num = 0 then (0, format.lowest)
  else
    let exponent := exponentFor format num den
    let (top, bottom) := scaled num den exponent
    let significand := roundHalfEven top bottom
    if significand = twoTo format.precision then (twoTo (format.precision - 1), exponent + 1)
    else (significand, exponent)

def ofParts? (negative : Bool) (significand : Nat) (exponent : Int) :
    Option (FloatingPoint format) :=
  if h : format.Canonical significand exponent then some ⟨negative, significand, exponent, h⟩
  else none

/-- The number nearest to `num / den`, unless that lies beyond the format. -/
def ofRatio? (negative : Bool) (num den : Nat) : Option (FloatingPoint format) :=
  let (significand, exponent) := nearest format num den
  ofParts? negative significand exponent

/-- The number nearest to `digits * 10 ^ exponent`, unless that lies beyond the format. A decimal
exponent far outside the format is settled by `10 ^ n ≥ 2 ^ (3 * n)` before any power is taken. -/
def ofDecimal? (negative : Bool) (digits : Nat) (exponent : Int) : Option (FloatingPoint format) :=
  let magnitude : Int := (Text.decimal digits).length + exponent
  if digits = 0 || 3 * magnitude < format.lowest then ofParts? negative 0 format.lowest
  else if format.highest + format.precision ≤ 3 * (magnitude - 1) then none
  else if 0 ≤ exponent then ofRatio? negative (digits * tenTo exponent.toNat) 1
  else ofRatio? negative digits (tenTo (-exponent).toNat)

end FloatingPoint

end ResourceQuery
