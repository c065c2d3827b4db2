import ResourceQuery.Number.Power
import ResourceQuery.Text.Digits

/-!
# Scaled decimals

A decimal number `coefficient / 10 ^ scale` whose coefficient has at most 96 bits and whose scale
is at most 28. The scale is kept as written, so `2.50` and `2.5` print differently, and equality
compares the numbers. Digits of a fraction that do not fit are rounded off at the first of them;
digits of a whole part that do not fit are refused.
-/

namespace ResourceQuery

structure ScaledDecimal where
  coefficient : Int
  scale : Nat
  coefficient_lt : coefficient.natAbs < twoTo 96
  scale_le : scale ≤ 28
  deriving DecidableEq

namespace ScaledDecimal

inductive Fault where
  | tooManyDigits
  | roundedOut
  | tooLarge
  | scaleTooLarge (scale : Nat)
  | unreadableExponent
  deriving DecidableEq, Repr

def Fault.message : Fault → String
  | .tooManyDigits => "Invalid decimal: overflow from too many digits"
  | .roundedOut => "Invalid decimal: overflow from mantissa after rounding"
  | .tooLarge => "Number exceeds maximum value that can be represented."
  | .scaleTooLarge scale => s!"Scale exceeds the maximum precision allowed: {scale} > 28"
  | .unreadableExponent => "Failed to parse"

instance : BEq ScaledDecimal where
  beq x y := x.coefficient * tenTo y.scale == y.coefficient * tenTo x.scale

def make (negative : Bool) (magnitude scale : Nat) : Except Fault ScaledDecimal :=
  if h : scale ≤ 28 then
    if hm : magnitude < twoTo 96 then
      .ok ⟨if negative then -magnitude else magnitude, scale, by split <;> simpa using hm, h⟩
    else .error .tooLarge
  else .error (.scaleTooLarge scale)

/-- Rounds a magnitude by the first digit that is left off. A magnitude that thereby outgrows 96
bits gives up one more place. -/
def roundOff (magnitude scale digit : Nat) : Except Fault (Nat × Nat) :=
  if digit < 5 then .ok (magnitude, scale)
  else if magnitude + 1 < twoTo 96 then .ok (magnitude + 1, scale)
  else if scale = 0 then .error .roundedOut
  else .ok ((magnitude + 5) / 10, scale - 1)

/-- Appends the digits of a fraction to a magnitude, as long as they fit. -/
def appendFraction (magnitude scale : Nat) : List Char → Except Fault (Nat × Nat)
  | [] => .ok (magnitude, scale)
  | c :: rest =>
    let next := 10 * magnitude + Text.digitValue c
    if 28 ≤ scale || twoTo 96 ≤ next then roundOff magnitude scale (Text.digitValue c)
    else appendFraction next (scale + 1) rest

/-- The decimal `whole.fraction`. -/
def ofDigits? (negative : Bool) (whole fraction : List Char) : Except Fault ScaledDecimal :=
  let magnitude := Text.ofDigits whole
  if twoTo 96 ≤ magnitude then .error .tooManyDigits
  else do
    let (magnitude, scale) ← appendFraction magnitude 0 fraction
    make negative magnitude scale

/-- The decimal times `10 ^ -exponent`, with all its digits kept. -/
def scaleDown (x : ScaledDecimal) (exponent : Nat) : Except Fault ScaledDecimal :=
  if 28 < exponent then .error (.scaleTooLarge exponent)
  else make (x.coefficient < 0) x.coefficient.natAbs (x.scale + exponent)

/-- The decimal times `10 ^ exponent`: the scale shrinks as far as it goes, then zeros are
appended. -/
def scaleUp (x : ScaledDecimal) (exponent : Nat) : Except Fault ScaledDecimal :=
  if exponent ≤ x.scale then make (x.coefficient < 0) x.coefficient.natAbs (x.scale - exponent)
  else if 28 < exponent then .error (.scaleTooLarge exponent)
  else make (x.coefficient < 0) (x.coefficient.natAbs * tenTo (exponent - x.scale)) 0

/-- The decimal times `10 ^ exponent`, the exponent given by its sign and digits. -/
def withExponent (x : ScaledDecimal) (negative : Bool) (digits : List Char) :
    Except Fault ScaledDecimal :=
  let exponent := Text.ofDigits digits
  if twoTo 32 ≤ exponent then .error .unreadableExponent
  else if negative then x.scaleDown exponent
  else x.scaleUp exponent

def print (x : ScaledDecimal) : List Char :=
  (if x.coefficient < 0 then ['-'] else []) ++ Text.decimalPlaces x.scale x.coefficient.natAbs

end ScaledDecimal

end ResourceQuery
