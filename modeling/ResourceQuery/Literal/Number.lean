import ResourceQuery.Literal.Numeral
import ResourceQuery.Value

/-!
# Number literals

What a number literal means. A bare integer takes the first of int32, int64 and uint64 that holds
it, a suffix names the type, and a hexadecimal literal is a bit pattern whose width follows from
the number of its digits. After a type prefix the same notations are read without a suffix.
-/

namespace ResourceQuery

/-- The types that a numeric prefix can name. -/
inductive NumberType where
  | integer (type : IntegerType)
  | float
  | double
  | decimal
  deriving DecidableEq, Repr

def NumberType.name : NumberType → String
  | integer type => type.name
  | float => "float"
  | double => "double"
  | decimal => "decimal"

def NumberType.isInteger : NumberType → Bool
  | integer _ => true
  | _ => false

namespace Number

/-- The first of the types that holds the number. -/
def firstFitting? (types : List IntegerType) (n : Int) : Option Value :=
  (types.findSome? (·.ofInt? n)).map .integer

/-- An integer has to fit 128 bits before its type is looked at. -/
def integer? (numeral : Numeral) : Except NumberFault Int :=
  let n := numeral.integer
  if -twoTo 127 ≤ n ∧ n < twoTo 127 then .ok n else .error (.outOfRange "any integer type")

def asInteger (types : List IntegerType) (target : String) (numeral : Numeral) :
    Except NumberFault Value := do
  match firstFitting? types (← integer? numeral) with
  | some value => return value
  | none => throw (.outOfRange target)

def asFloating (format : FloatFormat) (target : String) (numeral : Numeral) :
    Except NumberFault (FloatingPoint format) :=
  let digits := Text.ofDigits (numeral.whole ++ numeral.fraction)
  match FloatingPoint.ofDecimal? numeral.isNegative digits numeral.lastPlace with
  | some x => .ok x
  | none => .error (.outOfRange target)

def asFloat (numeral : Numeral) : Except NumberFault Value :=
  (asFloating .binary32 "float" numeral).map .float

def asDouble (numeral : Numeral) : Except NumberFault Value :=
  (asFloating .binary64 "double" numeral).map .double

def decimal? (numeral : Numeral) : Except ScaledDecimal.Fault ScaledDecimal := do
  let base ← ScaledDecimal.ofDigits? numeral.isNegative numeral.whole numeral.fraction
  match numeral.exponent with
  | none => return base
  | some exponent => base.withExponent (exponent.sign == some '-') exponent.digits

def asDecimal (numeral : Numeral) : Except NumberFault Value :=
  match decimal? numeral with
  | .ok x => .ok (.decimal x)
  | .error fault => .error (.decimal fault)

/-- The value of a numeral by its suffix. -/
def ofNumeral (numeral : Numeral) : Except NumberFault Value :=
  match String.ofList (Text.lowerAscii numeral.suffix), numeral.isReal with
  | "", false => asInteger [.int32, .int64, .uint64] "any integer type" numeral
  | "", true | "d", _ => asDouble numeral
  | "f", _ => asFloat numeral
  | "m", _ => asDecimal numeral
  | "u", false => asInteger [.uint32, .uint64] "uint64" numeral
  | "l", false => asInteger [.int64] "int64" numeral
  | "ul", false | "lu", false => asInteger [.uint64] "uint64" numeral
  | suffix, _ => .error (.suffixNeedsInteger suffix)

/-- Reads a bare number; none when the run is not a number at all. -/
def scan? : Scan (Option Value) := do
  let mark ← Scan.position
  match ← Numeral.scan? with
  | none => return none
  | some numeral =>
    match ofNumeral numeral with
    | .ok value => return some value
    | .error fault => Scan.failFrom mark (.number · fault)

/-- The cursor stands on `0x`. -/
def hexAhead : Scan Bool := do
  return (← Scan.nextIs (· == '0')) && (← Scan.secondIs fun c ↦ c == 'x' || c == 'X')

/-- Reads `0x` and the digits after it, at most 16. -/
def scanHexDigits : Scan (List Char) := do
  let mark ← Scan.position
  Scan.skip 2
  let digits ← Scan.readWhile Text.isHexDigit
  if digits.isEmpty then Scan.failFrom mark (.number · .noHexDigits)
  if 16 < digits.length then Scan.failFrom mark (.number · .tooManyHexDigits)
  return digits

/-- The narrowest unsigned type that so many hexadecimal digits fill. -/
def hexType (digits : Nat) : IntegerType :=
  if digits ≤ 2 then .uint8
  else if digits ≤ 4 then .uint16
  else if digits ≤ 8 then .uint32
  else .uint64

/-- The type of a hexadecimal literal, by its suffix and its digits. -/
def hexTarget (suffix : List Char) (digits bits : Nat) : IntegerType :=
  match suffix with
  | [] => hexType digits
  | ['u'] => if bits < twoTo 32 then .uint32 else .uint64
  | ['l'] => .int64
  | _ => .uint64

/-- Reads a bare hexadecimal literal. -/
def scanHex : Scan Value := do
  let mark ← Scan.position
  let digits ← scanHexDigits
  let suffix ← Scan.readAtMost 2 fun c ↦ c.toLower == 'u' || c.toLower == 'l'
  unless (← Scan.atBoundary) && Numeral.isSuffix suffix do
    Scan.failFrom mark (.number · .hexTrailing)
  let bits := Text.ofHexDigits digits
  return .integer ((hexTarget (Text.lowerAscii suffix) digits.length bits).ofBits bits)

/-- The bits of a hexadecimal literal as a number of a type. -/
def ofHex (target : NumberType) (digits : List Char) : Except TypedNumberFault Value :=
  match target with
  | .integer type =>
    if type.width < 4 * digits.length then .error (.hexTooWide type.width)
    else .ok (.integer (type.ofBits (Text.ofHexDigits digits)))
  | _ => .error .hexNeedsInteger

/-- The value of a numeral without a suffix as a number of a type. -/
def ofTyped (target : NumberType) (numeral : Numeral) : Except NumberFault Value :=
  match target with
  | .integer type => asInteger [type] type.name numeral
  | .float => asFloat numeral
  | .double => asDouble numeral
  | .decimal => asDecimal numeral

def scanTypedHex (target : NumberType) : Scan Value := do
  let mark ← Scan.position
  let digits ← scanHexDigits
  unless ← Scan.atBoundary do Scan.failFrom mark (.typedNumber target.name · .hexTrailing)
  match ofHex target digits with
  | .ok value => return value
  | .error fault => Scan.failFrom mark (.typedNumber target.name · fault)

def scanTypedNumeral (target : NumberType) : Scan Value := do
  let mark ← Scan.position
  let some numeral := (← Numeral.scan?).filter (·.suffix.isEmpty)
    | Scan.failFrom mark (.typedNumber target.name · .notANumber)
  if numeral.isReal && target.isInteger then
    Scan.failFrom mark (.typedNumber target.name · .notAnInteger)
  match ofTyped target numeral with
  | .ok value => return value
  | .error fault => Scan.failFrom mark (.number · fault)

/-- Reads the number after a numeric type prefix. -/
def scanTyped (target : NumberType) : Scan Value := do
  if ← hexAhead then scanTypedHex target else scanTypedNumeral target

end Number

end ResourceQuery
