/-!
# Digit strings

Natural numbers and integers as strings of decimal digits, and codes as hexadecimal strings of a
fixed width. `ofDigits_decimal` says that the decimal string of a number has that number as its
value.
-/

namespace ResourceQuery.Text

/-- The ten ASCII digits, and no other digit of Unicode. -/
def isDigit (c : Char) : Bool :=
  '0' ≤ c && c ≤ '9'

def isHexDigit (c : Char) : Bool :=
  isDigit c || ('a' ≤ c && c ≤ 'f') || ('A' ≤ c && c ≤ 'F')

def isLetter (c : Char) : Bool :=
  ('a' ≤ c && c ≤ 'z') || ('A' ≤ c && c ≤ 'Z')

def digitValue (c : Char) : Nat :=
  c.toNat - '0'.toNat

/-- The value of a hexadecimal digit, in either case. -/
def hexValue (c : Char) : Nat :=
  if isDigit c then digitValue c
  else if 'a' ≤ c then c.toNat - 'a'.toNat + 10
  else c.toNat - 'A'.toNat + 10

def ofDigits (digits : List Char) : Nat :=
  digits.foldl (fun value c ↦ 10 * value + digitValue c) 0

def ofHexDigits (digits : List Char) : Nat :=
  digits.foldl (fun value c ↦ 16 * value + hexValue c) 0

/-- The decimal digits of a number, without leading zeros. -/
def decimal (n : Nat) : List Char :=
  if n < 10 then [n.digitChar] else decimal (n / 10) ++ [(n % 10).digitChar]

def decimalInt (n : Int) : List Char :=
  if n < 0 then '-' :: decimal n.natAbs else decimal n.natAbs

def padStart (width : Nat) (fill : Char) (text : List Char) : List Char :=
  List.replicate (width - text.length) fill ++ text

def decimalPadded (width n : Nat) : List Char :=
  padStart width '0' (decimal n)

/-- The number `n / 10 ^ places`, written with exactly that many digits after the point and with no
point when there are none. -/
def decimalPlaces (places n : Nat) : List Char :=
  let digits := decimalPadded (places + 1) n
  let whole := digits.length - places
  if places = 0 then digits else digits.take whole ++ '.' :: digits.drop whole

/-- The last `width` hexadecimal digits of a number, in lower case. -/
def hexadecimal : (width n : Nat) → List Char
  | 0, _ => []
  | width + 1, n => hexadecimal width (n / 16) ++ [(n % 16).digitChar]

theorem digitValue_digitChar {n : Nat} (h : n < 10) : digitValue n.digitChar = n := by
  match n, h with
  | 0, _ | 1, _ | 2, _ | 3, _ | 4, _ | 5, _ | 6, _ | 7, _ | 8, _ | 9, _ => decide
  | n + 10, h => omega

theorem ofDigits_append_singleton (digits : List Char) (c : Char) :
    ofDigits (digits ++ [c]) = 10 * ofDigits digits + digitValue c := by
  simp [ofDigits]

theorem ofDigits_decimal (n : Nat) : ofDigits (decimal n) = n := by
  induction n using Nat.strongRecOn with
  | ind n ih =>
    unfold decimal
    split
    · next h => simpa [ofDigits] using digitValue_digitChar h
    · next h =>
      rw [ofDigits_append_singleton, ih (n / 10) (by omega),
        digitValue_digitChar (Nat.mod_lt n (by omega))]
      omega

theorem length_hexadecimal (width n : Nat) : (hexadecimal width n).length = width := by
  induction width generalizing n with
  | zero => rfl
  | succ width ih => simp [hexadecimal, ih]

end ResourceQuery.Text
