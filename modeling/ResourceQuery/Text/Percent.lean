import ResourceQuery.Text.Digits
import ResourceQuery.Text.Utf8

/-!
# Percent-decoding

A percent sign in front of two hexadecimal digits stands for the byte they name; every other
character, a percent sign included, stands for its own UTF-8 bytes. The bytes together have to be
UTF-8.
-/

namespace ResourceQuery.Text.Percent

def bytes : List Char → List UInt8
  | [] => []
  | '%' :: high :: low :: rest =>
    if isHexDigit high && isHexDigit low then
      UInt8.ofNat (16 * hexValue high + hexValue low) :: bytes rest
    else String.utf8EncodeChar '%' ++ bytes (high :: low :: rest)
  | c :: rest => String.utf8EncodeChar c ++ bytes rest

/-- The decoded text. One without a percent sign stands for itself. -/
def decode (text : List Char) : Except Utf8.Fault (List Char) :=
  if text.contains '%' then Utf8.decode (bytes text) else .ok text

theorem decode_eq_self {text : List Char} (h : '%' ∉ text) : decode text = .ok text := by
  simp [decode, h]

end ResourceQuery.Text.Percent
