import ResourceQuery.Text.Utf8

/-!
# Base64

Bytes as base64 with padding. Decoding is strict: the padding has to be complete, and the unused
bits of the last symbol have to be zero, so `decode` accepts only what `encode` writes. A fault
names a symbol by its byte and its offset in the UTF-8 form of the text.
-/

namespace ResourceQuery.Base64

inductive Fault where
  | symbol (byte offset : Nat)
  | length (count : Nat)
  | lastSymbol (byte offset : Nat)
  | padding
  deriving DecidableEq, Repr

def Fault.message : Fault → String
  | .symbol byte offset => s!"Invalid symbol {byte}, offset {offset}."
  | .length count => s!"Invalid input length: {count}"
  | .lastSymbol byte offset => s!"Invalid last symbol {byte}, offset {offset}."
  | .padding => "Invalid padding"

def pad : Nat := '='.toNat

def symbol (n : Nat) : Char :=
  if n < 26 then Char.ofNat ('A'.toNat + n)
  else if n < 52 then Char.ofNat ('a'.toNat + (n - 26))
  else if n < 62 then Char.ofNat ('0'.toNat + (n - 52))
  else if n = 62 then '+'
  else '/'

/-- The six bits that a byte stands for. -/
def symbolValue? (byte : Nat) : Option Nat :=
  if 65 ≤ byte && byte ≤ 90 then some (byte - 65)
  else if 97 ≤ byte && byte ≤ 122 then some (byte - 71)
  else if 48 ≤ byte && byte ≤ 57 then some (byte + 4)
  else if byte = 43 then some 62
  else if byte = 47 then some 63
  else none

def encode : List UInt8 → List Char
  | [] => []
  | [a] => [symbol (a.toNat / 4), symbol (a.toNat % 4 * 16), '=', '=']
  | [a, b] =>
    [symbol (a.toNat / 4), symbol (a.toNat % 4 * 16 + b.toNat / 16), symbol (b.toNat % 16 * 4), '=']
  | a :: b :: c :: rest =>
    symbol (a.toNat / 4) :: symbol (a.toNat % 4 * 16 + b.toNat / 16) ::
      symbol (b.toNat % 16 * 4 + c.toNat / 64) :: symbol (c.toNat % 64) :: encode rest

/-- The six bits of each of the symbols from `offset` on. -/
def values (offset : Nat) : List Nat → Except Fault (List Nat)
  | [] => .ok []
  | byte :: rest =>
    match symbolValue? byte with
    | none => .error (.symbol byte offset)
    | some value => (values (offset + 1) rest).map (value :: ·)

/-- The bytes of complete groups of four symbols. -/
def joinQuads : List Nat → List UInt8
  | a :: b :: c :: d :: rest =>
    UInt8.ofNat (a * 4 + b / 16) :: UInt8.ofNat (b % 16 * 16 + c / 4) ::
      UInt8.ofNat (c % 4 * 64 + d) :: joinQuads rest
  | _ => []

/-- The bytes of the last group, once its symbols are known to be valid. -/
def joinLast (offset last : Nat) : List Nat → Except Fault (List UInt8)
  | [a, b] =>
    if b % 16 = 0 then .ok [UInt8.ofNat (a * 4 + b / 16)]
    else .error (.lastSymbol last (offset + 1))
  | [a, b, c] =>
    if c % 4 = 0 then .ok [UInt8.ofNat (a * 4 + b / 16), UInt8.ofNat (b % 16 * 16 + c / 4)]
    else .error (.lastSymbol last (offset + 2))
  | quad => .ok (joinQuads quad)

/-- The last group: up to four symbols, of which the third and fourth may be padding. -/
def decodeLast (offset : Nat) (group : List Nat) : Except Fault (List UInt8) := do
  let symbols := group.takeWhile (· != pad)
  let known ← values offset symbols
  let padding := group.drop symbols.length
  if !padding.isEmpty && (symbols.length < 2 || padding.any (· != pad)) then
    throw (.symbol pad (offset + symbols.length))
  if symbols.length < 2 then throw (.length (offset + symbols.length))
  if group.length ≠ 4 then throw .padding
  joinLast offset (symbols.getLastD pad) known

def decodeBytes (bytes : List Nat) : Except Fault (List UInt8) := do
  if bytes.isEmpty then return []
  let last := bytes.getLastD pad
  if bytes.length % 4 = 1 && last ≠ pad && symbolValue? last = none then
    throw (.symbol last (bytes.length - 1))
  let offset := (bytes.length - 1) / 4 * 4
  let known ← values 0 (bytes.take offset)
  let tail ← decodeLast offset (bytes.drop offset)
  return joinQuads known ++ tail

def decode (text : List Char) : Except Fault (List UInt8) :=
  decodeBytes ((Text.Utf8.encode text).map UInt8.toNat)

end ResourceQuery.Base64
