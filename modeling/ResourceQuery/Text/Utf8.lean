/-!
# UTF-8

Reads a sequence of bytes as UTF-8. A failure tells where the offending sequence starts and,
unless the bytes end inside it, how many of its bytes could still have begun a character.
-/

namespace ResourceQuery.Text.Utf8

inductive Fault where
  /-- No character starts with these `length` bytes. -/
  | invalid (start length : Nat)
  /-- The bytes end within a character. -/
  | incomplete (start : Nat)
  deriving DecidableEq, Repr

def Fault.message : Fault → String
  | .invalid start length => s!"invalid utf-8 sequence of {length} bytes from index {start}"
  | .incomplete start => s!"incomplete utf-8 byte sequence from index {start}"

/-- What a leading byte announces: how many bytes follow, the bounds of the first of them, and the
bits that it contributes itself. -/
structure Lead where
  tails : Nat
  low : Nat
  high : Nat
  bits : Nat

def lead? (byte : Nat) : Option Lead :=
  if byte < 0x80 then some ⟨0, 0x80, 0xBF, byte⟩
  else if byte < 0xC2 then none
  else if byte < 0xE0 then some ⟨1, 0x80, 0xBF, byte - 0xC0⟩
  else if byte == 0xE0 then some ⟨2, 0xA0, 0xBF, 0⟩
  else if byte == 0xED then some ⟨2, 0x80, 0x9F, 0xD⟩
  else if byte < 0xF0 then some ⟨2, 0x80, 0xBF, byte - 0xE0⟩
  else if byte == 0xF0 then some ⟨3, 0x90, 0xBF, 0⟩
  else if byte < 0xF4 then some ⟨3, 0x80, 0xBF, byte - 0xF0⟩
  else if byte == 0xF4 then some ⟨3, 0x80, 0x8F, 4⟩
  else none

/-- A character begun at `start`, of which `read` bytes are known and `owed` bytes are to come, the
next one between `low` and `high`. -/
structure Pending where
  start : Nat
  read : Nat
  owed : Nat
  low : Nat
  high : Nat
  bits : Nat

def decodeFrom (index : Nat) : Option Pending → List UInt8 → Except Fault (List Char)
  | none, [] => .ok []
  | some pending, [] => .error (.incomplete pending.start)
  | none, byte :: rest =>
    match lead? byte.toNat with
    | none => .error (.invalid index 1)
    | some ⟨0, _, _, bits⟩ => (decodeFrom (index + 1) none rest).map (Char.ofNat bits :: ·)
    | some ⟨tails, low, high, bits⟩ =>
      decodeFrom (index + 1) (some ⟨index, 1, tails, low, high, bits⟩) rest
  | some pending, byte :: rest =>
    if pending.low ≤ byte.toNat && byte.toNat ≤ pending.high then
      let bits := pending.bits * 64 + (byte.toNat - 0x80)
      if pending.owed ≤ 1 then (decodeFrom (index + 1) none rest).map (Char.ofNat bits :: ·)
      else decodeFrom (index + 1)
        (some ⟨pending.start, pending.read + 1, pending.owed - 1, 0x80, 0xBF, bits⟩) rest
    else .error (.invalid pending.start pending.read)

def decode (bytes : List UInt8) : Except Fault (List Char) :=
  decodeFrom 0 none bytes

def encode (text : List Char) : List UInt8 :=
  text.flatMap String.utf8EncodeChar

/-- How many bytes a text takes. -/
def size (text : List Char) : Nat :=
  (encode text).length

end ResourceQuery.Text.Utf8
