import ResourceQuery.Number.Power
import ResourceQuery.Text.Digits

/-!
# Integers of a fixed width

A query keeps the width and signedness an integer was written with. `SizedInteger` carries the proof
that the number is in the range of its type, `IntegerType.ofInt?` refuses a number outside it, and
`IntegerType.ofBits` reads a bit pattern, as two's complement for the signed types.
-/

namespace ResourceQuery

inductive IntegerType where
  | int8 | int16 | int32 | int64
  | uint8 | uint16 | uint32 | uint64
  deriving DecidableEq, Repr

namespace IntegerType

def name : IntegerType → String
  | int8 => "int8"
  | int16 => "int16"
  | int32 => "int32"
  | int64 => "int64"
  | uint8 => "uint8"
  | uint16 => "uint16"
  | uint32 => "uint32"
  | uint64 => "uint64"

def width : IntegerType → Nat
  | int8 | uint8 => 8
  | int16 | uint16 => 16
  | int32 | uint32 => 32
  | int64 | uint64 => 64

def isSigned : IntegerType → Bool
  | int8 | int16 | int32 | int64 => true
  | uint8 | uint16 | uint32 | uint64 => false

def lowest (type : IntegerType) : Int :=
  if type.isSigned then -twoTo (type.width - 1) else 0

def highest (type : IntegerType) : Int :=
  (if type.isSigned then twoTo (type.width - 1) else twoTo type.width) - 1

def Contains (type : IntegerType) (n : Int) : Prop :=
  type.lowest ≤ n ∧ n ≤ type.highest

instance (type : IntegerType) (n : Int) : Decidable (type.Contains n) :=
  inferInstanceAs (Decidable (_ ∧ _))

end IntegerType

structure SizedInteger where
  type : IntegerType
  value : Int
  contains : type.Contains value
  deriving DecidableEq

namespace IntegerType

def ofInt? (type : IntegerType) (n : Int) : Option SizedInteger :=
  if h : type.Contains n then some ⟨type, n, h⟩ else none

/-- The number congruent to `bits` modulo `2 ^ width` that the type can hold. -/
def wrap (type : IntegerType) (bits : Nat) : Int :=
  if type.isSigned then Int.bmod bits (twoTo type.width) else bits % twoTo type.width

theorem contains_wrap (type : IntegerType) (bits : Nat) : type.Contains (type.wrap bits) := by
  cases type <;> simp only [Contains, wrap, lowest, highest, isSigned, width] <;>
    simp [Int.bmod_def] <;> omega

def ofBits (type : IntegerType) (bits : Nat) : SizedInteger :=
  ⟨type, type.wrap bits, type.contains_wrap bits⟩

end IntegerType

end ResourceQuery
