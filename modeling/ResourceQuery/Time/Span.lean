import ResourceQuery.Text.Digits

/-!
# Time spans

A signed length of time in nanoseconds, written as hours, minutes and seconds. The fraction of the
seconds is written without trailing zeros, and not at all when it is zero.
-/

namespace ResourceQuery

structure TimeSpan where
  nanoseconds : Int
  deriving DecidableEq, Repr

namespace TimeSpan

def nanosPerSecond : Nat := 1000000000

def ofParts (negative : Bool) (hours minutes seconds nanos : Nat) : TimeSpan :=
  let length : Int := (hours * 3600 + minutes * 60 + seconds) * nanosPerSecond + nanos
  ⟨if negative then -length else length⟩

def printFraction (nanos : Nat) : List Char :=
  if nanos = 0 then []
  else '.' :: ((Text.decimalPadded 9 nanos).reverse.dropWhile (· == '0')).reverse

def print (span : TimeSpan) : List Char :=
  let seconds := span.nanoseconds.natAbs / nanosPerSecond
  (if span.nanoseconds < 0 then ['-'] else []) ++ Text.decimal (seconds / 3600) ++
    ':' :: Text.decimalPadded 2 (seconds / 60 % 60) ++ ':' :: Text.decimalPadded 2 (seconds % 60) ++
    printFraction (span.nanoseconds.natAbs % nanosPerSecond)

end TimeSpan

end ResourceQuery
