import ResourceQuery.Number.FloatingPoint

/-!
# Shortest decimal text of a floating-point number

Of all decimal numbers that round back to a floating-point number, the text shows one with the
fewest digits, and of those the nearest. The search runs over the grids `10 ^ k` from coarse to
fine and tests on each the two points around the number; the first grid that has a point inside
the rounding interval holds the shortest decimals. Which point is taken when both are equally near
is left to the caller, as are the rules of layout: `plain` never writes an exponent.
-/

namespace ResourceQuery.FloatingPoint

variable {format : FloatFormat}

/-- Which of two equally near decimals is written. -/
inductive Tie where
  | away
  | even
  deriving DecidableEq, Repr

/-- The numbers that round to a floating-point number, in units of a quarter of its last bit. The
ends belong to the interval when `closed`. -/
structure Interval where
  low : Nat
  centre : Nat
  high : Nat
  closed : Bool

/-- Below a power of two the neighbouring numbers are twice as dense. -/
def interval (x : FloatingPoint format) : Interval :=
  let centre := 4 * x.significand
  let dense := x.significand = twoTo (format.precision - 1) && format.lowest < x.exponent
  ⟨centre - (if dense then 1 else 2), centre, centre + 2, x.significand % 2 == 0⟩

/-- One unit `2 ^ (exponent - 2)` on the grid `10 ^ k`, as a fraction. -/
def gridRatio (exponent k : Int) : Nat × Nat :=
  (twoTo (exponent - 2).toNat * tenTo (-k).toNat, twoTo (2 - exponent).toNat * tenTo k.toNat)

def Interval.holds (interval : Interval) (num den point : Nat) : Bool :=
  if interval.closed then
    interval.low * num ≤ point * den && point * den ≤ interval.high * num
  else interval.low * num < point * den && point * den < interval.high * num

/-- The upper of the two neighbours is the one to write, when both would do. -/
def prefersUpper (tie : Tie) (below above lower : Nat) : Bool :=
  above < below || (above == below && (tie == .away || lower % 2 == 1))

/-- The point of the grid `10 ^ k` that is written for the number, if one rounds back to it. -/
def gridPoint? (tie : Tie) (x : FloatingPoint format) (k : Int) : Option Nat :=
  let interval := x.interval
  let (num, den) := gridRatio x.exponent k
  let lower := interval.centre * num / den
  let below := interval.centre * num - lower * den
  let above := (lower + 1) * den - interval.centre * num
  match interval.holds num den lower, interval.holds num den (lower + 1) with
  | true, true => some (if prefersUpper tie below above lower then lower + 1 else lower)
  | true, false => some lower
  | false, true => some (lower + 1)
  | false, false => none

/-- The first hit on the grids `10 ^ k`, `10 ^ (k - 1)`, …, as digits and their exponent. -/
def searchGrids (tie : Tie) (x : FloatingPoint format) : (steps : Nat) → (k : Int) → Nat × Int
  | 0, k => (x.significand, k)
  | steps + 1, k =>
    match gridPoint? tie x k with
    | some point => (point, k)
    | none => searchGrids tie x steps (k - 1)

/-- The digits and decimal exponent of the shortest decimal. The search starts on a grid coarser
than the number and ends, within the precision of the format, on one finer than the interval. -/
def shortest (tie : Tie) (x : FloatingPoint format) : Nat × Int :=
  if x.isZero then (0, 0)
  else
    let bits : Int := (x.significand.log2 : Int) + 1 + x.exponent
    searchGrids tie x (format.precision + 8) (bits * 3 / 10 + 2)

def sign (x : FloatingPoint format) : List Char :=
  if x.negative then ['-'] else []

/-- The shortest decimal without an exponent, and without a point when it is whole. -/
def plain (x : FloatingPoint format) : List Char :=
  let (digits, exponent) := x.shortest .away
  x.sign ++ Text.decimalPlaces (-exponent).toNat (digits * tenTo exponent.toNat)

/-- The layout with an exponent for numbers whose first digit is at least `10 ^ 16` or below `10 ^
-5`, and otherwise with at least one digit after the point. -/
def scientific (x : FloatingPoint format) : List Char :=
  let (digits, exponent) := x.shortest .even
  let text := Text.decimal digits
  let leading := exponent + text.length - 1
  x.sign ++
    if -5 ≤ leading && leading ≤ 15 then
      if 0 ≤ exponent then Text.decimal (digits * tenTo exponent.toNat) ++ ['.', '0']
      else Text.decimalPlaces (-exponent).toNat digits
    else
      text.take 1 ++ (if text.length = 1 then [] else '.' :: text.drop 1) ++
        (if leading < 0 then ['e', '-'] else ['e', '+']) ++ Text.decimal leading.natAbs

end ResourceQuery.FloatingPoint
