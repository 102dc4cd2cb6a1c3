import SymbolicMachine.Numeric.Binary
/-!
# Shortest decimal text of a floating-point number

A finite number is written with the fewest decimal digits that still read back as that number,
and among those with the digits nearest to it.  The text is always positional: there is no
exponent, and no point unless a digit follows it.  All arithmetic is exact.
-/
namespace SymbolicMachine

/-- The decimal number `digits * 10 ^ exponent`. -/
structure Decimal where
  digits : Nat
  exponent : Int
  deriving DecidableEq, Repr

namespace Decimal

/-- The positive reals that are rounded to one floating-point number, all three of them over
the same denominator. -/
structure Interval where
  value : Nat
  low : Nat
  high : Nat
  den : Nat
  /-- Whether the ends belong to the interval. -/
  closed : Bool

/-- The reals that are rounded to `mantissa * 2 ^ exponent`: half a unit to each side, except
that the unit below a power of two is half as wide.  The ends are ties, and a tie goes to the
even mantissa. -/
def Interval.around (f : FloatFormat) (mantissa : Nat) (exponent : Int) : Interval :=
  let below := if mantissa = 2 ^ f.fractionBits && f.minExponent < exponent then 1 else 2
  let (unit, den) := Numeric.scale 1 1 (exponent - 2)
  { value := 4 * mantissa * unit
    low := (4 * mantissa - below) * unit
    high := (4 * mantissa + 2) * unit
    den := den
    closed := mantissa % 2 == 0 }

/-- The number of decimal digits of a positive integer, and zero for zero. -/
def digitCount (n : Nat) : Nat := if n = 0 then 0 else (Nat.toDigits 10 n).length

/-- The greatest `k` with `10 ^ k ≤ num / den`, for positive arguments. -/
def log10Ratio (num den : Nat) : Int :=
  if den ≤ num then (digitCount (num / den) : Int) - 1
  else -(digitCount ((den - 1) / num) : Int)

/-- Scales a fraction by a power of ten, keeping both parts integers. -/
def scale10 (num den : Nat) (exponent : Int) : Nat × Nat :=
  if 0 ≤ exponent then (num * 10 ^ exponent.toNat, den)
  else (num, den * 10 ^ (-exponent).toNat)

/-- Whether `digits * 10 ^ exponent` lies in the interval. -/
def Interval.holds (i : Interval) (digits : Nat) (exponent : Int) : Bool :=
  let (num, den) := scale10 digits 1 exponent
  let x := num * i.den
  if i.closed then i.low * den ≤ x && x ≤ i.high * den
  else i.low * den < x && x < i.high * den

/-- The point of the decimal grid with the given exponent that lies in the interval, if there
is one.  Of the value's two neighbours the nearer is taken, and from a tie the upper. -/
def Interval.onGrid? (i : Interval) (exponent : Int) : Option Decimal :=
  let (num, den) := scale10 i.value i.den (-exponent)
  let floor := num / den
  let rest := num % den
  let down := i.holds floor exponent
  let up := i.holds (floor + 1) exponent
  if up && (!down || den ≤ 2 * rest) then some ⟨floor + 1, exponent⟩
  else if down then some ⟨floor, exponent⟩
  else none

/-- Tries `count` grids, each ten times finer than the one before. -/
def Interval.search (i : Interval) : Nat → Int → Decimal
  | 0, exponent =>
    let (num, den) := scale10 i.value i.den (-exponent)
    ⟨num / den, exponent⟩
  | count + 1, exponent =>
    match i.onGrid? exponent with
    | some d => d
    | none => i.search count (exponent - 1)

/-- No format in use here needs more than this many digits to read back. -/
def maxDigits : Nat := 17

/-- The shortest decimal that reads back as `mantissa * 2 ^ exponent`, for a positive
mantissa. -/
def shortest (f : FloatFormat) (mantissa : Nat) (exponent : Int) : Decimal :=
  let i := Interval.around f mantissa exponent
  i.search maxDigits (log10Ratio i.value i.den)

/-- Drops trailing zeros of the digits, at most `fuel` of them. -/
def strip : Nat → Decimal → Decimal
  | 0, d => d
  | fuel + 1, d =>
    if d.digits ≠ 0 ∧ d.digits % 10 = 0 then strip fuel ⟨d.digits / 10, d.exponent + 1⟩ else d

def text (d : Decimal) : List Char :=
  let d := strip maxDigits d
  let digits := Nat.toDigits 10 d.digits
  if 0 ≤ d.exponent then digits ++ List.replicate d.exponent.toNat '0'
  else
    let places := (-d.exponent).toNat
    if places < digits.length then
      digits.take (digits.length - places) ++ '.' :: digits.drop (digits.length - places)
    else ['0', '.'] ++ List.replicate (places - digits.length) '0' ++ digits

end Decimal

namespace Binary

variable {f : FloatFormat}

/-- The text of a number: its shortest decimal, with a minus sign if the sign bit is set. -/
def text (b : Binary f) : String :=
  match b.unpack with
  | .nan => "NaN"
  | .infinite negative => if negative then "-inf" else "inf"
  | .finite negative mantissa exponent =>
    let digits := if mantissa = 0 then ['0'] else (Decimal.shortest f mantissa exponent).text
    String.ofList (if negative then '-' :: digits else digits)

end Binary

end SymbolicMachine
