/-!
# Binary floating-point numbers

Floating-point numbers in the binary interchange formats, as bit patterns with an exact
reading in integers.  A finite pattern denotes `± mantissa * 2 ^ exponent`; `roundRatio` goes
the other way and is the only place where precision is lost, always to the nearest number and
from a tie to the even one.  Equality of `Binary` is equality of patterns, so that a number
that is not a number equals itself and the two zeros differ; comparison by value is
`Binary.compare?`.
-/
namespace SymbolicMachine

-- A power means the built-in one here, also in files that import other instances of `Pow`.
instance (priority := 2000) builtInPow {α : Type} [NatPow α] : Pow α Nat := instPowNat

/-- A binary interchange format, given by the sizes of its two numeric fields. -/
structure FloatFormat where
  fractionBits : Nat
  exponentBits : Nat
  deriving DecidableEq, Repr

namespace FloatFormat

def single : FloatFormat := ⟨23, 8⟩

def double : FloatFormat := ⟨52, 11⟩

def width (f : FloatFormat) : Nat := f.exponentBits + f.fractionBits + 1

/-- The exponent of the unit in which the smallest numbers are counted. -/
def minExponent (f : FloatFormat) : Int := 2 - 2 ^ (f.exponentBits - 1) - f.fractionBits

def infinityMagnitude (f : FloatFormat) : Nat := (2 ^ f.exponentBits - 1) * 2 ^ f.fractionBits

end FloatFormat

/-- A floating-point number of format `f`, as its bit pattern. -/
structure Binary (f : FloatFormat) where
  /-- The sign bit, the exponent field and the fraction field, from high to low. -/
  bits : BitVec f.width
  deriving DecidableEq

/-- The reading of a bit pattern. -/
inductive Unpacked where
  /-- The number `mantissa * 2 ^ exponent`, negated if `negative`. -/
  | finite (negative : Bool) (mantissa : Nat) (exponent : Int)
  | infinite (negative : Bool)
  | nan
  deriving DecidableEq

namespace Numeric

/-- Scales a fraction by a power of two, keeping both parts integers. -/
def scale (num den : Nat) (exponent : Int) : Nat × Nat :=
  if 0 ≤ exponent then (num * 2 ^ exponent.toNat, den) else (num, den * 2 ^ (-exponent).toNat)

/-- The quotient rounded to the nearest integer, from a tie to the even one. -/
def roundDiv (num den : Nat) : Nat :=
  let q := num / den
  let r := num % den
  if 2 * r > den || (2 * r == den && q % 2 == 1) then q + 1 else q

/-- The greatest `k` with `2 ^ k ≤ num / den`, for positive arguments. -/
def log2Ratio (num den : Nat) : Int :=
  let guess : Int := (Nat.log2 num : Int) - Nat.log2 den
  let (n, d) := scale num den (-guess)
  if n < d then guess - 1 else guess

end Numeric

namespace Binary

variable {f : FloatFormat}

def isNegative (b : Binary f) : Bool := b.bits.msb

/-- The pattern without its sign bit, as a number. -/
def magnitude (b : Binary f) : Nat := b.bits.toNat % 2 ^ (f.exponentBits + f.fractionBits)

/-- The number with the given sign bit and magnitude field. -/
def ofMagnitude (f : FloatFormat) (negative : Bool) (magnitude : Nat) : Binary f :=
  let sign := if negative then 2 ^ (f.exponentBits + f.fractionBits) else 0
  ⟨BitVec.ofNat f.width (sign + magnitude)⟩

/-- The zero without a sign. -/
def zero (f : FloatFormat) : Binary f := ofMagnitude f false 0

def infinity (f : FloatFormat) (negative : Bool) : Binary f :=
  ofMagnitude f negative f.infinityMagnitude

/-- The quiet pattern that an operation without a result produces; its sign bit is set. -/
def invalid (f : FloatFormat) : Binary f :=
  ofMagnitude f true (f.infinityMagnitude + 2 ^ (f.fractionBits - 1))

def unpack (b : Binary f) : Unpacked :=
  let fraction := b.magnitude % 2 ^ f.fractionBits
  let exponent := b.magnitude / 2 ^ f.fractionBits
  if exponent = 2 ^ f.exponentBits - 1 then
    if fraction = 0 then .infinite b.isNegative else .nan
  else if exponent = 0 then .finite b.isNegative fraction f.minExponent
  else .finite b.isNegative (fraction + 2 ^ f.fractionBits) (f.minExponent + exponent - 1)

def isNaN (b : Binary f) : Bool := b.unpack == .nan

/-- The magnitude field of the number nearest to the fraction `num / den`.  From a tie it is
the even one, and past the greatest finite number it is infinity. -/
def roundRatio (f : FloatFormat) (num den : Nat) : Nat :=
  if num = 0 then 0
  else
    let unit := max f.minExponent (Numeric.log2Ratio num den - f.fractionBits)
    let (n, d) := Numeric.scale num den (-unit)
    min f.infinityMagnitude
      ((unit - f.minExponent).toNat * 2 ^ f.fractionBits + Numeric.roundDiv n d)

/-- The number nearest to `± num / den`. -/
def ofRatio (f : FloatFormat) (negative : Bool) (num den : Nat) : Binary f :=
  ofMagnitude f negative (roundRatio f num den)

/-- The number nearest to `± mantissa * 2 ^ exponent`. -/
def ofScaled (f : FloatFormat) (negative : Bool) (mantissa : Nat) (exponent : Int) : Binary f :=
  let (num, den) := Numeric.scale mantissa 1 exponent
  ofRatio f negative num den

/-- The number nearest to an integer. -/
def ofInt (f : FloatFormat) (n : Int) : Binary f := ofRatio f (decide (n < 0)) n.natAbs 1

def neg (b : Binary f) : Binary f := ofMagnitude f (!b.isNegative) b.magnitude

/-- Sets the bit that marks a quiet pattern, for one that is not a number. -/
def quiet (b : Binary f) : Binary f :=
  let bit := 2 ^ (f.fractionBits - 1)
  if b.magnitude / bit % 2 = 1 then b else ofMagnitude f b.isNegative (b.magnitude + bit)

/-- The number of format `g` nearest to `b`.  A pattern that is not a number keeps its sign
and as much of its fraction as fits. -/
def toFormat (g : FloatFormat) (b : Binary f) : Binary g :=
  match b.unpack with
  | .finite negative mantissa exponent => ofScaled g negative mantissa exponent
  | .infinite negative => infinity g negative
  | .nan =>
    let fraction := b.magnitude % 2 ^ f.fractionBits
    let kept := fraction * 2 ^ g.fractionBits / 2 ^ f.fractionBits
    (ofMagnitude g b.isNegative (g.infinityMagnitude + kept)).quiet

/-- Truncates toward zero and then moves into the range from `low` to `high`; what is not a
number becomes zero. -/
def toIntWithin (low high : Int) (b : Binary f) : Int :=
  match b.unpack with
  | .finite negative mantissa exponent =>
    let (num, den) := Numeric.scale mantissa 1 exponent
    let size : Int := (num / den : Nat)
    max low (min high (if negative then -size else size))
  | .infinite negative => if negative then low else high
  | .nan => 0

/-- A signed mantissa brought to the unit `2 ^ unit`, which is not above its own. -/
def aligned (negative : Bool) (mantissa : Nat) (exponent unit : Int) : Int :=
  let size : Int := mantissa * 2 ^ (exponent - unit).toNat
  if negative then -size else size

/-- The order of two numbers by value, unless one of them is not a number.  The two zeros
are equal. -/
def compare? (a b : Binary f) : Option Ordering :=
  match a.unpack, b.unpack with
  | .nan, _ => none
  | _, .nan => none
  | .infinite s, .infinite t => some (if s = t then .eq else if s then .lt else .gt)
  | .infinite s, .finite .. => some (if s then .lt else .gt)
  | .finite .., .infinite t => some (if t then .gt else .lt)
  | .finite s m e, .finite t n d =>
    let unit := min e d
    some (compare (aligned s m e unit) (aligned t n d unit))

/-- The exact sum of two finite numbers, rounded.  A zero sum is negative only if both
operands are. -/
def addFinite (f : FloatFormat) (s : Bool) (m : Nat) (e : Int) (t : Bool) (n : Nat) (d : Int) :
    Binary f :=
  let unit := min e d
  let sum := aligned s m e unit + aligned t n d unit
  ofScaled f (if sum = 0 then s && t else decide (sum < 0)) sum.natAbs unit

def addNumbers (a b : Binary f) : Binary f :=
  match a.unpack, b.unpack with
  | .infinite s, .infinite t => if s = t then a else invalid f
  | .infinite _, _ => a
  | _, .infinite _ => b
  | .finite s m e, .finite t n d => addFinite f s m e t n d
  | _, _ => invalid f

def mulNumbers (a b : Binary f) : Binary f :=
  let negative := a.isNegative != b.isNegative
  match a.unpack, b.unpack with
  | .infinite _, .infinite _ => infinity f negative
  | .infinite _, .finite _ n _ => if n = 0 then invalid f else infinity f negative
  | .finite _ m _, .infinite _ => if m = 0 then invalid f else infinity f negative
  | .finite _ m e, .finite _ n d => ofScaled f negative (m * n) (e + d)
  | _, _ => invalid f

def divNumbers (a b : Binary f) : Binary f :=
  let negative := a.isNegative != b.isNegative
  match a.unpack, b.unpack with
  | .infinite _, .infinite _ => invalid f
  | .infinite _, _ => infinity f negative
  | .finite .., .infinite _ => ofMagnitude f negative 0
  | .finite _ m e, .finite _ n d =>
    if n = 0 then (if m = 0 then invalid f else infinity f negative)
    else
      let (num, den) := Numeric.scale m n (e - d)
      ofRatio f negative num den
  | _, _ => invalid f

/-- The remainder of the division that truncates toward zero, of two patterns that are both
numbers.  It is exact and has the sign of the dividend. -/
def remNumbers (a b : Binary f) : Binary f :=
  match a.unpack, b.unpack with
  | .infinite _, _ => invalid f
  | .finite .., .infinite _ => a
  | .finite s m e, .finite _ n d =>
    if n = 0 then invalid f
    else
      let unit := min e d
      let dividend := m * 2 ^ (e - unit).toNat
      let divisor := n * 2 ^ (d - unit).toNat
      ofScaled f s (dividend % divisor) unit
  | _, _ => invalid f

/-- Applies an operation on numbers; an operand that is not a number is the result, the first
one before the second. -/
def onNumbers (operation : Binary f → Binary f → Binary f) (a b : Binary f) : Binary f :=
  if a.isNaN then a.quiet else if b.isNaN then b.quiet else operation a b

def add : Binary f → Binary f → Binary f := onNumbers addNumbers

def sub : Binary f → Binary f → Binary f := onNumbers fun a b => addNumbers a b.neg

def mul : Binary f → Binary f → Binary f := onNumbers mulNumbers

def div : Binary f → Binary f → Binary f := onNumbers divNumbers

def rem : Binary f → Binary f → Binary f := onNumbers remNumbers

end Binary

end SymbolicMachine
