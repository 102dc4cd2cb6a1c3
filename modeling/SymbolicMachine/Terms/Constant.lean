import SymbolicMachine.Numeric.Decimal
import SymbolicMachine.Types.PrimType
import SymbolicMachine.Types.ValueError
/-!
# Constants

The concrete primitive values.  Integers have the width of their type and wrap; floating-point
numbers are bit patterns, so equality of constants is equality of patterns.  `convert` is the
conversion between primitive types: integers truncate or extend, floating-point numbers
saturate on the way to integers, and a boolean converts to `int` only.
-/
namespace SymbolicMachine

/-- A concrete primitive value. -/
inductive Constant where
  | boolean (value : Bool)
  | byte (value : Int8)
  | char (value : UInt16)
  | short (value : Int16)
  | int (value : Int32)
  | long (value : Int64)
  | float (value : Binary .single)
  | double (value : Binary .double)
  deriving DecidableEq

namespace Constant

def type : Constant → PrimType
  | boolean _ => .boolean
  | byte _ => .byte
  | char _ => .char
  | short _ => .short
  | int _ => .int
  | long _ => .long
  | float _ => .float
  | double _ => .double

/-- The zero of a type, which is `false` for `boolean`. -/
def zero : PrimType → Constant
  | .boolean => boolean false
  | .byte => byte 0
  | .char => char 0
  | .short => short 0
  | .int => int 0
  | .long => long 0
  | .float => float (Binary.zero .single)
  | .double => double (Binary.zero .double)

@[simp] theorem type_zero (t : PrimType) : (zero t).type = t := by cases t <;> rfl

def toBool? : Constant → Option Bool
  | boolean b => some b
  | _ => none

/-- The value of an integer of any width, as a 64-bit integer. -/
def toInt64? : Constant → Option Int64
  | byte n => some n.toInt64
  | char n => some n.toUInt64.toInt64
  | short n => some n.toInt64
  | int n => some n.toInt64
  | long n => some n
  | _ => none

/-- The value of a numeric constant in the 64-bit format; only a long can be rounded. -/
def toDouble? : Constant → Option (Binary .double)
  | float x => some (x.toFormat .double)
  | double x => some x
  | c => c.toInt64?.map fun n => Binary.ofInt .double n.toInt

/-- An integer cut down to an integral type, or rounded to a floating-point type.  An integer
reaches the 32-bit format by way of the 64-bit one. -/
def ofInt64 (target : PrimType) (n : Int64) : Constant :=
  match target with
  | .boolean => boolean (n != 0)
  | .byte => byte n.toInt8
  | .char => char n.toUInt64.toUInt16
  | .short => short n.toInt16
  | .int => int n.toInt32
  | .long => long n
  | .float => float ((Binary.ofInt .double n.toInt).toFormat .single)
  | .double => double (Binary.ofInt .double n.toInt)

/-- A floating-point number truncated to a 32-bit integer, at most the extreme ones. -/
def saturateInt (x : Binary .double) : Int32 :=
  Int32.ofInt (x.toIntWithin Int32.minValue.toInt Int32.maxValue.toInt)

/-- A floating-point number truncated to a 64-bit integer, at most the extreme ones. -/
def saturateLong (x : Binary .double) : Int64 :=
  Int64.ofInt (x.toIntWithin Int64.minValue.toInt Int64.maxValue.toInt)

/-- A floating-point number brought to another type.  Types narrower than `int` take the low
bits of the saturated 32-bit integer. -/
def ofDouble (target : PrimType) (x : Binary .double) : Constant :=
  match target with
  | .boolean => boolean (saturateInt x != 0)
  | .byte => byte (saturateInt x).toInt8
  | .char => char (saturateInt x).toUInt32.toUInt16
  | .short => short (saturateInt x).toInt16
  | .int => int (saturateInt x)
  | .long => long (saturateLong x)
  | .float => float (x.toFormat .single)
  | .double => double x

@[simp] theorem type_ofInt64 (t : PrimType) (n : Int64) : (ofInt64 t n).type = t := by
  cases t <;> rfl

@[simp] theorem type_ofDouble (t : PrimType) (x : Binary .double) : (ofDouble t x).type = t := by
  cases t <;> rfl

def noConversion (source target : PrimType) : ValueError :=
  .invalidConversion source.name target.name

/-- Converts a constant to another type.  A boolean converts to `int` only, and nothing else
converts to `boolean`. -/
def convert (c : Constant) (target : PrimType) : Except ValueError Constant :=
  if c.type = target then .ok c
  else
    match c with
    | boolean b =>
      if target = .int then .ok (int (if b then 1 else 0))
      else .error (noConversion c.type target)
    | _ =>
      if target = .boolean then .error (noConversion c.type target)
      else
        match c.toInt64? with
        | some n => .ok (ofInt64 target n)
        | none => .ok (ofDouble target (c.toDouble?.getD (Binary.zero .double)))

/-- A conversion that succeeds gives a constant of the wanted type. -/
theorem type_convert {c d : Constant} {t : PrimType} (h : c.convert t = .ok d) : d.type = t := by
  unfold convert at h
  split at h
  · rename_i hc
    cases h
    exact hc
  · split at h
    · split at h
      · rename_i ht
        cases h
        exact ht.symm
      · cases h
    · split at h
      · cases h
      · split at h <;> cases h <;> simp

/-- The text of a constant: the types other than `boolean` and `int` are marked. -/
def text : Constant → String
  | boolean b => if b then "true" else "false"
  | byte n => s!"(byte) {n.toInt}"
  | char n => s!"(char) {n.toNat}"
  | short n => s!"(short) {n.toInt}"
  | int n => toString n.toInt
  | long n => s!"{n.toInt}L"
  | float x => s!"{x.text}f"
  | double x => s!"{x.text}d"

end Constant

end SymbolicMachine
