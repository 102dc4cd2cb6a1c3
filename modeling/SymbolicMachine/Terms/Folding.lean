import SymbolicMachine.Terms.Term
/-!
# Arithmetic on constants

The value of an operator applied to constants.  Integers are computed in 64 bits and wrap, and
an `int` result is cut down to 32; floating-point numbers are computed in the 64-bit format
and a `float` result is rounded once more.  An integral division or remainder by zero has no
value, and neither has an operator on a type it is not defined on.
-/
namespace SymbolicMachine

/-- Whether a comparison holds between two values in the given order. -/
def BinaryOp.holds (op : BinaryOp) (order : Ordering) : Bool :=
  match op with
  | .eq => order == .eq
  | .ne => order != .eq
  | .lt => order == .lt
  | .le => order != .gt
  | .gt => order == .gt
  | .ge => order != .lt
  | _ => false

/-- Whether a comparison holds between two floating-point numbers.  If one is not a number,
only inequality holds. -/
def BinaryOp.holdsReal (op : BinaryOp) (a b : Binary .double) : Bool :=
  match a.compare? b with
  | some order => op.holds order
  | none => op == .ne

namespace Constant

def fold? : UnaryOp → Constant → Option Constant
  | .not, boolean b => some (boolean !b)
  | .neg, int n => some (int (-n))
  | .neg, long n => some (long (-n))
  | .neg, float x => some (float x.neg)
  | .neg, double x => some (double x.neg)
  | _, _ => none

def foldBools? (op : BinaryOp) (a b : Bool) : Option Bool :=
  match op with
  | .and => some (a && b)
  | .or => some (a || b)
  | .eq => some (a == b)
  | .ne => some (a != b)
  | _ => none

/-- The value of an arithmetic operator on two 64-bit integers. -/
def foldInt64s? (op : BinaryOp) (a b : Int64) : Option Int64 :=
  match op with
  | .add => some (a + b)
  | .sub => some (a - b)
  | .mul => some (a * b)
  | .div => if b = 0 then none else some (a / b)
  | .rem => if b = 0 then none else some (a % b)
  | _ => none

/-- The value of an arithmetic operator on two floating-point numbers. -/
def foldReals? (op : BinaryOp) (a b : Binary .double) : Option (Binary .double) :=
  match op with
  | .add => some (a.add b)
  | .sub => some (a.sub b)
  | .mul => some (a.mul b)
  | .div => some (a.div b)
  | .rem => some (a.rem b)
  | _ => none

/-- The value of a binary operator on two constants that are integers. -/
def foldIntegral? (op : BinaryOp) (t : PrimType) (a b : Int64) : Option Constant :=
  if op.isComparison then some (boolean (op.holds (compare a.toInt b.toInt)))
  else
    (foldInt64s? op a b).map fun n => if t = .long then long n else int n.toInt32

/-- The value of a binary operator on two constants that are floating-point numbers. -/
def foldFloating? (op : BinaryOp) (t : PrimType) (a b : Binary .double) : Option Constant :=
  if op.isComparison then some (boolean (op.holdsReal a b))
  else
    (foldReals? op a b).map fun x => if t = .float then float (x.toFormat .single) else double x

/-- The value of a binary operator on two constants of one type. -/
def foldPair? (op : BinaryOp) (a b : Constant) : Option Constant :=
  match a, b with
  | boolean x, boolean y => (foldBools? op x y).map boolean
  | _, _ =>
    if a.type.isIntegral then do
      let x ← a.toInt64?
      let y ← b.toInt64?
      foldIntegral? op a.type x y
    else do
      let x ← a.toDouble?
      let y ← b.toDouble?
      foldFloating? op a.type x y

end Constant

end SymbolicMachine
