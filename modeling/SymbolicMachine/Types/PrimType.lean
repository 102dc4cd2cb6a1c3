/-!
# Primitive types

The eight primitive types of the analysed programs, with their one-letter descriptors, the
slots they fill and the type they take on the operand stack.
-/
namespace SymbolicMachine

/-- A primitive type of the analysed programs. -/
inductive PrimType where
  | boolean
  | byte
  | char
  | short
  | int
  | long
  | float
  | double
  deriving DecidableEq, Repr

namespace PrimType

def ofLetter? : Char → Option PrimType
  | 'Z' => some boolean
  | 'B' => some byte
  | 'C' => some char
  | 'S' => some short
  | 'I' => some int
  | 'J' => some long
  | 'F' => some float
  | 'D' => some double
  | _ => none

def letter : PrimType → Char
  | boolean => 'Z'
  | byte => 'B'
  | char => 'C'
  | short => 'S'
  | int => 'I'
  | long => 'J'
  | float => 'F'
  | double => 'D'

@[simp] theorem ofLetter?_letter (t : PrimType) : ofLetter? t.letter = some t := by
  cases t <;> rfl

def name : PrimType → String
  | boolean => "boolean"
  | byte => "byte"
  | char => "char"
  | short => "short"
  | int => "int"
  | long => "long"
  | float => "float"
  | double => "double"

def isNarrow : PrimType → Bool
  | long | double => false
  | _ => true

/-- The number of local variable slots that a value fills. -/
def slots (t : PrimType) : Nat := if t.isNarrow then 1 else 2

/-- Whether values live on the operand stack as they are. -/
def isStackNative : PrimType → Bool
  | int | long | float | double => true
  | _ => false

/-- The type a value takes when it is pushed on the operand stack. -/
def stackType (t : PrimType) : PrimType := if t.isStackNative then t else int

def isNumeric (t : PrimType) : Bool := t != boolean

/-- Whether values are integers, of any width. -/
def isIntegral : PrimType → Bool
  | byte | char | short | int | long => true
  | _ => false

def rank : PrimType → Nat
  | boolean => 0
  | byte => 1
  | char | short => 2
  | int => 3
  | long => 4
  | float => 5
  | double => 6

@[simp] theorem isStackNative_stackType (t : PrimType) : t.stackType.isStackNative = true := by
  cases t <;> rfl

end PrimType

end SymbolicMachine
