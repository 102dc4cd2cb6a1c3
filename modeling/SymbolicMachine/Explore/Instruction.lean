import SymbolicMachine.Types.ClassInfo
/-!
# Instructions

The instructions that the engine executes: those that may branch, and those that need more than
the state they are executed in.  Each takes a
number of code bytes, by which the program counter moves on when it is done.
-/
namespace SymbolicMachine

/-- The length of the instruction that makes an instance. -/
def newInstanceLength : Nat := 3

/-- The length of the instruction that makes an array with members of a type. -/
def newArrayLength (memberType : String) : Nat := if Descriptor.isPrimitive memberType then 2 else 3

/-- The length of the instruction that invokes a static method. -/
def invokeStaticLength : Nat := 3

/-- An instruction that the engine executes. -/
inductive Instruction where
  /-- Loads the local variable at a slot. -/
  | loadLocal (slot length : Nat)
  /-- Reads a field of the object on top of the operand stack. -/
  | getField (name : String)
  /-- Reads a member of an array. -/
  | arrayLoad
  /-- Makes an instance of a class. -/
  | newInstance (className : String)
  /-- Makes an array with members of a type. -/
  | newArray (memberType : String)
  /-- Invokes a native method without side effects. -/
  | invokeNative (method : MethodSignature) (isStatic : Bool) (length : Nat)
  /-- Invokes the method that tells a program whether it runs in this machine. -/
  | invokeIsExplored
  deriving DecidableEq, Repr

/-- The number of code bytes that an instruction takes. -/
def Instruction.length : Instruction → Nat
  | .loadLocal _ n => n
  | .getField _ => 3
  | .arrayLoad => 1
  | .newInstance _ => newInstanceLength
  | .newArray memberType => newArrayLength memberType
  | .invokeNative _ _ n => n
  | .invokeIsExplored => invokeStaticLength

end SymbolicMachine
