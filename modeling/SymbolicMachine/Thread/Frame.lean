import SymbolicMachine.Thread.Locals
import SymbolicMachine.Thread.OperandStack
import SymbolicMachine.Types.ClassInfo
/-!
# Frames

The activation of a method: its code with the program counter, its operand stack and its local
variables.  The program counter only ever moves to a position inside the code.
-/
namespace SymbolicMachine

/-- The activation of a method. -/
structure Frame where
  method : MethodSignature
  code : List UInt8
  pc : Nat
  operands : OperandStack
  locals : Locals

instance : BEq Frame := ⟨fun a b =>
  a.method == b.method && a.code == b.code && a.pc == b.pc && a.operands == b.operands &&
    a.locals == b.locals⟩

namespace Frame

/-- A frame at the start of its code, with no operands. -/
def create (method : MethodSignature) (code : List UInt8) (locals : Locals) (maxDepth : Nat) :
    Frame :=
  ⟨method, code, 0, .empty maxDepth, locals⟩

def instruction (f : Frame) (offset : Nat) : Except MemoryError UInt8 :=
  match f.code[f.pc + offset]? with
  | some b => .ok b
  | none => .error (.invalidProgramCounter (f.pc + offset : Nat) f.code.length)

/-- Moves the program counter to a position inside the code. -/
def setPc (f : Frame) (pc : Int) : Except MemoryError Frame :=
  if 0 ≤ pc ∧ pc < f.code.length then .ok { f with pc := pc.toNat }
  else .error (.invalidProgramCounter pc f.code.length)

def incPc (f : Frame) (offset : Int) : Except MemoryError Frame := f.setPc (f.pc + offset)

/-- Writes a local variable at the current program counter. -/
def setLocal (f : Frame) (slot : Nat) (v : Value) : Except MemoryError Frame := do
  let locals ← f.locals.set slot f.pc v
  .ok { f with locals := locals }

def push (f : Frame) (v : Value) : Except MemoryError Frame := do
  let operands ← f.operands.push v
  .ok { f with operands := operands }

def pop (f : Frame) : Except MemoryError (Value × Frame) := do
  let (v, operands) ← f.operands.pop
  .ok (v, { f with operands := operands })

end Frame

end SymbolicMachine
