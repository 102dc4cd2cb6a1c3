import SymbolicMachine.MemoryError
import SymbolicMachine.Terms.Value
/-!
# Operand stacks

The operands of a frame, with a bound on how many there may be.
-/
namespace SymbolicMachine

/-- An operand stack. -/
structure OperandStack where
  /-- The operands, topmost first. -/
  operands : List Value
  maxDepth : Nat

instance : BEq OperandStack := ⟨fun a b => a.operands == b.operands && a.maxDepth == b.maxDepth⟩

namespace OperandStack

/-- The stack without operands. -/
def empty (maxDepth : Nat) : OperandStack := ⟨[], maxDepth⟩

def size (s : OperandStack) : Nat := s.operands.length

def isEmpty (s : OperandStack) : Bool := s.operands.isEmpty

/-- Puts an operand on top, unless the stack is full. -/
def push (s : OperandStack) (v : Value) : Except MemoryError OperandStack :=
  if s.size + 1 > s.maxDepth then .error (.operandStackOverflow (s.size + 1))
  else .ok { s with operands := v :: s.operands }

def pop (s : OperandStack) : Except MemoryError (Value × OperandStack) :=
  match s.operands with
  | v :: rest => .ok (v, { s with operands := rest })
  | [] => .error .operandStackEmpty

/-- The operand at a depth, counted from zero at the top. -/
def peek (s : OperandStack) (depth : Nat) : Except MemoryError Value :=
  match s.operands[depth]? with
  | some v => .ok v
  | none => .error .operandStackEmpty

def dup (s : OperandStack) (depth : Nat) : Except MemoryError OperandStack := do
  let v ← s.peek depth
  s.push v

def toList (s : OperandStack) : List Value := s.operands.reverse

end OperandStack

end SymbolicMachine
