import SymbolicMachine.Types.ValueError
/-!
# Errors about memory

What can go wrong with frames, local variables, operand stacks, heaps and path conditions.
Most of these describe a flaw in the analysed program.  The ones that only a flaw in the
exploration itself can cause are told apart by `isEngineFault`.
-/
namespace SymbolicMachine

/-- What is wrong with an access to a local variable slot. -/
inductive SlotFault where
  | outOfRange
  | wrongType
  | notWritten
  deriving DecidableEq, Repr

/-- The wording of a slot fault, as the end of a sentence. -/
def SlotFault.text : SlotFault → String
  | .outOfRange => "is out of range"
  | .wrongType => "has the wrong type"
  | .notWritten => "was not written"

/-- Why an operation on the memory of a state failed. -/
inductive MemoryError where
  /-- A program counter is outside the code. -/
  | invalidProgramCounter (requested : Int) (available : Nat)
  /-- A local variable slot cannot be used that way. -/
  | invalidSlot (slot : Nat) (fault : SlotFault)
  /-- There is no current frame. -/
  | threadStackEmpty
  /-- There is no operand to take. -/
  | operandStackEmpty
  /-- An operand stack would grow past its bound. -/
  | operandStackOverflow (requested : Nat)
  /-- There is no object at an address. -/
  | noSuchObject (address : Nat)
  /-- The object at an address is not an array. -/
  | notAnArray (address : Nat)
  /-- An object has no field of a name. -/
  | noSuchField (className field : String)
  /-- A symbolic reference was followed before its target was decided. -/
  | unresolvedReference (id : Nat)
  /-- The target of a symbolic reference was decided twice. -/
  | alreadyResolved (id : Nat)
  /-- The null reference was followed. -/
  | nullDereference
  /-- An operation on values failed. -/
  | value (cause : ValueError)
  deriving DecidableEq, Repr

namespace MemoryError

def message : MemoryError → String
  | invalidProgramCounter requested available =>
    s!"Program counter {requested} is out of bounds in code of length {available}"
  | invalidSlot slot fault => s!"Local variable slot {slot} {fault.text}"
  | threadStackEmpty => "The thread stack has no frames"
  | operandStackEmpty => "The operand stack has no value to pop"
  | operandStackOverflow requested =>
    s!"Maximum operand stack depth exceeded with request for {requested} values"
  | noSuchObject address => s!"No object exists at heap address {address}"
  | notAnArray address => s!"The object at heap address {address} is not an array"
  | noSuchField className field => s!"The object of class {className} has no field {field}"
  | unresolvedReference id => s!"Symbolic reference \x7bR{id}\x7d has not been resolved"
  | alreadyResolved id => s!"Symbolic reference \x7bR{id}\x7d has already been resolved"
  | nullDereference => "Cannot dereference the null reference"
  | value cause => cause.message

/-- Whether only a flaw in the exploration can cause the error. -/
def isEngineFault : MemoryError → Bool
  | noSuchObject _ | notAnArray _ | unresolvedReference _ | alreadyResolved _ => true
  | _ => false

end MemoryError

end SymbolicMachine
