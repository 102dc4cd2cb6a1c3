import SymbolicMachine.MemoryError
import SymbolicMachine.Terms.Value
/-!
# Local variables

The local variable area of a frame.  A value fills one slot or two, starting at the slot it is
written to; a write takes away every value it overlaps.  A table may name the variables and
give the types of their slots for ranges of the code, and then a write must fit one of the
rows that cover it.
-/
namespace SymbolicMachine

/-- A row of a local variable table. -/
structure LocalVariable where
  slot : Nat
  /-- The first program counter at which the row counts. -/
  startPc : Nat
  /-- The length of the range in which the row counts. -/
  length : Nat
  descriptor : String
  name : String
  deriving DecidableEq

def LocalVariable.covers (row : LocalVariable) (pc : Nat) : Bool :=
  row.startPc ≤ pc && pc < row.startPc + row.length

/-- The local variables of a frame. -/
structure Locals where
  /-- The value written at each slot.  The upper slot of a wide value holds none. -/
  slots : List (Option Value)
  table : List LocalVariable

instance : BEq Locals := ⟨fun a b => a.slots == b.slots && a.table == b.table⟩

namespace Locals

def create (maxLocals : Nat) (table : List LocalVariable) : Locals :=
  ⟨List.replicate maxLocals none, table⟩

def size (l : Locals) : Nat := l.slots.length

def get (l : Locals) (slot : Nat) : Except MemoryError Value :=
  match l.slots[slot]? with
  | none => .error (.invalidSlot slot .outOfRange)
  | some none => .error (.invalidSlot slot .notWritten)
  | some (some v) => .ok v

/-- The rows of the table that count for a slot at a program counter. -/
def rowsAt (l : Locals) (slot pc : Nat) : List LocalVariable :=
  l.table.filter fun row => row.slot == slot && row.covers pc

/-- Whether the table lets a value be written: one of the rows that count must fit it, if
there are any. -/
def permits (l : Locals) (slot pc : Nat) (v : Value) : Bool :=
  let rows := l.rowsAt slot pc
  rows.isEmpty || rows.any fun row => v.conformsTo row.descriptor

/-- Whether a slot holds a value that fills the slot above as well. -/
def isWideAt (slots : List (Option Value)) (slot : Nat) : Bool :=
  match slots[slot]? with
  | some (some v) => !v.isNarrow
  | _ => false

/-- Takes away the value below a slot if it reaches into the slot. -/
def dropBelow (slots : List (Option Value)) : Nat → List (Option Value)
  | 0 => slots
  | below + 1 => if isWideAt slots below then slots.set below none else slots

/-- Writes a value, taking away what it overlaps. -/
def write (slots : List (Option Value)) (slot : Nat) (v : Value) : List (Option Value) :=
  let cleared := dropBelow slots slot
  let upper := if v.isNarrow then cleared else cleared.set (slot + 1) none
  upper.set slot (some v)

/-- Writes a value at a slot, if it fits and the table permits it. -/
def set (l : Locals) (slot pc : Nat) (v : Value) : Except MemoryError Locals :=
  if slot + v.slots > l.size then .error (.invalidSlot slot .outOfRange)
  else if l.permits slot pc v then .ok { l with slots := write l.slots slot v }
  else .error (.invalidSlot slot .wrongType)

/-- Writes values one behind the other from a slot on, at the start of the code.  The values
before one that fails stay written. -/
def setArgsFrom (l : Locals) (slot : Nat) : List Value → Except MemoryError Unit × Locals
  | [] => (.ok (), l)
  | v :: rest =>
    match l.set slot 0 v with
    | .ok l' => setArgsFrom l' (slot + v.slots) rest
    | .error e => (.error e, l)

def setArgs (l : Locals) (args : List Value) : Except MemoryError Unit × Locals :=
  l.setArgsFrom 0 args

def descriptorAt? (l : Locals) (slot pc : Nat) : Option String :=
  (l.rowsAt slot pc).head?.map (·.descriptor)

/-- The name of the variable in a slot at a program counter. -/
def nameAt? (l : Locals) (slot pc : Nat) : Option String :=
  (l.rowsAt slot pc).head?.map (·.name)

/-- The written slots of a list that starts at a slot, with their values. -/
def writtenFrom (slot : Nat) : List (Option Value) → List (Nat × Value)
  | [] => []
  | none :: rest => writtenFrom (slot + 1) rest
  | some v :: rest => (slot, v) :: writtenFrom (slot + 1) rest

/-- The written slots in ascending order, with their values. -/
def written (l : Locals) : List (Nat × Value) := writtenFrom 0 l.slots

end Locals

end SymbolicMachine
