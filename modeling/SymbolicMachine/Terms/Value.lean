import SymbolicMachine.Terms.Build
import SymbolicMachine.Types.Descriptor
/-!
# Values

What a local variable, an operand, a field or an array member holds: a primitive term or a
reference.  A reference is null, the address of a heap object, or a symbol whose target is
decided when it is first used.
-/
namespace SymbolicMachine

def addressText (address : Nat) : String := s!"Object[{address}]"

/-- A reference value. -/
inductive Reference where
  | null
  | concrete (address : Nat)
  /-- A reference whose target is decided lazily. -/
  | symbolic (symbol : RefSymbol)

namespace Reference

def text : Reference → String
  | null => "null"
  | concrete a => addressText a
  | symbolic r => r.text

def isSymbolic : Reference → Bool
  | symbolic _ => true
  | _ => false

def isNull : Reference → Bool
  | null => true
  | _ => false

def symbol? : Reference → Option RefSymbol
  | symbolic r => some r
  | _ => none

/-- Whether two references are the same: symbols by number, addresses by value. -/
def same : Reference → Reference → Bool
  | null, null => true
  | concrete a, concrete b => a == b
  | symbolic a, symbolic b => a == b
  | _, _ => false

instance : BEq Reference := ⟨same⟩

end Reference

/-- A primitive or a reference. -/
inductive Value where
  | primitive (term : Term)
  | reference (target : Reference)

namespace Value

def text : Value → String
  | primitive t => t.text
  | reference r => r.text

def same : Value → Value → Bool
  | primitive a, primitive b => a == b
  | reference a, reference b => a == b
  | _, _ => false

instance : BEq Value := ⟨same⟩

/-- The value that a location of the described type holds before it is written: zero for
primitives and null for references. -/
def default (descriptor : String) : Except ValueError Value :=
  match Descriptor.primType? descriptor with
  | some t => .ok (primitive (.constant (Constant.zero t)))
  | none =>
    if Descriptor.isReference descriptor then .ok (reference .null)
    else .error (.invalidDescriptor descriptor)

def isNarrow : Value → Bool
  | primitive t => t.type.isNarrow
  | reference _ => true

/-- The number of local variable slots that a value fills. -/
def slots (v : Value) : Nat := if v.isNarrow then 1 else 2

def isSymbolic : Value → Bool
  | primitive t => t.isSymbolic
  | reference r => r.isSymbolic

def term? : Value → Option Term
  | primitive t => some t
  | reference _ => none

/-- The term of a primitive; a reference is an error. -/
def expectTerm : Value → Except ValueError Term
  | primitive t => .ok t
  | reference _ => .error (.invalidType "primitive" "reference")

/-- The target of a reference; a primitive is an error. -/
def expectReference : Value → Except ValueError Reference
  | reference r => .ok r
  | primitive _ => .error (.invalidType "reference" "primitive")

/-- Whether a value may be stored in a location of the described type.  The types that widen to
`int` accept each other's values, and so do all reference types. -/
def conformsTo (v : Value) (descriptor : String) : Bool :=
  match v with
  | reference _ => Descriptor.isReference descriptor
  | primitive t =>
    match Descriptor.primType? descriptor with
    | some declared =>
      t.type == declared || (t.type.stackType == .int && declared.stackType == .int)
    | none => false

/-- The form a value takes on the operand stack: `boolean`, `byte`, `char` and `short` become
`int`. -/
def widen : Value → Except ValueError Value
  | primitive t => (t.convert t.type.stackType).map primitive
  | reference r => .ok (reference r)

/-- A reference is its own operand stack form. -/
@[simp] theorem widen_reference (r : Reference) : widen (reference r) = .ok (reference r) := rfl

end Value

end SymbolicMachine
