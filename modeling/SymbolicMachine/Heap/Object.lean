import SymbolicMachine.Heap.ArrayObject
/-!
# Heap objects

An object in the heap is an instance of a class, with a value for each of its fields, or an
array.  Either may have been made for a symbolic reference, which is then its origin.
-/
namespace SymbolicMachine

/-- An instance of a class. -/
structure Instance where
  className : String
  /-- The symbolic reference that the instance was made for, if it is an input. -/
  origin : Option RefSymbol
  fields : OrderedMap String Value

instance : BEq Instance := ⟨fun a b =>
  a.className == b.className && a.origin == b.origin && a.fields == b.fields⟩

namespace Instance

/-- An instance with the given field values; of two values for one name the later counts. -/
def create (className : String) (origin : Option RefSymbol) (fields : List (String × Value)) :
    Instance :=
  ⟨className, origin, OrderedMap.ofList fields⟩

def getField (i : Instance) (name : String) : Except MemoryError Value :=
  match i.fields.get? name with
  | some v => .ok v
  | none => .error (.noSuchField i.className name)

/-- Changes the value of a field that the instance has. -/
def setField (i : Instance) (name : String) (value : Value) : Except MemoryError Instance :=
  if i.fields.contains name then .ok { i with fields := i.fields.insert name value }
  else .error (.noSuchField i.className name)

end Instance

/-- An object in the heap. -/
inductive HeapObject where
  | object (contents : Instance)
  | array (contents : ArrayObject)

namespace HeapObject

/-- Whether two objects are the same in class, origin and contents. -/
def same : HeapObject → HeapObject → Bool
  | .object a, .object b => a == b
  | .array a, .array b => a == b
  | _, _ => false

instance : BEq HeapObject := ⟨same⟩

/-- The class of an object, which is a descriptor for arrays. -/
def className : HeapObject → String
  | .object i => i.className
  | .array a => a.className

/-- The symbolic reference that an object was made for. -/
def origin : HeapObject → Option RefSymbol
  | .object i => i.origin
  | .array a => a.origin

/-- The array that an object is. -/
def array? : HeapObject → Option ArrayObject
  | .array a => some a
  | .object _ => none

/-- The instance that an object is. -/
def asInstance? : HeapObject → Option Instance
  | .object i => some i
  | .array _ => none

/-- The value of a field; an array has none. -/
def getField (o : HeapObject) (name : String) : Except MemoryError Value :=
  match o with
  | .object i => i.getField name
  | .array a => .error (.noSuchField a.className name)

end HeapObject

end SymbolicMachine
