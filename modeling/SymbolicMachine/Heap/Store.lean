import SymbolicMachine.Heap.Object
/-!
# Heaps

A heap maps addresses to objects and hands out each address once.  Addresses start at one, and
the next address is always above every address in use.
-/
namespace SymbolicMachine

/-- A heap. -/
structure Heap where
  objects : OrderedMap Nat HeapObject
  next : Nat
  /-- No address in use is handed out again. -/
  lt_next : ∀ {a : Nat} {o : HeapObject}, objects.get? a = some o → a < next

instance : BEq Heap := ⟨fun a b => a.objects == b.objects && a.next == b.next⟩

namespace Heap

/-- The heap without objects. -/
def empty : Heap := ⟨.empty, 1, nofun⟩

/-- Puts an object at an address, which is then not handed out any more.  An object that was
there is replaced. -/
def insertAt (h : Heap) (address : Nat) (object : HeapObject) : Heap :=
  { objects := h.objects.insert address object
    next := max h.next (address + 1)
    lt_next := fun {a o} ha => by
      by_cases e : a = address
      · omega
      · rw [OrderedMap.get?_insert_of_ne _ e] at ha
        have := h.lt_next ha
        omega }

def allocate (h : Heap) (object : HeapObject) : Nat × Heap :=
  (h.next, h.insertAt h.next object)

def get (h : Heap) (address : Nat) : Except MemoryError HeapObject :=
  match h.objects.get? address with
  | some o => .ok o
  | none => .error (.noSuchObject address)

def getArray (h : Heap) (address : Nat) : Except MemoryError ArrayObject := do
  let object ← h.get address
  match object.array? with
  | some a => .ok a
  | none => .error (.notAnArray address)

def arraySet (h : Heap) (address : Nat) (index : Term) (value : Value) :
    Except MemoryError Heap := do
  let a ← h.getArray address
  .ok (h.insertAt address (.array (a.set index value)))

def setField (h : Heap) (address : Nat) (name : String) (value : Value) :
    Except MemoryError Heap := do
  let object ← h.get address
  match object with
  | .object i => do
    let changed ← i.setField name value
    .ok (h.insertAt address (.object changed))
  | .array a => .error (.noSuchField a.className name)

/-- The objects with their addresses, in ascending order. -/
def toList (h : Heap) : List (Nat × HeapObject) := h.objects.entries

def size (h : Heap) : Nat := h.objects.size

def isEmpty (h : Heap) : Bool := h.objects.isEmpty

/-- The object that was put at an address is found there. -/
@[simp] theorem get_insertAt_self (h : Heap) (a : Nat) (o : HeapObject) :
    (h.insertAt a o).get a = .ok o := by
  simp [insertAt, get]

theorem get_insertAt_of_ne (h : Heap) {a b : Nat} (hb : b ≠ a) (o : HeapObject) :
    (h.insertAt a o).get b = h.get b := by
  simp [insertAt, get, OrderedMap.get?_insert_of_ne _ hb]

/-- Where there is an object, the address is below the next one. -/
theorem lt_next_of_get {h : Heap} {a : Nat} {o : HeapObject} (ha : h.get a = .ok o) :
    a < h.next := by
  unfold get at ha
  split at ha
  · rename_i hg
    exact h.lt_next hg
  · cases ha

theorem next_insertAt_of_get {h : Heap} {a : Nat} {o : HeapObject} (ha : h.get a = .ok o)
    (p : HeapObject) : (h.insertAt a p).next = h.next :=
  Nat.max_eq_left (lt_next_of_get ha)

@[simp] theorem next_allocate (h : Heap) (o : HeapObject) :
    (h.allocate o).2.next = h.next + 1 :=
  Nat.max_eq_right (Nat.le_succ _)

@[simp] theorem get_allocate_self (h : Heap) (o : HeapObject) :
    (h.allocate o).2.get (h.allocate o).1 = .ok o :=
  h.get_insertAt_self h.next o

/-- The objects that were there are found after an allocation. -/
theorem get_allocate_of_get {h : Heap} {a : Nat} {o : HeapObject} (ha : h.get a = .ok o)
    (p : HeapObject) : (h.allocate p).2.get a = .ok o := by
  rw [← ha]
  exact h.get_insertAt_of_ne (Nat.ne_of_lt (lt_next_of_get ha)) p

end Heap

end SymbolicMachine
