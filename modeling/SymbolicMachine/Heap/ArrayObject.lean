import SymbolicMachine.MemoryError
import SymbolicMachine.OrderedMap
import SymbolicMachine.Terms.Value
/-!
# Arrays

An array keeps its members as the list of writes made to it, oldest first, so that an index
need not be a constant.  Reading at an index gives every outcome that is not impossible, each
with the guard under which it happens: the index hits a recorded entry that no later entry
overrides, it hits none of them, or it is out of bounds.
-/
namespace SymbolicMachine

/-- A recorded write: the member at `index` holds `value`. -/
structure ArrayEntry where
  index : Term
  value : Value

instance : BEq ArrayEntry := ⟨fun a b => a.index == b.index && a.value == b.value⟩

/-- One possible result of reading an array member. -/
inductive AccessOutcome where
  /-- The index hits a recorded entry. -/
  | entry (guard : Term) (value : Value)
  /-- The index is in bounds and hits no recorded entry. -/
  | unknown (guard : Term)
  /-- The index is out of bounds. -/
  | outOfRange (guard : Term)

def AccessOutcome.guard : AccessOutcome → Term
  | .entry g _ => g
  | .unknown g => g
  | .outOfRange g => g

/-- An array in the heap. -/
structure ArrayObject where
  className : String
  /-- The symbolic reference that the array was made for, if it is an input. -/
  origin : Option RefSymbol
  length : Term
  /-- The recorded writes, oldest first. -/
  entries : List ArrayEntry

instance : BEq ArrayObject := ⟨fun a b =>
  a.className == b.className && a.origin == b.origin && a.length == b.length &&
    a.entries == b.entries⟩

namespace ArrayObject

def create (className : String) (origin : Option RefSymbol) (length : Term) : ArrayObject :=
  ⟨className, origin, length, []⟩

/-- The descriptor of the members, which is empty if the class is no array type. -/
def memberType (a : ArrayObject) : String := (Descriptor.member? a.className).getD ""

/-- Whether members without a record are inputs rather than default values. -/
def isInput (a : ArrayObject) : Bool := a.origin.isSome

/-- The value of a member without a record, in an array that is not an input. -/
def defaultMember (a : ArrayObject) : Except MemoryError Value :=
  (Value.default a.memberType).mapError .value

/-- Records a write.  An entry with the same index gives way to it. -/
def set (a : ArrayObject) (index : Term) (value : Value) : ArrayObject :=
  { a with entries := a.entries.filter (fun e => !(e.index == index)) ++ [⟨index, value⟩] }

def misses (index : Term) : List ArrayEntry → Except ValueError (List Term)
  | [] => .ok []
  | e :: rest => do
    let missed ← Term.mkNe index e.index
    let others ← misses index rest
    .ok (missed :: others)

def inBounds (a : ArrayObject) (index : Term) : Except ValueError Term := do
  let low ← Term.mkGe index (.ofInt 0)
  let high ← Term.mkLt index a.length
  Term.mkAnd low high

/-- An outcome, unless its guard is literally `false`. -/
def possible (outcome : AccessOutcome) : List AccessOutcome :=
  if outcome.guard.isFalse then [] else [outcome]

theorem eq_of_mem_possible {o outcome : AccessOutcome} (h : o ∈ possible outcome) :
    o = outcome := by
  unfold possible at h
  split at h
  · cases h
  · exact List.mem_singleton.1 h

/-- The outcomes that hit an entry of the list.  A later entry takes precedence. -/
def entryOutcomes (bounds index : Term) : List ArrayEntry → Except ValueError (List AccessOutcome)
  | [] => .ok []
  | e :: later => do
    let hit ← Term.mkEq index e.index
    let missed ← misses index later
    let here ← Term.mkAnd bounds hit
    let latest ← Term.mkAll missed
    let guard ← Term.mkAnd here latest
    let others ← entryOutcomes bounds index later
    .ok (possible (.entry guard e.value) ++ others)

/-- The possible outcomes of reading the member at an index: the recorded entries oldest
first, then no entry, then out of bounds. -/
def get (a : ArrayObject) (index : Term) : Except ValueError (List AccessOutcome) := do
  let bounds ← a.inBounds index
  let hits ← entryOutcomes bounds index a.entries
  let missed ← misses index a.entries
  let none ← Term.mkAll missed
  let unrecorded ← Term.mkAnd bounds none
  let outside ← Term.mkNot bounds
  .ok (hits ++ possible (.unknown unrecorded) ++ possible (.outOfRange outside))

@[simp] theorem set_length (a : ArrayObject) (index : Term) (value : Value) :
    (a.set index value).length = a.length := rfl

@[simp] theorem set_className (a : ArrayObject) (index : Term) (value : Value) :
    (a.set index value).className = a.className := rfl

@[simp] theorem set_origin (a : ArrayObject) (index : Term) (value : Value) :
    (a.set index value).origin = a.origin := rfl

end ArrayObject

end SymbolicMachine
