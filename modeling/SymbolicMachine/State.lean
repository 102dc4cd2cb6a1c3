import SymbolicMachine.Action
import SymbolicMachine.Heap.Store
import SymbolicMachine.Path.Condition
import SymbolicMachine.Thread.Frame
/-!
# States

The state of one explored path: its place in the tree of branches, a stack of frames, the
current heap, the heap of the inputs as they were at the start, and the path condition.  A
symbolic reference is bound to an object of the initial heap or to null, at most once; binding
it to a fresh object puts that object in both heaps at one address.

Operations are actions: one that fails half-way leaves the state as far as it got.

The counters of a state are words to the program that embeds the machine.  Operations count on
without a bound, and what a call of one comes to is cut where a counter leaves its word: then the
call does not come back (`State.call`, `Engine.call`).
-/
namespace SymbolicMachine

/-- Why a state executes no further. -/
inductive Ending where
  /-- The last frame returned, with its result if it has one. -/
  | returned (result : Option Value)
  /-- An exception was thrown. -/
  | threw (exception : Reference)

namespace Ending

def text : Ending → String
  | returned (some v) => s!"returned {v.text}"
  | returned none => "returned"
  | threw r => s!"threw {r.text}"

def same : Ending → Ending → Bool
  | returned a, returned b => a == b
  | threw a, threw b => a == b
  | _, _ => false

instance : BEq Ending := ⟨same⟩

end Ending

/-- The class of the error that stands for malformed code. -/
def verifyError : String := "java/lang/VerifyError"

/-- The state of one explored path. -/
structure State where
  /-- The numbers of the branches taken from the root, outermost first. -/
  branches : List Nat
  /-- The number of steps since the last branching, a word of 32 bits wherever a call comes
  back. -/
  sequence : Nat
  /-- The frames, the current one first. -/
  frames : List Frame
  heap : Heap
  /-- The input objects as they were at the start. -/
  initialHeap : Heap
  pathCondition : PathCondition
  /-- The number of the next symbol, a word of 32 bits wherever a call comes back. -/
  nextSymbol : Nat
  ending : Option Ending

instance : BEq State := ⟨fun a b =>
  a.branches == b.branches && a.sequence == b.sequence && a.frames == b.frames &&
    a.heap == b.heap && a.initialHeap == b.initialHeap &&
    a.pathCondition == b.pathCondition && a.nextSymbol == b.nextSymbol &&
    a.ending == b.ending⟩

namespace State

/-- The state at the root of an exploration, without frames or objects. -/
def root : State :=
  { branches := [1]
    sequence := 0
    frames := []
    heap := .empty
    initialHeap := .empty
    pathCondition := .empty
    nextSymbol := 0
    ending := none }

/-- The name of a state's branch: its branch numbers, each behind a dot. -/
def identifier (s : State) : String :=
  String.ofList (s.branches.flatMap fun n => '.' :: Nat.toDigits 10 n)

/-- The state as the successor with a number at a branching. -/
def addBranch (s : State) (number : Nat) : State :=
  { s with branches := s.branches ++ [number], sequence := 0 }

/-- The state one step on.  A call whose step leaves the word does not come back. -/
def incSequence (s : State) : State := { s with sequence := s.sequence + 1 }

def isStuck (s : State) : Bool := s.ending.isSome

abbrev Update (α : Type) : Type := Action State MemoryError α

/-! ## Frames -/

/-- The state with one more frame, which is the current one. -/
def pushFrame (s : State) (f : Frame) : State := { s with frames := f :: s.frames }

def popFrame : Update Frame := do
  let s ← Action.read
  match s.frames with
  | f :: rest => do
    Action.write { s with frames := rest }
    pure f
  | [] => Action.fail .threadStackEmpty

def currentFrame (s : State) : Except MemoryError Frame :=
  match s.frames with
  | f :: _ => .ok f
  | [] => .error .threadStackEmpty

def pc (s : State) : Except MemoryError Nat := s.currentFrame.map (·.pc)

def replaceFrame (s : State) (f : Frame) : State := { s with frames := f :: s.frames.tail }

/-- Changes the current frame, and not at all if that fails. -/
def onFrame {α : Type} (change : Frame → Except MemoryError (α × Frame)) : Update α := do
  let s ← Action.read
  let f ← Action.ofExcept s.currentFrame
  let (a, g) ← Action.ofExcept (change f)
  Action.write (s.replaceFrame g)
  pure a

def incPc (offset : Nat) : Update Unit := onFrame fun f => (f.incPc offset).map ((), ·)

def setPc (pc : Int) : Update Unit := onFrame fun f => (f.setPc pc).map ((), ·)

def pushOperand (v : Value) : Update Unit := onFrame fun f => (f.push v).map ((), ·)

def popOperand : Update Value := onFrame Frame.pop

/-- Takes operands off, and gives them topmost first. -/
def popDownward : Nat → Update (List Value)
  | 0 => pure []
  | count + 1 => do
    let v ← popOperand
    let rest ← popDownward count
    pure (v :: rest)

/-- Takes operands off, and gives them in the order in which they were pushed. -/
def popOperands (count : Nat) : Update (List Value) := do
  let values ← popDownward count
  pure values.reverse

def getLocal (s : State) (slot : Nat) : Except MemoryError Value := do
  let f ← s.currentFrame
  f.locals.get slot

def setLocal (slot : Nat) (v : Value) : Update Unit :=
  onFrame fun f => (f.setLocal slot v).map ((), ·)

/-! ## Symbols -/

/-- Makes a symbol under the next number.  A call that gives the last one does not come back. -/
def createPrimitive (type : PrimType) (origin : Origin) : Update Symbol := do
  let s ← Action.read
  Action.write { s with nextSymbol := s.nextSymbol + 1 }
  pure ⟨s.nextSymbol, type, origin⟩

def createReference (staticType : String) (origin : Origin) : Update RefSymbol := do
  let s ← Action.read
  Action.write { s with nextSymbol := s.nextSymbol + 1 }
  pure ⟨s.nextSymbol, staticType, origin⟩

def createSymbol (descriptor : String) (origin : Origin) : Update Value :=
  match Descriptor.primType? descriptor with
  | some t => do
    let symbol ← createPrimitive t origin
    pure (.primitive (.symbol symbol))
  | none => do
    let staticType ← Action.ofExcept ((Descriptor.staticType descriptor).mapError .value)
    let symbol ← createReference staticType origin
    pure (.reference (.symbolic symbol))

/-! ## Heap -/

def allocate (object : HeapObject) : Update Nat := do
  let s ← Action.read
  let (address, heap) := s.heap.allocate object
  Action.write { s with heap := heap }
  pure address

def defaultFields : List FieldInfo → Except ValueError (List (String × Value))
  | [] => .ok []
  | f :: rest => do
    let v ← Value.default f.descriptor
    let others ← defaultFields rest
    .ok ((f.name, v) :: others)

/-- Makes an instance whose fields hold their default values. -/
def createInstance (className : String) (fields : List FieldInfo) : Update Nat := do
  let values ← Action.ofExcept ((defaultFields fields).mapError .value)
  allocate (.object (.create className none values))

/-- Makes an array whose members hold their default value. -/
def createArray (className : String) (length : Term) : Update Nat :=
  allocate (.array (.create className none length))

def getObject (s : State) (address : Nat) : Except MemoryError HeapObject := s.heap.get address

def getInitialObject (s : State) (address : Nat) : Except MemoryError HeapObject :=
  s.initialHeap.get address

def getArray (s : State) (address : Nat) : Except MemoryError ArrayObject :=
  s.heap.getArray address

/-- Changes the current heap, and not at all if that fails. -/
def onHeap (change : Heap → Except MemoryError Heap) : Update Unit := do
  let s ← Action.read
  let heap ← Action.ofExcept (change s.heap)
  Action.write { s with heap := heap }

def arraySet (address : Nat) (index : Term) (value : Value) : Update Unit :=
  onHeap fun h => h.arraySet address index value

def setField (address : Nat) (name : String) (value : Value) : Update Unit :=
  onHeap fun h => h.setField address name value

/-! ## Path condition -/

/-- The clause that decides the target of a symbolic reference. -/
def resolution? (s : State) (r : RefSymbol) : Option Clause := s.pathCondition.resolution? r

/-- Whether the target of a symbolic reference is decided. -/
def isResolved (s : State) (r : RefSymbol) : Bool := s.pathCondition.isResolved r

/-- The address that a reference denotes, and nothing for null.  A symbolic reference must be
decided. -/
def deref (s : State) : Reference → Except MemoryError (Option Nat)
  | .null => .ok none
  | .concrete a => .ok (some a)
  | .symbolic r =>
    match s.resolution? r with
    | some c => .ok c.address?
    | none => .error (.unresolvedReference r.id)

def assumeClause (c : Clause) : Update Unit :=
  Action.onPart (·.pathCondition) (fun p s => { s with pathCondition := p })
    (PathCondition.pushing c)

/-- Assumes that a boolean term holds. -/
def assume (condition : Term) : Update Unit :=
  if condition.type = .boolean then assumeClause (.assume condition)
  else
    Action.fail (.value (.invalidType PrimType.boolean.name condition.type.name))

def ensureUnresolved (r : RefSymbol) : Update Unit := do
  let s ← Action.read
  if s.isResolved r then Action.fail (.alreadyResolved r.id) else pure ()

/-- Makes a fresh symbol for each field of the object that a reference denotes. -/
def createFields (r : RefSymbol) : List FieldInfo → Update (List (String × Value))
  | [] => pure []
  | f :: rest => do
    let v ← createSymbol f.descriptor (.field r f.name)
    let others ← createFields r rest
    pure ((f.name, v) :: others)

/-- Makes the object that a reference is bound to: an array of unknown length, or an instance
with unknown field values. -/
def createInput (r : RefSymbol) (className : String) (fields : List FieldInfo) :
    Update HeapObject :=
  if Descriptor.isArray className then do
    let length ← createPrimitive .int (.length r)
    pure (.array (.create className (some r) (.symbol length)))
  else do
    let values ← createFields r fields
    pure (.object (.create className (some r) values))

/-- Puts an object in both heaps, at the next address of the current one. -/
def allocateInput (object : HeapObject) : Update Nat := do
  let address ← allocate object
  Action.update fun s => { s with initialHeap := s.initialHeap.insertAt address object }
  pure address

/-- Assumes that a reference denotes a fresh object of a class. -/
def assumeExpands (r : RefSymbol) (className : String) (fields : List FieldInfo) :
    Update Nat := do
  ensureUnresolved r
  let object ← createInput r className fields
  let address ← allocateInput object
  assumeClause (.expands r address className)
  pure address

/-- Assumes that a reference denotes the object at an address of the initial heap. -/
def assumeAliases (r : RefSymbol) (address : Nat) : Update Unit := do
  ensureUnresolved r
  let s ← Action.read
  let _ ← Action.ofExcept (s.getInitialObject address)
  assumeClause (.aliases r address)

/-- Assumes that a reference is null. -/
def assumeNull (r : RefSymbol) : Update Unit := assumeClause (.isNull r)

/-- Assumes that a class was initialized before execution started. -/
def assumeInitialized (className : String) : Update Unit :=
  assumeClause (.initialized className)

/-- Assumes that a class was not initialized before execution started. -/
def assumeNotInitialized (className : String) : Update Unit :=
  assumeClause (.notInitialized className)

/-- What a clause says about the initialization of a class. -/
def initializationIn (className : String) : Clause → Option Bool
  | .initialized c => if c = className then some true else none
  | .notInitialized c => if c = className then some false else none
  | _ => none

/-- What the path condition assumes first about the initialization of a class. -/
def initialization? (s : State) (className : String) : Option Bool :=
  s.pathCondition.clauses.findSome? (initializationIn className)

/-! ## Endings -/

/-- Throws a new exception of a class, which ends the path. -/
def throwNew (s : State) (className : String) : Nat × State :=
  let (address, heap) := s.heap.allocate (.object (.create className none []))
  (address, { s with heap := heap, ending := some (.threw (.concrete address)) })

def throwVerifyError (s : State) : Nat × State := s.throwNew verifyError

/-- Ends the path with the return of its last frame. -/
def endReturned (s : State) (result : Option Value) : State :=
  { s with ending := some (.returned result) }

@[simp] theorem addBranch_sequence (s : State) (n : Nat) : (s.addBranch n).sequence = 0 := rfl

@[simp] theorem addBranch_branches (s : State) (n : Nat) :
    (s.addBranch n).branches = s.branches ++ [n] := rfl

@[simp] theorem incSequence_branches (s : State) : s.incSequence.branches = s.branches := rfl

@[simp] theorem incSequence_sequence (s : State) : s.incSequence.sequence = s.sequence + 1 := rfl

@[simp] theorem throwNew_pathCondition (s : State) (c : String) :
    (s.throwNew c).2.pathCondition = s.pathCondition := rfl

@[simp] theorem isStuck_throwNew (s : State) (c : String) : (s.throwNew c).2.isStuck = true := rfl

end State

end SymbolicMachine
