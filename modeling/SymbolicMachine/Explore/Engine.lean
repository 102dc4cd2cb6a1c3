import SymbolicMachine.Explore.Native
import SymbolicMachine.Explore.Statistics
import SymbolicMachine.Explore.Trigger
/-!
# The engine of an exploration

The collaborators of an exploration, what they keep from step to step, and the two services
that every step uses: asking the oracle, under the eye of the watchdog, and sorting a fault
into an end of the path or an error for the caller.
-/
namespace SymbolicMachine

/-- What a read of a local variable slot without a value does. -/
inductive UnwrittenSlot where
  /-- The code is malformed. -/
  | fail
  /-- The read gives the default value of the declared type, if there is one. -/
  | useDefault
  deriving DecidableEq, Repr

/-- The settings of an exploration. -/
structure Config where
  /-- A bound on the operand stack depth of every frame. -/
  maxOperandDepth : Nat
  unwrittenSlot : UnwrittenSlot
  /-- Whether an input array is assumed to have a length that is not negative. -/
  assumeArrayLength : Bool
  deriving DecidableEq, Repr

/-- The settings that are used unless others are given. -/
def Config.standard : Config := ⟨65535, .fail, true⟩

/-- Says when to stop.  It is looked at before a query, and then only if the number of queries
made so far is a multiple of `pollEvery`. -/
structure Watchdog where
  /-- The number of queries between two looks; zero counts as one. -/
  pollEvery : Nat
  /-- Whether to stop, after a number of queries. -/
  shouldStop : Nat → Bool

namespace Watchdog

/-- The number of queries between two looks unless another is given. -/
def standardInterval : Nat := 100

def lazy : Watchdog := ⟨UInt64.size - 1, fun _ => false⟩

def flag (raised : Bool) (pollEvery : Nat) : Watchdog := ⟨max pollEvery 1, fun _ => raised⟩

end Watchdog

/-- The collaborators of an exploration, with an oracle whose state is an `ω` and triggers
whose state is a `τ`. -/
structure Engine (ω τ : Type) where
  oracle : Oracle ω
  classes : ClassTable
  triggers : Triggers τ
  natives : NativeEvaluator
  watchdog : Watchdog
  config : Config

/-- What is kept from step to step. -/
structure Session (ω τ : Type) where
  oracle : ω
  trail : τ
  /-- The number of queries made so far. -/
  queries : Nat
  statistics : Statistics

/-- A computation in a session that may fail with an `ε`. -/
abbrev Run (ω τ ε α : Type) : Type := Action (Session ω τ) ε α

/-- A failure inside an instruction, before it is sorted. -/
inductive Fault where
  /-- An operation on memory failed. -/
  | memory (cause : MemoryError)
  /-- A class that the instruction needs cannot be used. -/
  | linkage (cause : ClassError)
  /-- The step has to be abandoned. -/
  | execution (cause : ExecutionError)
  deriving DecidableEq, Repr

/-- The class of the error that a program sees when a class cannot be used.  It sees none while
superclasses are followed for ever. -/
def ClassError.thrownClass? : ClassError → Option String
  | .notFound _ => some "java/lang/NoClassDefFoundError"
  | .notAccessible .. => some "java/lang/IllegalAccessError"
  | .endless _ => none

/-- Sorts a fault: malformed code and unusable classes end the path of the state with an error
of the program, and anything else is an error for the caller. -/
def Fault.settle (f : Fault) (s : State) : Except ExecutionError State :=
  match f with
  | .memory cause =>
    if cause.isEngineFault then .error (.internal cause.message) else .ok s.throwVerifyError.2
  | .linkage cause =>
    match cause.thrownClass? with
    | some className => .ok (s.throwNew className).2
    | none => .error (.linkage cause)
  | .execution cause => .error cause

namespace Session

variable {ω τ : Type}

def start (oracle : ω) (trail : τ) : Session ω τ := ⟨oracle, trail, 0, .zero⟩

def count {ε : Type} (f : Statistics → Statistics) : Run ω τ ε Unit :=
  Action.update fun s => { s with statistics := f s.statistics }

def consult {α : Type} (m : Action ω DecisionError α) : Run ω τ ExecutionError α :=
  Action.mapError .decision (Action.onPart oracle (fun o s => { s with oracle := o }) m)

end Session

namespace Engine

variable {ω τ : Type}

/-- Asks the oracle, after a look at the watchdog if it is due, and counts the answer. -/
def query (e : Engine ω τ) (q : Query) : Run ω τ ExecutionError Bool := do
  let s ← Action.read
  if s.queries % max e.watchdog.pollEvery 1 == 0 && e.watchdog.shouldStop s.queries then
    Action.fail .stoppedByWatchdog
  else do
    Action.update fun s => { s with queries := s.queries + 1 }
    let verdict ← Session.consult (e.oracle.ask q)
    Session.count (·.recordVerdict verdict)
    pure verdict

def sync (e : Engine ω τ) (s : State) : Run ω τ ExecutionError Unit :=
  Session.consult (e.oracle.syncWith s)

/-- A frame whose operand stack is bounded by the method and by the settings. -/
def frame (e : Engine ω τ) (method : MethodSignature) (code : List UInt8) (locals : Locals)
    (maxStack : Nat) : Frame :=
  .create method code locals (min maxStack e.config.maxOperandDepth)

/-- The name of the input in a slot: the one that the table gives it from the start on, or one
made from the number of the slot. -/
def inputName (table : List LocalVariable) (slot : Nat) : String :=
  match table.find? fun row => row.slot == slot && row.startPc == 0 with
  | some row => row.name
  | none => s!"arg{slot}"

/-- Makes a fresh input for each parameter, from a slot on. -/
def createArguments (table : List LocalVariable) (slot : Nat) :
    List String → State.Update (List Value)
  | [] => pure []
  | descriptor :: rest => do
    let v ← State.createSymbol descriptor (.root (inputName table slot))
    let others ← createArguments table (slot + v.slots) rest
    pure (v :: others)

/-- Makes the receiver of a method, which denotes a fresh object. -/
def createReceiver (e : Engine ω τ) (className name : String) : State.Update Value := do
  let r ← State.createReference className (.root name)
  let fields := (e.classes.instanceFields className).toOption.getD []
  let _ ← State.assumeExpands r className fields
  pure (.reference (.symbolic r))

/-- Makes the arguments of a method, the receiver first. -/
def createInputs (e : Engine ω τ) (method : MethodSignature) (isStatic : Bool)
    (table : List LocalVariable) : State.Update (List Value) :=
  let parameters := Action.ofExcept ((Descriptor.parameterTypes method.descriptor).mapError .value)
  if isStatic then do
    let descriptors ← parameters
    createArguments table 0 descriptors
  else do
    let receiver ← e.createReceiver method.className (inputName table 0)
    let descriptors ← parameters
    let others ← createArguments table 1 descriptors
    pure (receiver :: others)

/-- The root state of the exploration of a method, whose arguments are fresh inputs. -/
def initialState (e : Engine ω τ) (method : MethodSignature) (isStatic : Bool)
    (code : List UInt8) (maxLocals : Nat) (table : List LocalVariable) (maxStack : Nat) :
    Except MemoryError State :=
  match (e.createInputs method isStatic table).run .root with
  | (.error error, _) => .error error
  | (.ok args, s) =>
    match (Locals.create maxLocals table).setArgs args with
    | (.error error, _) => .error error
    | (.ok (), locals) => .ok (s.pushFrame (e.frame method code locals maxStack))

end Engine

end SymbolicMachine
