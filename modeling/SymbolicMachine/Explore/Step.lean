import SymbolicMachine.Explore.Instruction
import SymbolicMachine.Explore.Refine
/-!
# Steps

What each instruction does.  A step takes the state that is about to execute an instruction and
gives its successors; the state itself is never changed.  Malformed code, unusable classes and
exceptions of the program end the path of a successor.  Only an error for the caller fails the
step, and it carries the program counter of the instruction.
-/
namespace SymbolicMachine

/-- What the body of an instruction came to. -/
inductive StepResult where
  /-- A value was read that has these alternatives in this state. -/
  | decided (working : State) (alternatives : List Alternative)
  /-- The body made the successors itself. -/
  | forked (successors : List State)
  /-- There is one successor. -/
  | done (working : State)

/-- The class of the exception of following the null reference. -/
def nullPointer : String := "java/lang/NullPointerException"

/-- The class of the exception of making an array of negative length. -/
def negativeArraySize : String := "java/lang/NegativeArraySizeException"

/-- The class of the error of making an instance of an abstract class. -/
def instantiationError : String := "java/lang/InstantiationError"

namespace Engine

variable {ω τ : Type}

/-- The body of an instruction, run on a copy of the state. -/
abbrev Body (ω τ : Type) : Type := State → Run ω τ Fault StepResult

/-- The program counter that errors are located at, which is zero without a frame. -/
def locationOf (s : State) : Nat := s.pc.toOption.getD 0

/-- A single successor, counted. -/
def single (s : State) : Run ω τ ExecutionError (List State) := do
  Session.count (·.addSuccessors 1)
  pure [s.incSequence]

/-- Turns the result of a body into successors.  A fault is settled in the state as it was
before the instruction. -/
def conclude (e : Engine ω τ) (s : State) (offset : Nat) :
    Except Fault StepResult → Run ω τ ExecutionError (List State)
  | .ok (.decided working alternatives) => e.refine working alternatives offset
  | .ok (.forked successors) => pure successors
  | .ok (.done working) => single working
  | .error fault => do
    let failed ← Action.ofExcept (fault.settle s)
    single failed

def execute (e : Engine ω τ) (offset : Nat) (body : Body ω τ) (s : State) :
    Run ω τ (Located ExecutionError) (List State) :=
  Action.mapError (Located.mk (locationOf s)) fun ses =>
    match (body s).run ses with
    | (result, ses') => (e.conclude s offset result).run ses'

/-- Throws a new exception in the only successor. -/
def thrown (s : State) (className : String) : Run ω τ Fault StepResult :=
  pure (.done (s.throwNew className).2)

def checked {α : Type} (r : Except ValueError α) : Run ω τ Fault α :=
  Action.ofExcept (r.mapError (.memory ∘ .value))

def fetched {α : Type} (r : Except MemoryError α) : Run ω τ Fault α :=
  Action.ofExcept (r.mapError .memory)

def expectInt (t : Term) : Except ValueError Unit :=
  if t.type = .int then .ok ()
  else .error (.invalidType PrimType.int.name t.type.name)

def popInt (s : State) : Run ω τ Fault (Term × State) := do
  let (v, s') ← onState s State.popOperand
  let t ← checked v.expectTerm
  checked (expectInt t)
  pure (t, s')

/-- Takes a reference operand off, and gives the address it denotes, if it is not null. -/
def popTarget (s : State) : Run ω τ Fault (Option Nat × State) := do
  let (v, s') ← onState s State.popOperand
  let r ← checked v.expectReference
  let target ← fetched (s'.deref r)
  pure (target, s')

/-! ## Loads -/

/-- The value of a local variable slot.  A slot without a value may have a default. -/
def readLocal (s : State) (slot : Nat) (policy : UnwrittenSlot) : Except MemoryError Value :=
  match s.getLocal slot with
  | .ok v => .ok v
  | .error error =>
    if error = .invalidSlot slot .notWritten ∧ policy = .useDefault then
      match s.currentFrame with
      | .error absent => .error absent
      | .ok f =>
        match f.locals.descriptorAt? slot f.pc with
        | some descriptor => (Value.default descriptor).mapError .value
        | none => .error error
    else .error error

def decided (e : Engine ω τ) (s : State) (v : Value) : Run ω τ Fault StepResult := do
  let alternatives ← Action.mapError .execution (e.decideLoad s v)
  pure (.decided s alternatives)

def loadLocal (e : Engine ω τ) (slot : Nat) : Body ω τ := fun s => do
  let v ← fetched (readLocal s slot e.config.unwrittenSlot)
  e.decided s v

/-- Reads a field of the object on top of the operand stack. -/
def getField (e : Engine ω τ) (name : String) : Body ω τ := fun s => do
  let (target, s) ← popTarget s
  match target with
  | none => thrown s nullPointer
  | some address => do
    let object ← fetched (s.getObject address)
    let v ← fetched (object.getField name)
    e.decided s v

/-- Reads the member of an array: the index is on top of the operand stack, above the array. -/
def arrayLoad (e : Engine ω τ) : Body ω τ := fun s => do
  let (index, s) ← popInt s
  let (target, s) ← popTarget s
  match target with
  | none => thrown s nullPointer
  | some address => do
    let object ← fetched (s.getObject address)
    match object with
    | .object i => checked (.error (.invalidType "array" i.className))
    | .array _ => do
      let (s, alternatives) ← e.decideArrayLoad s address index
      pure (.decided s alternatives)

/-! ## Allocations -/

def pushAllocated (address offset : Nat) : State.Update Unit := do
  State.pushOperand (.reference (.concrete address))
  State.incPc offset

/-- Makes an instance with default values, pushes it and moves on. -/
def allocateInstance (className : String) (fields : List FieldInfo) : State.Update Unit := do
  let address ← State.createInstance className fields
  pushAllocated address newInstanceLength

/-- The state in which the initialization of a class is assumed one way or the other: that it
was before the start if that is feasible, and otherwise that it was not.  There is no such
state if neither is feasible. -/
def assumeInitialization (e : Engine ω τ) (s : State) (className : String) :
    Run ω τ Fault (Option State) :=
  match s.initialization? className with
  | some _ => pure (some s)
  | none => do
    Action.mapError .execution (e.sync s)
    let before ← Action.mapError .execution (e.query (.initialized className))
    if before then do
      let ((), s') ← onState s (State.assumeInitialized className)
      pure (some s')
    else do
      let after ← Action.mapError .execution (e.query (.notInitialized className))
      if after then do
        let ((), s') ← onState s (State.assumeNotInitialized className)
        pure (some s')
      else pure none

def newInstance (e : Engine ω τ) (className : String) : Body ω τ := fun s => do
  let f ← fetched s.currentFrame
  let resolved := e.classes.resolve f.method.className className
  let c ← Action.ofExcept (resolved.mapError .linkage)
  if c.isConcrete then do
    let fields ← Action.ofExcept ((e.classes.instanceFields className).mapError .linkage)
    let assumed ← e.assumeInitialization s className
    match assumed with
    | none => pure (.forked [])
    | some s => do
      let ((), s) ← onState s (allocateInstance className fields)
      pure (.done s)
  else thrown s instantiationError

/-- Makes an array, pushes it and moves on. -/
def allocateArray (className : String) (length : Term) (offset : Nat) : State.Update Unit := do
  let address ← State.createArray className length
  pushAllocated address offset

/-- Runs an update on a fork of the state.  A fault ends the path of the fork. -/
def settled (s : State) (m : State.Update Unit) : Except ExecutionError State :=
  match m.run s with
  | (.ok (), s') => .ok s'
  | (.error error, s') => (Fault.memory error).settle s'

/-- The fork on which the length of an array is negative. -/
def negativeFork (s : State) (negative : Term) : Except ExecutionError State :=
  settled s do
    State.assume negative
    Action.update fun s => (s.throwNew negativeArraySize).2

/-- The fork on which the length of an array is not negative. -/
def nonnegativeFork (s : State) (nonnegative : Term) (className : String) (length : Term)
    (offset : Nat) : Except ExecutionError State :=
  settled s do
    State.assume nonnegative
    allocateArray className length offset

/-- A fork of the state, if the oracle holds its condition feasible. -/
def forkIf (e : Engine ω τ) (condition : Term) (fork : Except ExecutionError State) :
    Run ω τ Fault (List State) := do
  let verdict ← Action.mapError .execution (e.query (.sat condition))
  if verdict then do
    let s ← Action.ofExcept (fork.mapError .execution)
    pure [s]
  else pure []

/-- States as the successors of a step, numbered from `number` on. -/
def numbered (branching : Bool) (number : Nat) : List State → List State
  | [] => []
  | s :: rest => successorOf s branching number :: numbered branching (number + 1) rest

/-- Forks a state on the sign of an array length that is not a constant. -/
def forkOnLength (e : Engine ω τ) (s : State) (className : String) (length : Term)
    (offset : Nat) : Run ω τ Fault StepResult := do
  Session.count (·.addDecisionPoint)
  Action.mapError .execution (e.sync s)
  let negative ← checked (length.mkLt (.ofInt 0))
  let nonnegative ← checked (length.mkGe (.ofInt 0))
  let failing ← e.forkIf negative (negativeFork s negative)
  let passing ← e.forkIf nonnegative (nonnegativeFork s nonnegative className length offset)
  let forks := failing ++ passing
  let successors := numbered (decide (1 < forks.length)) 1 forks
  Session.count (·.addSuccessors successors.length)
  pure (.forked successors)

def isNegative (c : Constant) : Bool :=
  match c.toInt64? with
  | some n => n < 0
  | none => false

/-- Makes an array with members of a type, whose length is on top of the operand stack. -/
def newArray (e : Engine ω τ) (memberType : String) : Body ω τ := fun s => do
  let offset := newArrayLength memberType
  let className := "[" ++ memberType
  let (length, s) ← popInt s
  match length.constant? with
  | some c =>
    if isNegative c then thrown s negativeArraySize
    else do
      let ((), s) ← onState s (allocateArray className (.constant c) offset)
      pure (.done s)
  | none => e.forkOnLength s className length offset

/-! ## Invocations -/

/-- Takes the arguments of a method off, without the receiver of an instance method. -/
def popArguments (s : State) (count : Nat) (isStatic : Bool) :
    Run ω τ Fault (List Value × State) :=
  if isStatic then onState s (State.popOperands count)
  else do
    let (values, s) ← onState s (State.popOperands (count + 1))
    match values with
    | [] => pure ([], s)
    | receiver :: args => do
      let _ ← checked receiver.expectReference
      pure (args, s)

/-- Pushes the stack form of a result, if there is one, and moves on. -/
def pushResult (result : Option Value) (offset : Nat) : State.Update Unit :=
  match result with
  | some v => do
    let widened ← Action.ofExcept (v.widen.mapError .value)
    State.pushOperand widened
    State.incPc offset
  | none => State.incPc offset

/-- Invokes a pure native method, by an instruction of the given length. -/
def invokeNative (e : Engine ω τ) (method : MethodSignature) (isStatic : Bool)
    (offset : Nat) : Body ω τ := fun s => do
  let parameters ← checked (Descriptor.parameterTypes method.descriptor)
  let (args, s) ← popArguments s parameters.length isStatic
  let result ← Action.ofExcept ((e.natives.invokePure method args).mapError .execution)
  let ((), s) ← onState s (pushResult result offset)
  pure (.done s)

/-- Invokes the method that tells a program whether it runs in this machine, which it does. -/
def invokeIsExplored : Body ω τ := fun s => do
  let ((), s) ← onState s (do
    State.pushOperand (.primitive (.ofInt 1))
    State.incPc invokeStaticLength)
  pure (.done s)

/-! ## Steps -/

/-- What an instruction does, for an engine. -/
def body (e : Engine ω τ) : Instruction → Body ω τ
  | .loadLocal slot _ => e.loadLocal slot
  | .getField name => e.getField name
  | .arrayLoad => e.arrayLoad
  | .newInstance className => e.newInstance className
  | .newArray memberType => e.newArray memberType
  | .invokeNative method isStatic length => e.invokeNative method isStatic length
  | .invokeIsExplored => invokeIsExplored

/-- The successors of a state that is about to execute an instruction. -/
def step (e : Engine ω τ) (i : Instruction) (s : State) :
    Run ω τ (Located ExecutionError) (List State) :=
  e.execute i.length (e.body i) s

end Engine

end SymbolicMachine
