import SymbolicMachine.Explore.Decide
/-!
# Refining a state

Turns a state into one successor for each alternative, in order.  A successor is the state with
the alternative assumed, the loaded value on the operand stack in its stack form, the triggers
run, and the program counter moved on unless a trigger suppressed it.  A fault ends the path of
the one successor that has it and leaves the others alone.
-/
namespace SymbolicMachine.Engine

variable {ω τ : Type}

abbrev Refinement (ω τ α : Type) : Type := Action (State × Session ω τ) Fault α

def updating {α : Type} (m : State.Update α) : Refinement ω τ α :=
  Action.mapError .memory (Action.onPart (·.1) (fun s w => (s, w.2)) m)

def consulting {α : Type} (m : Run ω τ ExecutionError α) : Refinement ω τ α :=
  Action.mapError .execution (Action.onPart (·.2) (fun ses w => (w.1, ses)) m)

def triggering (e : Engine ω τ) (a : Alternative) : Refinement ω τ Bool :=
  Action.mapError .execution
    (Action.onPart (fun w => (w.1, w.2.trail))
      (fun st w => (st.1, { w.2 with trail := st.2 })) (e.triggers.run a))

/-- Assumes that the length of an input array is not negative, in the form that the oracle
gives that assumption. -/
def assumeLength (e : Engine ω τ) (address : Nat) : Refinement ω τ Unit := do
  let (s, _) ← Action.read
  let a ← Action.ofExcept ((s.getArray address).mapError .memory)
  let nonnegative ← Action.ofExcept ((a.length.mkGe (.ofInt 0)).mapError (.memory ∘ .value))
  consulting (e.sync s)
  let simplified ← consulting (Session.consult (e.oracle.simplify nonnegative))
  updating (State.assume simplified)

/-- The instance fields of a class that is not an array type. -/
def expandedFields (e : Engine ω τ) (className : String) : Except ClassError (List FieldInfo) :=
  if Descriptor.isArray className then .ok [] else e.classes.instanceFields className

def expand (e : Engine ω τ) (r : RefSymbol) (className : String) : Refinement ω τ Unit := do
  let fields ← Action.ofExcept ((e.expandedFields className).mapError .linkage)
  let address ← updating (State.assumeExpands r className fields)
  if Descriptor.isArray className && e.config.assumeArrayLength then e.assumeLength address
  else pure ()

/-- Assumes the guard of an array access, unless it is literally `true`. -/
def assumeGuard (a : Alternative) : Refinement ω τ Unit :=
  match a.access with
  | some access => if access.guard.isTrue then pure () else updating (State.assume access.guard)
  | none => pure ()

/-- Assumes what is decided, and gives the loaded value if there is one. -/
def assumeDecision (e : Engine ω τ) : Decision → Refinement ω τ (Option Value)
  | .outOfRange => pure none
  | .loads v => pure (some v)
  | .null r => do
    updating (State.assumeNull r)
    pure (some (.reference (.symbolic r)))
  | .aliases r address => do
    updating (State.assumeAliases r address)
    pure (some (.reference (.symbolic r)))
  | .expands r className => do
    e.expand r className
    pure (some (.reference (.symbolic r)))

def recordFresh (a : Alternative) (v : Value) : Refinement ω τ Unit :=
  match a.access with
  | some access =>
    if access.fresh then updating (State.arraySet access.array access.index v) else pure ()
  | none => pure ()

/-- The class of the exception of an array access out of bounds. -/
def indexOutOfBounds : String := "java/lang/ArrayIndexOutOfBoundsException"

/-- Loads a value: records it if it is fresh, pushes it, runs the triggers and moves on. -/
def load (e : Engine ω τ) (a : Alternative) (offset : Nat) (v : Value) :
    Refinement ω τ Unit := do
  recordFresh a v
  let widened ← Action.ofExcept (v.widen.mapError (.memory ∘ .value))
  updating (State.pushOperand widened)
  let advance ← e.triggering a
  if advance then updating (State.incPc offset) else pure ()

def apply (e : Engine ω τ) (a : Alternative) (offset : Nat) : Refinement ω τ Unit := do
  assumeGuard a
  let loaded ← e.assumeDecision a.decision
  match loaded with
  | none => Action.update fun (s, ses) => ((s.throwNew indexOutOfBounds).2, ses)
  | some v => e.load a offset v

/-- A state as the successor with a number: one of several starts a branch, and the only one
goes on. -/
def successorOf (parent : State) (branching : Bool) (number : Nat) : State :=
  if branching then parent.addBranch number else parent.incSequence

def refineOne (e : Engine ω τ) (parent : State) (branching : Bool) (offset number : Nat)
    (a : Alternative) : Run ω τ ExecutionError State := fun ses =>
  match (e.apply { a with branch := number } offset).run
      (successorOf parent branching number, ses) with
  | (.ok (), (s, ses')) => (.ok s, ses')
  | (.error fault, (s, ses')) => (fault.settle s, ses')

/-- The successors for alternatives numbered from `number` on. -/
def refineFrom (e : Engine ω τ) (parent : State) (branching : Bool) (offset : Nat)
    (number : Nat) : List Alternative → Run ω τ ExecutionError (List State)
  | [] => pure []
  | a :: rest => do
    let s ← e.refineOne parent branching offset number a
    Session.count (·.addSuccessors 1)
    let others ← refineFrom e parent branching offset (number + 1) rest
    pure (s :: others)

/-- The successors of a state, one for each alternative. -/
def refine (e : Engine ω τ) (parent : State) (alternatives : List Alternative) (offset : Nat) :
    Run ω τ ExecutionError (List State) :=
  e.refineFrom parent (decide (1 < alternatives.length)) offset 1 alternatives

end SymbolicMachine.Engine
