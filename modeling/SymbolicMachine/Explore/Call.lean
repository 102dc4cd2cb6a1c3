import SymbolicMachine.Explore.Step
/-!
# Calls

What an embedding program gets back when it calls an operation on a state, or a step.  The numbers
of symbols and of steps are words of 32 bits, and addresses are words of 64 bits.  Operations and
steps count without a bound.  Their arithmetic is checked: a call that counts past the last word
stops the program, and so it does not come back; nor does one that follows superclasses for ever.
Where arithmetic is not checked, all this holds up to the first call that passes a last word.
-/
namespace SymbolicMachine

/-- What a call comes to that does not give what was asked for. -/
inductive CallError (ε : Type) where
  /-- It comes back with an error. -/
  | raised (error : ε)
  /-- It does not come back. -/
  | lost
  deriving DecidableEq, Repr

/-- The counters of the state are words. -/
def State.InRange (s : State) : Prop :=
  s.nextSymbol < UInt32.size ∧ s.sequence < UInt32.size ∧ s.heap.next < UInt64.size

instance (s : State) : Decidable s.InRange :=
  inferInstanceAs (Decidable (_ ∧ _ ∧ _))

namespace CallError

variable {σ ε : Type}

/-- Goes on if the counters of all these states are words. -/
def unlessLost (states : List State) : Action σ (CallError ε) Unit :=
  if ∀ s ∈ states, s.InRange then pure () else Action.fail .lost

/-- What a call comes to where a step has an error. -/
def ofStep (x : Located ExecutionError) : CallError (Located ExecutionError) :=
  if x.cause.isEndless then .lost else .raised x

end CallError

/-- An operation on a state, as it is called. -/
def State.call {α : Type} (m : State.Update α) : Action State (CallError MemoryError) α := do
  let result ← Action.attempt m
  let s ← Action.read
  CallError.unlessLost [s]
  Action.ofExcept (result.mapError .raised)

/-- The state in which a body decided a value. -/
def StepResult.decidedIn : Except Fault StepResult → List State
  | .ok (.decided working _) => [working]
  | _ => []

namespace Engine

variable {ω τ : Type}

/-- A step, as it is called.  An error for the caller comes back even if a counter ran over in a
state that the step dropped with it. -/
def call (e : Engine ω τ) (i : Instruction) (s : State) :
    Run ω τ (CallError (Located ExecutionError)) (List State) := do
  let result ← Action.attempt (e.body i s)
  CallError.unlessLost (StepResult.decidedIn result)
  let successors ← Action.mapError (CallError.ofStep ∘ Located.mk (locationOf s))
    (e.conclude s i.length result)
  CallError.unlessLost successors
  pure successors

/-- The root state of the exploration of a method, as it is asked for.  The fields of a receiver
are looked for first. -/
def callInitial (e : Engine ω τ) (method : MethodSignature) (isStatic : Bool)
    (code : List UInt8) (maxLocals : Nat) (table : List LocalVariable) (maxStack : Nat) :
    Except (CallError MemoryError) State :=
  if !isStatic && e.classes.isEndless method.className then .error .lost
  else do
    let s ← (e.initialState method isStatic code maxLocals table maxStack).mapError .raised
    if s.InRange then .ok s else .error .lost

end Engine

end SymbolicMachine
