import SymbolicMachine.Explore.Call
/-!
# Explorations

An exploration under way: an engine, what it keeps from step to step, and the states found so
far, numbered in the order in which they were found.  The states of the last step are its
frontier.  A step never takes a state away; it adds the successors behind the states there are.
-/
namespace SymbolicMachine

/-- An exploration under way. -/
structure Exploration (ω τ : Type) where
  engine : Engine ω τ
  session : Session ω τ
  /-- The states found so far, by number. -/
  states : List State
  /-- The numbers of the states that were found last. -/
  frontier : List Nat

namespace Exploration

variable {ω τ ε α : Type}

def start (engine : Engine ω τ) (session : Session ω τ) : Exploration ω τ :=
  ⟨engine, session, [], []⟩

/-- The state with a number, and the root state for a number that no state has. -/
def state (x : Exploration ω τ) (number : Nat) : State := x.states[number]?.getD .root

/-- The states of the frontier whose paths have not ended. -/
def live (x : Exploration ω τ) : List Nat := x.frontier.filter fun n => !(x.state n).isStuck

def perform (m : Run ω τ ε α) : Action (Exploration ω τ) ε α :=
  Action.onPart session (fun s x => { x with session := s }) m

/-- Adds states, and gives their numbers. -/
def add (states : List State) : Action (Exploration ω τ) ε (List Nat) := fun x =>
  (.ok (List.range' x.states.length states.length), { x with states := x.states ++ states })

def focus (numbers : List Nat) : Action (Exploration ω τ) ε Unit :=
  Action.update fun x => { x with frontier := numbers }

def update (number : Nat) (m : State.Update α) :
    Action (Exploration ω τ) (CallError MemoryError) α :=
  Action.onPart (·.state number) (fun s x => { x with states := x.states.set number s })
    (State.call m)

/-- Adds the successors of the state with a number, and gives them with their numbers. -/
def advance (number : Nat) (successors : State → Run ω τ ε (List State)) :
    Action (Exploration ω τ) ε (List (Nat × State)) := do
  let x ← Action.read
  let states ← perform (successors (x.state number))
  let numbers ← add states
  pure (numbers.zip states)

end Exploration

end SymbolicMachine
