import SymbolicMachine.State
/-!
# Oracles

An oracle decides which outcomes of a step are feasible.  It keeps a list of assumptions and
answers every query under them.  One oracle serves all states of an exploration, so before it
is asked on behalf of a state its assumptions are replaced by that state's path condition.

An oracle is a record of actions on a state of its own, so that nothing is known of it but
what it answers.
-/
namespace SymbolicMachine

/-- Why an oracle gave no answer. -/
inductive DecisionError where
  | failure (message : String)
  | timeout
  | unsupported (query : String)
  deriving DecidableEq, Repr

def DecisionError.message : DecisionError → String
  | .failure m => s!"The decision procedure failed: {m}"
  | .timeout => "The decision procedure timed out"
  | .unsupported q => s!"The decision procedure does not support {q}"

/-- A question about feasibility under the current assumptions. -/
inductive Query where
  /-- Can the boolean term hold? -/
  | sat (condition : Term)
  /-- Can the reference be null? -/
  | null (reference : RefSymbol)
  /-- Can the reference denote the object bound to the address? -/
  | aliases (reference : RefSymbol) (address : Nat) (object : HeapObject)
  /-- Can the reference denote a fresh object of the class? -/
  | expands (reference : RefSymbol) (className : String)
  /-- Can the class have been initialized before execution started? -/
  | initialized (className : String)
  /-- Can the class not have been initialized before execution started? -/
  | notInitialized (className : String)

/-- An oracle with a state of type `ω`. -/
structure Oracle (ω : Type) where
  push : Clause → Action ω DecisionError Unit
  clear : Action ω DecisionError Unit
  set : List Clause → Action ω DecisionError Unit
  assumptions : ω → Except DecisionError (List Clause)
  ask : Query → Action ω DecisionError Bool
  /-- An equivalent, hopefully simpler, term. -/
  simplify : Term → Action ω DecisionError Term

namespace Oracle

variable {ω : Type}

def pushAll (push : Clause → Action ω DecisionError Unit) :
    List Clause → Action ω DecisionError Unit
  | [] => pure ()
  | c :: rest => do
    push c
    pushAll push rest

/-- Replaces the assumptions by dropping them and adding the new ones one after another. -/
def clearAndPush (clear : Action ω DecisionError Unit)
    (push : Clause → Action ω DecisionError Unit) (clauses : List Clause) :
    Action ω DecisionError Unit := do
  clear
  pushAll push clauses

/-- Replaces the assumptions by the path condition of a state. -/
def syncWith (o : Oracle ω) (s : State) : Action ω DecisionError Unit :=
  o.set s.pathCondition.clauses

/-- The oracle that holds everything feasible but the term `false`. -/
def permissive : Oracle (List Clause) :=
  let push := fun c => Action.update (· ++ [c])
  let clear := Action.write []
  { push := push
    clear := clear
    set := clearAndPush clear push
    assumptions := .ok
    ask := fun q =>
      match q with
      | .sat condition => pure (!condition.isFalse)
      | _ => pure true
    simplify := pure }

end Oracle

end SymbolicMachine
