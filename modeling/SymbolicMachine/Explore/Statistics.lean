/-!
# Statistics

The counters kept over an exploration.  The statistics of two explorations add up.
-/
namespace SymbolicMachine

/-- What the end of a path means for the analysed program. -/
inductive PathOutcome where
  | safe
  | unsafeEnd
  | outOfScope
  | violatingAssumption
  | unmanageable
  deriving DecidableEq, Repr

/-- The counters of an exploration. -/
structure Statistics where
  /-- The number of loads and allocations that were decided. -/
  decisionPoints : Nat
  /-- The number of queries answered with yes. -/
  feasible : Nat
  /-- The number of queries answered with no. -/
  infeasible : Nat
  /-- The number of successor states. -/
  successors : Nat
  /-- The number of paths of any outcome. -/
  pathsTotal : Nat
  /-- The number of paths of each outcome. -/
  pathsSafe : Nat
  pathsUnsafe : Nat
  pathsOutOfScope : Nat
  pathsViolatingAssumption : Nat
  pathsUnmanageable : Nat
  deriving DecidableEq, Repr

namespace Statistics

def zero : Statistics := ⟨0, 0, 0, 0, 0, 0, 0, 0, 0, 0⟩

def recordPath (s : Statistics) (outcome : PathOutcome) : Statistics :=
  let s := { s with pathsTotal := s.pathsTotal + 1 }
  match outcome with
  | .safe => { s with pathsSafe := s.pathsSafe + 1 }
  | .unsafeEnd => { s with pathsUnsafe := s.pathsUnsafe + 1 }
  | .outOfScope => { s with pathsOutOfScope := s.pathsOutOfScope + 1 }
  | .violatingAssumption => { s with pathsViolatingAssumption := s.pathsViolatingAssumption + 1 }
  | .unmanageable => { s with pathsUnmanageable := s.pathsUnmanageable + 1 }

def recordVerdict (s : Statistics) (verdict : Bool) : Statistics :=
  if verdict then { s with feasible := s.feasible + 1 }
  else { s with infeasible := s.infeasible + 1 }

def addDecisionPoint (s : Statistics) : Statistics :=
  { s with decisionPoints := s.decisionPoints + 1 }

def addSuccessors (s : Statistics) (count : Nat) : Statistics :=
  { s with successors := s.successors + count }

def plus (a b : Statistics) : Statistics :=
  { decisionPoints := a.decisionPoints + b.decisionPoints
    feasible := a.feasible + b.feasible
    infeasible := a.infeasible + b.infeasible
    successors := a.successors + b.successors
    pathsTotal := a.pathsTotal + b.pathsTotal
    pathsSafe := a.pathsSafe + b.pathsSafe
    pathsUnsafe := a.pathsUnsafe + b.pathsUnsafe
    pathsOutOfScope := a.pathsOutOfScope + b.pathsOutOfScope
    pathsViolatingAssumption := a.pathsViolatingAssumption + b.pathsViolatingAssumption
    pathsUnmanageable := a.pathsUnmanageable + b.pathsUnmanageable }

def counters (s : Statistics) : List (String × Nat) :=
  [("decision_points", s.decisionPoints),
    ("alternatives_feasible", s.feasible),
    ("alternatives_infeasible", s.infeasible),
    ("successors", s.successors),
    ("paths_total", s.pathsTotal),
    ("paths_safe", s.pathsSafe),
    ("paths_unsafe", s.pathsUnsafe),
    ("paths_out_of_scope", s.pathsOutOfScope),
    ("paths_violating_assumption", s.pathsViolatingAssumption),
    ("paths_unmanageable", s.pathsUnmanageable)]

def text (s : Statistics) : String :=
  let first := s!"Decision points: {s.decisionPoints} ({s.feasible} feasible and " ++
    s!"{s.infeasible} infeasible alternatives, {s.successors} successors)"
  let second := s!"Paths: {s.pathsTotal} total, {s.pathsSafe} safe, " ++
    s!"{s.pathsUnsafe} unsafe, {s.pathsOutOfScope} out of scope, " ++
    s!"{s.pathsViolatingAssumption} violating assumptions, {s.pathsUnmanageable} unmanageable"
  first ++ "\n" ++ second

end Statistics

end SymbolicMachine
