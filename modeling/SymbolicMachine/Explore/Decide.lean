import SymbolicMachine.Explore.Engine
/-!
# Deciding a load

Which alternatives a load has.  A symbolic reference whose target is not decided yet has a
list of candidates in a fixed order: null, each object of the initial heap whose class fits, in
address order, and a fresh object of each concrete class that fits, in the order of the class
table.  The oracle is asked about each candidate under the path condition of the state.  Any
other value loads as it is.

The member of an array has the alternatives of each outcome of the access, under the guard of
that outcome.
-/
namespace SymbolicMachine.Engine

variable {ω τ : Type}

/-- The symbolic reference in a value, if its target is not decided yet. -/
def unresolved? (s : State) : Value → Option RefSymbol
  | .reference (.symbolic r) => if s.isResolved r then none else some r
  | _ => none

/-- The input objects that a reference may denote, with the query that decides it. -/
def aliasCandidates (t : ClassTable) (r : RefSymbol) (objects : List (Nat × HeapObject)) :
    List (Query × Decision) :=
  (objects.filter fun (_, o) => t.isAssignable o.className r.staticType).map fun (a, o) =>
    (.aliases r a o, .aliases r a)

/-- The classes that a reference may denote a fresh object of, with the query that decides
it.  A static type that is not known has none. -/
def expansionCandidates (t : ClassTable) (r : RefSymbol) : List (Query × Decision) :=
  ((t.expansionClasses r.staticType).toOption.getD []).map fun c =>
    (.expands r c, .expands r c)

/-- Everything that a reference may turn out to be, in the order in which it is tried. -/
def candidates (t : ClassTable) (s : State) (r : RefSymbol) : List (Query × Decision) :=
  (.null r, .null r) :: aliasCandidates t r s.initialHeap.toList ++ expansionCandidates t r

/-- The decisions among candidates that the oracle holds feasible. -/
def feasible (e : Engine ω τ) : List (Query × Decision) → Run ω τ ExecutionError (List Decision)
  | [] => pure []
  | (q, d) :: rest => do
    let verdict ← e.query q
    let others ← feasible e rest
    pure (if verdict then d :: others else others)

/-- The alternatives of a reference under the assumptions that the oracle holds. -/
def referenceAlternatives (e : Engine ω τ) (s : State) (r : RefSymbol)
    (access : Option ArrayAccess) : Run ω τ ExecutionError (List Alternative) := do
  let decisions ← e.feasible (candidates e.classes s r)
  pure (decisions.map fun d => .create d access)

def decideLoad (e : Engine ω τ) (s : State) (v : Value) :
    Run ω τ ExecutionError (List Alternative) := do
  Session.count (·.addDecisionPoint)
  match unresolved? s v with
  | some r => do
    e.sync s
    e.referenceAlternatives s r none
  | none => pure [.create (.loads v) none]

/-- The alternatives of loading a value out of an array.  A reference that is not decided yet
is decided under the guard of the access. -/
def memberAlternatives (e : Engine ω τ) (s : State) (v : Value) (access : ArrayAccess) :
    Run ω τ ExecutionError (List Alternative) :=
  match unresolved? s v with
  | some r => do
    Session.consult (e.oracle.push (.assume access.guard))
    e.referenceAlternatives s r (some access)
  | none => pure [.create (.loads v) (some access)]

def onState {α : Type} (s : State) (m : State.Update α) : Run ω τ Fault (α × State) :=
  match m.run s with
  | (.ok a, s') => pure (a, s')
  | (.error error, _) => Action.fail (.memory error)

/-- The value of an array member without a record, and whether it was made for this access:
a fresh symbol in an input array, and the default value in any other. -/
def unrecordedMember (s : State) (a : ArrayObject) (index : Term) :
    Run ω τ Fault ((Value × Bool) × State) :=
  match a.origin with
  | some container => do
    let (v, s') ← onState s (State.createSymbol a.memberType (.member container index))
    pure ((v, true), s')
  | none => do
    let v ← Action.ofExcept (a.defaultMember.mapError .memory)
    pure ((v, false), s)

/-- The alternatives of one feasible outcome of an array access. -/
def outcomeAlternatives (e : Engine ω τ) (s : State) (address : Nat) (a : ArrayObject)
    (index : Term) (outcome : AccessOutcome) : Run ω τ Fault (State × List Alternative) :=
  let access := fun fresh => ArrayAccess.mk outcome.guard address index fresh
  match outcome with
  | .outOfRange _ => pure (s, [.create .outOfRange (some (access false))])
  | .entry _ v => do
    let alternatives ← Action.mapError .execution (e.memberAlternatives s v (access false))
    pure (s, alternatives)
  | .unknown _ => do
    let ((v, fresh), s') ← unrecordedMember s a index
    let alternatives ← Action.mapError .execution (e.memberAlternatives s' v (access fresh))
    pure (s', alternatives)

/-- The alternatives of the outcomes of an array access that the oracle holds feasible.  Each
outcome is asked about under the path condition of the state alone. -/
def decideOutcomes (e : Engine ω τ) (address : Nat) (a : ArrayObject) (index : Term)
    (s : State) : List AccessOutcome → Run ω τ Fault (State × List Alternative)
  | [] => pure (s, [])
  | outcome :: rest => do
    Action.mapError .execution (e.sync s)
    let verdict ← Action.mapError .execution (e.query (.sat outcome.guard))
    if verdict then do
      let (s', here) ← e.outcomeAlternatives s address a index outcome
      let (s'', others) ← decideOutcomes e address a index s' rest
      pure (s'', here ++ others)
    else decideOutcomes e address a index s rest

/-- The alternatives of reading an array member, and the state with the symbol that may have
been made for it. -/
def decideArrayLoad (e : Engine ω τ) (s : State) (address : Nat) (index : Term) :
    Run ω τ Fault (State × List Alternative) := do
  Session.count (·.addDecisionPoint)
  let a ← Action.ofExcept ((s.getArray address).mapError .memory)
  let outcomes ← Action.ofExcept ((a.get index).mapError (.memory ∘ .value))
  e.decideOutcomes address a index s outcomes

end SymbolicMachine.Engine
