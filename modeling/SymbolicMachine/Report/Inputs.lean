import SymbolicMachine.State
/-!
# Descriptions of inputs

What the inputs of the analysed method must look like for execution to follow the path of a
state.  Each input goes by the text of its origin.  A reference is described by the clause that
decides it, and a primitive by the value that a model of the path condition gives it.
-/
namespace SymbolicMachine

/-- What an input must look like. -/
inductive InputDescription where
  /-- A fresh object of a class. -/
  | object (className : String)
  /-- A fresh array with a length. -/
  | array (className length : String)
  /-- The null reference. -/
  | null
  /-- The same object as another input. -/
  | alias (target : String)
  /-- A primitive with a value. -/
  | constant (value : String)
  deriving DecidableEq, Repr

/-- Values for symbols, by their numbers. -/
abbrev Model : Type := OrderedMap Nat Constant

/-- The descriptions of inputs by the texts of their origins. -/
abbrev InputTable : Type := OrderedMap String InputDescription

namespace Model

/-- The text of a term: the value of a symbol that the model assigns one, and otherwise the
term itself. -/
def render (m : Model) (t : Term) : String :=
  match t with
  | .symbol s =>
    match m.get? s.id with
    | some c => c.text
    | none => s.text
  | _ => t.text

end Model

namespace State

/-- The description of the reference that a clause decides, if it decides one. -/
def describe? (s : State) (m : Model) : Clause → Except MemoryError (Option InputDescription)
  | .isNull _ => .ok (some .null)
  | .expands _ address className =>
    if Descriptor.isArray className then do
      let object ← s.getInitialObject address
      match object.array? with
      | some a => .ok (some (.array className (m.render a.length)))
      | none => .ok (some (.array className ""))
    else .ok (some (.object className))
  | .aliases _ address => do
    let object ← s.getInitialObject address
    match object.origin with
    | some r => .ok (some (.alias r.origin.text))
    | none => .ok (some (.alias (addressText address)))
  | _ => .ok none

/-- Adds the descriptions of the references that clauses decide. -/
def describeReferences (s : State) (m : Model) (table : InputTable) :
    List Clause → Except MemoryError InputTable
  | [] => .ok table
  | c :: rest => do
    let description ← s.describe? m c
    match description, c.reference? with
    | some d, some r => describeReferences s m (table.insert r.origin.text d) rest
    | _, _ => describeReferences s m table rest

/-- The primitive terms that a heap object holds. -/
def termsOfObject : HeapObject → List Term
  | .object i => i.fields.values.filterMap Value.term?
  | .array a => a.length :: a.entries.filterMap (·.value.term?)

/-- The primitive terms that a frame holds. -/
def termsOfFrame (f : Frame) : List Term :=
  f.locals.written.filterMap (·.2.term?) ++ f.operands.toList.filterMap Value.term?

def termOfClause? : Clause → Option Term
  | .assume t => some t
  | _ => none

/-- The primitive terms of the inputs, the frames and the path condition, in that order. -/
def inputTerms (s : State) : List Term :=
  s.initialHeap.objects.values.flatMap termsOfObject ++
    s.frames.reverse.flatMap termsOfFrame ++
    s.pathCondition.clauses.filterMap termOfClause?

/-- The symbols in those terms, each number once. -/
def inputSymbols (s : State) : List Symbol :=
  Symbol.firsts [] (s.inputTerms.flatMap Term.occurrences)

/-- Adds the values that a model gives to symbols. -/
def describeSymbols (m : Model) (table : InputTable) : List Symbol → InputTable
  | [] => table
  | symbol :: rest =>
    match m.get? symbol.id with
    | some c => describeSymbols m (table.insert symbol.origin.text (.constant c.text)) rest
    | none => describeSymbols m table rest

/-- The descriptions of the inputs that lead along the path of a state. -/
def describeInputs (s : State) (m : Model) : Except MemoryError InputTable := do
  let references ← s.describeReferences m .empty s.pathCondition.clauses
  .ok (describeSymbols m references s.inputSymbols)

end State

end SymbolicMachine
