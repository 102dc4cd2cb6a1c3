import SymbolicMachine.Report.Document
import SymbolicMachine.State
/-!
# Snapshots

Everything a state holds, rendered as texts, for reports.  Frames are listed from the outermost
to the current one, objects in the order of their addresses.
-/
namespace SymbolicMachine

/-- The rendering of a heap object. -/
structure ObjectSnapshot where
  address : Nat
  className : String
  /-- The origin of the reference that the object was made for. -/
  origin : Option String
  /-- The fields of an instance in name order. -/
  fields : List (String × String)
  /-- The length of an array. -/
  length : Option String
  /-- The recorded members of an array, oldest first. -/
  entries : List (String × String)
  deriving DecidableEq, Repr

/-- The rendering of a written local variable slot. -/
structure LocalSnapshot where
  slot : Nat
  /-- The name of the variable at the program counter, if it has one. -/
  name : Option String
  value : String
  deriving DecidableEq, Repr

/-- The rendering of a frame. -/
structure FrameSnapshot where
  method : String
  pc : Nat
  /-- The operands from the bottom to the top. -/
  operands : List String
  locals : List LocalSnapshot
  deriving DecidableEq, Repr

/-- The rendering of a state. -/
structure Snapshot where
  identifier : String
  sequence : Nat
  pathCondition : List String
  heap : List ObjectSnapshot
  initialHeap : List ObjectSnapshot
  frames : List FrameSnapshot
  stuck : Option String
  deriving DecidableEq, Repr

namespace ObjectSnapshot

def of (address : Nat) (o : HeapObject) : ObjectSnapshot :=
  let origin := o.origin.map (·.origin.text)
  match o with
  | .object i =>
    { address := address
      className := i.className
      origin := origin
      fields := i.fields.entries.map fun (name, v) => (name, v.text)
      length := none
      entries := [] }
  | .array a =>
    { address := address
      className := a.className
      origin := origin
      fields := []
      length := some a.length.text
      entries := a.entries.map fun e => (e.index.text, e.value.text) }

def document (o : ObjectSnapshot) : Document :=
  .group [
    ("address", .number o.address),
    ("class_name", .text o.className),
    ("origin", .ofText? o.origin),
    ("fields", .group (o.fields.map fun (name, v) => (name, .text v))),
    ("length", .ofText? o.length),
    ("entries", .list (o.entries.map fun (index, v) => .list [.text index, .text v]))]

end ObjectSnapshot

def LocalSnapshot.document (l : LocalSnapshot) : String × Document :=
  (toString l.slot, .group [("name", .ofText? l.name), ("value", .text l.value)])

namespace FrameSnapshot

def of (f : Frame) : FrameSnapshot :=
  { method := f.method.text
    pc := f.pc
    operands := f.operands.toList.map (·.text)
    locals := f.locals.written.map fun (slot, v) => ⟨slot, f.locals.nameAt? slot f.pc, v.text⟩ }

def document (f : FrameSnapshot) : Document :=
  .group [
    ("method", .text f.method),
    ("pc", .number f.pc),
    ("operands", .ofTexts f.operands),
    ("locals", .group (f.locals.map (·.document)))]

end FrameSnapshot

namespace Snapshot

def of (s : State) : Snapshot :=
  { identifier := s.identifier
    sequence := s.sequence
    pathCondition := s.pathCondition.clauses.map (·.text)
    heap := s.heap.toList.map fun (a, o) => .of a o
    initialHeap := s.initialHeap.toList.map fun (a, o) => .of a o
    frames := s.frames.reverse.map .of
    stuck := s.ending.map (·.text) }

def document (s : Snapshot) : Document :=
  .group [
    ("identifier", .text s.identifier),
    ("sequence", .number s.sequence),
    ("path_condition", .ofTexts s.pathCondition),
    ("heap", .list (s.heap.map (·.document))),
    ("initial_heap", .list (s.initialHeap.map (·.document))),
    ("frames", .list (s.frames.map (·.document))),
    ("stuck", .ofText? s.stuck)]

def pretty (s : Snapshot) : String := s.document.pretty

end Snapshot

end SymbolicMachine
