import SymbolicMachine.Explore.Engine
import SymbolicMachine.Oracle.Decorators
import SymbolicMachine.Report.Document
import SymbolicMachine.Report.ErrorKind
import SymbolicMachine.Report.Inputs
/-!
# Descriptions

What a report says about each kind of thing.  Values, terms and clauses are described by their
text; things with parts are described by their named parts.  A result that may be an error is
described by the result or by the error.
-/
namespace SymbolicMachine

/-- Types whose members have a description. -/
class Describe (α : Type) where
  describe : α → Document

export Describe (describe)

/-- A thing stands for its description wherever a document is wanted. -/
instance {α : Type} [Describe α] (a : α) : CoeDep α a Document := ⟨describe a⟩

instance : Describe Document := ⟨id⟩
instance : Describe Unit := ⟨fun _ => .null⟩
instance : Describe Bool := ⟨.flag⟩
instance : Describe Nat := ⟨.number⟩
instance : Describe String := ⟨.text⟩
instance : Describe Term := ⟨fun t => .text t.text⟩
instance : Describe Value := ⟨fun v => .text v.text⟩
instance : Describe RefSymbol := ⟨fun r => .text r.text⟩
instance : Describe Origin := ⟨fun o => .text o.text⟩
instance : Describe PrimType := ⟨fun t => .text t.name⟩
instance : Describe Constant := ⟨fun c => .text c.text⟩
instance : Describe Clause := ⟨fun c => .text c.text⟩
instance : Describe Ending := ⟨fun e => .text e.text⟩

section Compound

variable {α β : Type} [Describe α] [Describe β]

instance : Describe (Option α) := ⟨fun a? => (a?.map describe).getD .null⟩
instance : Describe (List α) := ⟨fun as => .list (as.map describe)⟩
instance : Describe (α × β) := ⟨fun (a, b) => .list [describe a, describe b]⟩

end Compound

/-! ## Errors -/

def Failure.members (f : Failure) : List (String × Document) :=
  [("error", f.kind), ("message", f.message)]

/-- The same with the place of the error, by itself and in the wording. -/
def Located.members (l : Located Failure) : List (String × Document) :=
  ("location", l.location) :: ("located", l.message Failure.message) :: l.cause.members

instance : Describe Failure := ⟨fun f => .group f.members⟩

/-- Where an error comes from: whether one about memory is a flaw in the exploration itself, and
whether one of execution is. -/
def Failure.blame : Failure → List (String × Document)
  | .memory cause => [("engine_fault", cause.isEngineFault), ("internal", .null)]
  | .execution cause => [("engine_fault", .null), ("internal", cause.isInternal)]
  | _ => [("engine_fault", .null), ("internal", .null)]

/-- The errors that are failures of the library. -/
class IsFailure (ε : Type) where
  toFailure : ε → Failure

instance : IsFailure Failure := ⟨id⟩
instance : IsFailure ValueError := ⟨.value⟩
instance : IsFailure MemoryError := ⟨.memory⟩
instance : IsFailure ClassError := ⟨.linkage⟩
instance : IsFailure DecisionError := ⟨.decision⟩
instance : IsFailure ExecutionError := ⟨.execution⟩

instance {ε α : Type} [IsFailure ε] [Describe α] : Describe (Except ε α) :=
  ⟨fun
    | .ok a => describe a
    | .error e => describe (IsFailure.toFailure e)⟩

/-! ## Values and terms -/

/-- A value with its type, and with its origin if it is a symbolic reference. -/
def Value.summary : Value → Document
  | .primitive t => .group [("text", t), ("ty", t.type)]
  | .reference (.symbolic r) =>
    .group [("text", r), ("ty", r.staticType), ("origin", r.origin)]
  | .reference r => .group [("text", r.text), ("ty", "reference")]

/-- Everything about a value by itself, and which of some descriptors it fits. -/
def Value.properties (v : Value) (descriptors : List String) : Document :=
  let target? := v.expectReference.toOption
  .group [
    ("value", v.summary), ("cat_1", v.isNarrow), ("slots", v.slots),
    ("symbolic", v.isSymbolic), ("null", target?.map (·.isNull)),
    ("symbolic_ref", (target?.bind (·.symbol?)).map (·.id)), ("primitive", v.expectTerm),
    ("reference", v.expectReference.map (·.text)), ("widened", v.widen.map summary),
    ("accepted_by", descriptors.filter v.conformsTo)]

/-- A number in the 64-bit format by its bits, all values that are no number being alike. -/
def Binary.bitsText (x : Binary .double) : String :=
  let digits := Text.hexDigits x.bits.toNat
  if x.isNaN then "nan" else String.ofList (List.replicate (16 - digits.length) '0' ++ digits)

/-- The name of a term's shape, and its parts. -/
def Term.shape : Term → String × Document
  | .constant c =>
    ("simplex", .group [
      ("bool", c.toBool?),
      ("i64", c.toInt64?.map fun n => toString n.toInt),
      ("f64", c.toDouble?.map Binary.bitsText),
      ("zero", Constant.zero c.type)])
  | .symbol s => ("symbol", .group [("id", s.id), ("origin", s.origin)])
  | .unary op _ a =>
    ("expression", .group [("operator", op.sign), ("first", .null), ("second", a)])
  | .binary op _ a b =>
    ("expression", .group [("operator", op.sign), ("first", a), ("second", b)])
  | .application _ f args => ("application", .group [("function", f), ("args", args)])
  | .conversion t a =>
    let direction := if widens a.type t then "Widening" else "Narrowing"
    ("conversion", .group [("direction", direction), ("arg", a)])

def Symbol.label (s : Symbol) : String := s!"{s.text}:{s.type.name}:{s.origin.text}"

def Term.summary (t : Term) : Document :=
  .group [
    ("kind", t.shape.1), ("detail", t.shape.2), ("text", t), ("ty", t.type),
    ("symbolic", t.isSymbolic), ("is_true", t.isTrue), ("is_false", t.isFalse),
    ("symbols", t.symbols.map Symbol.label)]

/-! ## Types and classes -/

def PrimType.summary (t : PrimType) : Document :=
  .group [
    ("name", t.name), ("descriptor", t.letter.toString), ("slots", t.slots),
    ("cat_1", t.isNarrow), ("native", t.isStackNative), ("stack_type", t.stackType),
    ("numeric", t.isNumeric), ("integral", t.isIntegral)]

/-- Everything that a text says as a descriptor. -/
def Descriptor.summary (d : String) : Document :=
  .group [
    ("primitive", primType? d), ("is_array", isArray d), ("is_reference", isReference d),
    ("is_void", isVoid d), ("is_primitive", isPrimitive d), ("member", member? d),
    ("static_type", staticType d), ("return_type", returnType d),
    ("parameters", parameterTypes d), ("default", Value.default d), ("package", package d)]

instance : Describe FieldInfo := ⟨fun f =>
  .group [("name", f.name), ("descriptor", f.descriptor), ("is_static", f.isStatic)]⟩

namespace ClassInfo

def declaration (c : ClassInfo) : Document :=
  .group [
    ("name", c.name), ("superclass", c.superclass), ("interfaces", c.interfaces),
    ("is_public", c.isPublic), ("is_abstract", c.isAbstract), ("is_interface", c.isInterface),
    ("fields", c.fields)]

def summary (c : ClassInfo) : Document :=
  .group [
    ("concrete", c.isConcrete), ("package", c.package), ("interface", c.isInterface),
    ("abstract", c.isAbstract), ("public", c.isPublic), ("super", c.superclass)]

end ClassInfo

/-! ## Memory -/

def RefSymbol.label (r : RefSymbol) : String := s!"{r.text} {r.origin.text}"

instance : Describe HeapObject := ⟨fun o =>
  let origin := o.origin.map RefSymbol.label
  match o with
  | .object i => .group [("class", i.className), ("origin", origin), ("fields", i.fields.entries)]
  | .array a =>
    .group [
      ("class", a.className), ("origin", origin), ("length", a.length),
      ("member", a.memberType), ("symbolic", a.isInput),
      ("entries", a.entries.map fun e => (e.index, e.value))]⟩

/-- The objects of a heap by their classes, and the next address. -/
def Heap.summary (h : Heap) : Document :=
  .group [
    ("objects", h.toList.map fun (a, o) => s!"{addressText a} {o.className}"),
    ("len", h.size), ("empty", h.isEmpty), ("next", addressText h.next)]

instance : Describe OperandStack := ⟨fun s => describe s.toList⟩
instance : Describe Locals := ⟨fun l => describe l.written⟩

instance : Describe PathCondition := ⟨fun p =>
  .group [("clauses", p.clauses), ("len", p.size), ("empty", p.isEmpty)]⟩

/-- A clause with the reference that it decides and the address that it binds it to. -/
def Clause.summary (c : Clause) : Document :=
  .group [
    ("text", c), ("reference", c.reference?), ("address", c.address?.map addressText)]

/-- The name of an outcome's kind, and the value that it gives. -/
def AccessOutcome.shape : AccessOutcome → String × Option Value
  | .entry _ v => ("Entry", some v)
  | .unknown _ => ("Unknown", none)
  | .outOfRange _ => ("OutOfRange", none)

instance : Describe AccessOutcome := ⟨fun o =>
  .group [("kind", o.shape.1), ("value", o.shape.2), ("guard", o.guard)]⟩

/-- A state in brief: its place, its path condition and the current operands. -/
def State.summary (s : State) : Document :=
  let f? := s.currentFrame.toOption
  .group [
    ("identifier", s.identifier), ("sequence", s.sequence),
    ("path_condition", s.pathCondition.clauses), ("stuck", s.ending), ("pc", f?.map (·.pc)),
    ("operands", f?.map (·.operands.toList)), ("objects", (s.heap.size, s.initialHeap.size))]

instance : Describe InputDescription := ⟨fun
  | .object c => .group [("kind", "Object"), ("class_name", c)]
  | .array c l => .group [("kind", "Array"), ("class_name", c), ("length", l)]
  | .null => .group [("kind", "Null")]
  | .alias t => .group [("kind", "Alias"), ("target", t)]
  | .constant v => .group [("kind", "Constant"), ("value", v)]⟩

/-! ## Exploration -/

instance : Describe ArrayAccess := ⟨fun a =>
  .group [
    ("guard", a.guard), ("array", addressText a.array), ("index", a.index), ("fresh", a.fresh)]⟩

instance : Describe Alternative := ⟨fun a =>
  .group [
    ("text", a.text), ("kind", a.kind.name), ("class", a.expandedClass?),
    ("reference", a.reference?), ("trivial", a.isTrivial), ("branch", a.branch),
    ("access", a.access)]⟩

def describeCounters (counters : List (String × Nat)) : Document :=
  .group (counters.map fun (name, n) => (name, .number n))

instance : Describe Config := ⟨fun c =>
  .group [
    ("max_depth", c.maxOperandDepth), ("default_slots", c.unwrittenSlot == .useDefault),
    ("array_length", c.assumeArrayLength)]⟩

instance : Describe Statistics := ⟨fun s =>
  .group [("counters", describeCounters s.counters), ("text", s.text)]⟩

instance : Describe QueryCounts := ⟨fun c =>
  .group [("counts", describeCounters c.counters), ("total", c.total)]⟩

end SymbolicMachine
