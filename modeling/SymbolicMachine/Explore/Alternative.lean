import SymbolicMachine.Terms.Value
/-!
# Alternatives

The candidate outcomes of a step that loads a value: the value is known, or it is a symbolic
reference that turns out to be null, an input object met before, or a fresh object of some
class.  An alternative of an array access also carries the guard under which it happens.
-/
namespace SymbolicMachine

/-- The kind of an alternative. -/
inductive AlternativeKind where
  | loads
  | null
  | aliases
  | expands
  | outOfRange
  deriving DecidableEq, Repr

def AlternativeKind.name : AlternativeKind → String
  | .loads => "Loads"
  | .null => "Null"
  | .aliases => "Aliases"
  | .expands => "Expands"
  | .outOfRange => "OutOfRange"

/-- What a load turns out to be. -/
inductive Decision where
  /-- The value needs no decision. -/
  | loads (value : Value)
  /-- The reference is null. -/
  | null (reference : RefSymbol)
  /-- The reference denotes the input object at an address. -/
  | aliases (reference : RefSymbol) (address : Nat)
  /-- The reference denotes a fresh object of a class. -/
  | expands (reference : RefSymbol) (className : String)
  /-- The array index is out of bounds. -/
  | outOfRange

namespace Decision

def kind : Decision → AlternativeKind
  | loads _ => .loads
  | null _ => .null
  | aliases .. => .aliases
  | expands .. => .expands
  | outOfRange => .outOfRange

def argumentText : Decision → String
  | loads v => s!"({v.text})"
  | null r => s!"({r.text})"
  | aliases r a => s!"({r.text}, {addressText a})"
  | expands r c => s!"({r.text}, {c})"
  | outOfRange => ""

def same : Decision → Decision → Bool
  | loads v, loads w => v == w
  | null r, null q => r == q
  | aliases r a, aliases q b => r == q && a == b
  | expands r c, expands q d => r == q && c == d
  | outOfRange, outOfRange => true
  | _, _ => false

instance : BEq Decision := ⟨same⟩

end Decision

/-- The array access that an alternative belongs to. -/
structure ArrayAccess where
  guard : Term
  array : Nat
  index : Term
  /-- Whether the member is a symbol made for this access, to be recorded in the array. -/
  fresh : Bool

instance : BEq ArrayAccess := ⟨fun a b =>
  a.guard == b.guard && a.array == b.array && a.index == b.index && a.fresh == b.fresh⟩

/-- A candidate outcome of a load. -/
structure Alternative where
  decision : Decision
  access : Option ArrayAccess
  /-- The position among the alternatives that were taken together, from one; zero before. -/
  branch : Nat

/-- Alternatives are told apart by what they decide, not by their position. -/
instance : BEq Alternative := ⟨fun a b => a.decision == b.decision && a.access == b.access⟩

namespace Alternative

/-- An alternative without a position. -/
def create (decision : Decision) (access : Option ArrayAccess) : Alternative :=
  ⟨decision, access, 0⟩

def kind (a : Alternative) : AlternativeKind := a.decision.kind

def expandedClass? (a : Alternative) : Option String :=
  match a.decision with
  | .expands _ c => some c
  | _ => none

def reference? (a : Alternative) : Option RefSymbol :=
  match a.decision with
  | .null r => some r
  | .aliases r _ => some r
  | .expands r _ => some r
  | _ => none

/-- Whether the alternative adds nothing to the path condition. -/
def isTrivial (a : Alternative) : Bool :=
  a.reference?.isNone &&
    match a.access with
    | some access => access.guard.isTrue
    | none => true

def text (a : Alternative) : String :=
  let load := if a.access.isSome then "XALOAD" else "LOAD"
  let guard :=
    match a.access with
    | some access => s!" when {access.guard.text}"
    | none => ""
  s!"{load}_{a.kind.name}{a.decision.argumentText}{guard}"

end Alternative

end SymbolicMachine
