import SymbolicMachine.Terms.Constant
/-!
# Terms and origins

A term is a symbolic primitive value: a constant, a symbol, or an operator, function or
conversion applied to terms.  Operator nodes carry the type of their result.  A symbol carries
the origin it was created for, and an origin may name the reference it hangs off and the index
term it was read at, so the four types are defined together.

Symbols are told apart by their number alone: `same` ignores the type and the origin that a
symbol carries, and compares everything else structurally.
-/
namespace SymbolicMachine

/-- An operator on one operand. -/
inductive UnaryOp where
  | neg
  | not
  deriving DecidableEq, Repr

/-- An operator on two operands. -/
inductive BinaryOp where
  | add
  | sub
  | mul
  | div
  | rem
  | eq
  | ne
  | lt
  | le
  | gt
  | ge
  | and
  | or
  deriving DecidableEq, Repr

/-- An operator of either kind. -/
inductive Operator where
  | unary (op : UnaryOp)
  | binary (op : BinaryOp)
  deriving DecidableEq, Repr

def UnaryOp.sign : UnaryOp → String
  | .neg => "-"
  | .not => "!"

def BinaryOp.sign : BinaryOp → String
  | .add => "+"
  | .sub => "-"
  | .mul => "*"
  | .div => "/"
  | .rem => "%"
  | .eq => "=="
  | .ne => "!="
  | .lt => "<"
  | .le => "<="
  | .gt => ">"
  | .ge => ">="
  | .and => "&&"
  | .or => "||"

def Operator.sign : Operator → String
  | .unary op => op.sign
  | .binary op => op.sign

/-- Whether an operator compares its operands, giving a boolean. -/
def BinaryOp.isComparison : BinaryOp → Bool
  | .eq | .ne | .lt | .le | .gt | .ge => true
  | _ => false

def BinaryOp.isConnective : BinaryOp → Bool
  | .and | .or => true
  | _ => false

mutual

/-- A symbolic primitive value. -/
inductive Term where
  | constant (value : Constant)
  | symbol (atom : Symbol)
  | unary (op : UnaryOp) (type : PrimType) (arg : Term)
  | binary (op : BinaryOp) (type : PrimType) (left right : Term)
  /-- A function without an interpretation applied to terms. -/
  | application (type : PrimType) (function : String) (args : List Term)
  | conversion (target : PrimType) (arg : Term)

/-- An unknown primitive value, identified by its number. -/
structure Symbol where
  id : Nat
  type : PrimType
  origin : Origin

/-- How a symbol came into being. -/
inductive Origin where
  /-- A named input of the analysed method. -/
  | root (name : String)
  /-- A field of the object that a reference denotes. -/
  | field (container : RefSymbol) (name : String)
  /-- A member of the array that a reference denotes. -/
  | member (container : RefSymbol) (index : Term)
  /-- The length of the array that a reference denotes. -/
  | length (container : RefSymbol)
  /-- A value returned by a native method, with its position among them. -/
  | native (method : String) (sequence : Nat)

/-- A reference whose target has not been decided, identified by its number. -/
structure RefSymbol where
  id : Nat
  /-- A class name, or the descriptor of an array type. -/
  staticType : String
  origin : Origin

end

instance : Inhabited Origin := ⟨.root ""⟩

def Symbol.text (s : Symbol) : String := s!"\x7bV{s.id}\x7d"

def RefSymbol.text (r : RefSymbol) : String := s!"\x7bR{r.id}\x7d"

/-- Two symbolic references are the same if their numbers agree. -/
instance : BEq RefSymbol := ⟨fun a b => a.id == b.id⟩

/-- Two symbolic primitives are the same if their numbers agree. -/
instance : BEq Symbol := ⟨fun a b => a.id == b.id⟩

@[simp] theorem RefSymbol.beq_eq (a b : RefSymbol) : (a == b) = (a.id == b.id) := rfl

@[simp] theorem Symbol.beq_eq (a b : Symbol) : (a == b) = (a.id == b.id) := rfl

namespace Term

def type : Term → PrimType
  | constant c => c.type
  | symbol s => s.type
  | unary _ t _ => t
  | binary _ t _ _ => t
  | application t _ _ => t
  | conversion t _ => t

def isSymbolic : Term → Bool
  | constant _ => false
  | _ => true

def constant? : Term → Option Constant
  | constant c => some c
  | _ => none

def bool? (t : Term) : Option Bool := t.constant?.bind Constant.toBool?

/-- Whether a term is literally `true`. -/
def isTrue (t : Term) : Bool := t.bool? == some true

/-- Whether a term is literally `false`. -/
def isFalse (t : Term) : Bool := t.bool? == some false

def ofBool (b : Bool) : Term := constant (.boolean b)

def ofInt (n : Int32) : Term := constant (.int n)

/-- Whether converting from one type to another goes up in the widening order. -/
def widens (source target : PrimType) : Bool := source.rank < target.rank

mutual

/-- The text of a term: operators stand between their operands in parentheses, and a
conversion names its direction and the letter of its target. -/
def text : Term → String
  | constant c => c.text
  | symbol s => s.text
  | unary op _ a => s!"({op.sign}{a.text})"
  | binary op _ a b => s!"({a.text} {op.sign} {b.text})"
  | application _ f args =>
    let arguments := String.intercalate ", " (texts args)
    s!"{f}({arguments})"
  | conversion t a =>
    let direction := if widens a.type t then "WIDEN" else "NARROW"
    s!"{direction}-{t.letter}({a.text})"

def texts : List Term → List String
  | [] => []
  | a :: rest => a.text :: texts rest

end

mutual

/-- Whether two terms have the same structure over the same symbols. -/
def same : Term → Term → Bool
  | constant a, constant b => a == b
  | symbol a, symbol b => a == b
  | unary op s a, unary op' t b => op == op' && s == t && same a b
  | binary op s a a', binary op' t b b' => op == op' && s == t && same a b && same a' b'
  | application s f args, application t g args' => s == t && f == g && sameAll args args'
  | conversion s a, conversion t b =>
    s == t && widens a.type s == widens b.type t && same a b
  | _, _ => false

def sameAll : List Term → List Term → Bool
  | [], [] => true
  | a :: as, b :: bs => same a b && sameAll as bs
  | _, _ => false

end

instance : BEq Term := ⟨same⟩

mutual

/-- Every occurrence of a symbol in a term, from left to right. -/
def occurrences : Term → List Symbol
  | constant _ => []
  | symbol s => [s]
  | unary _ _ a => a.occurrences
  | binary _ _ a b => a.occurrences ++ b.occurrences
  | application _ _ args => occurrencesAll args
  | conversion _ a => a.occurrences

/-- Every occurrence of a symbol in a list of terms, from left to right. -/
def occurrencesAll : List Term → List Symbol
  | [] => []
  | a :: rest => a.occurrences ++ occurrencesAll rest

end

end Term

namespace Symbol

/-- Keeps the first of the symbols with each number, skipping those in `seen`. -/
def firsts (seen : List Nat) : List Symbol → List Symbol
  | [] => []
  | s :: rest =>
    if seen.contains s.id then firsts seen rest else s :: firsts (s.id :: seen) rest

end Symbol

/-- The symbols of a term in order of first occurrence, each number once. -/
def Term.symbols (t : Term) : List Symbol := Symbol.firsts [] t.occurrences

namespace Origin

/-- The symbolic reference that an origin hangs off. -/
def container? : Origin → Option RefSymbol
  | field c _ => some c
  | member c _ => some c
  | length c => some c
  | root _ => none
  | native _ _ => none

/-- The text of an origin: the access path from a named input. -/
def text : Origin → String
  | root name => s!"\x7bROOT\x7d:{name}"
  | field ⟨_, _, origin⟩ name => s!"{origin.text}.{name}"
  | member ⟨_, _, origin⟩ index => s!"{origin.text}[{index.text}]"
  | length ⟨_, _, origin⟩ => s!"{origin.text}.length"
  | native method sequence => s!"\x7bNATIVE\x7d:{method}#{sequence}"

end Origin

end SymbolicMachine
