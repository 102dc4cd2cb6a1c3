import SymbolicMachine.Terms.Folding
/-!
# Building terms

The operations that build terms.  Each checks the types of its operands, gives the value when
all operands are constants and the value exists, and otherwise makes a node.  A connective
with one constant operand is either that constant or the other operand, and a negation of a
negation is the term below both.
-/
namespace SymbolicMachine

def UnaryOp.accepts : UnaryOp → PrimType → Bool
  | .not, t => t == .boolean
  | .neg, t => t.isStackNative

/-- The type of a binary operator's result on two operands of one type, if it is defined
there.  Order comparisons need numbers, connectives booleans, and arithmetic a type of the
operand stack. -/
def BinaryOp.result? (op : BinaryOp) (t : PrimType) : Option PrimType :=
  if op.isComparison then
    if op == .eq || op == .ne || t.isNumeric then some .boolean else none
  else if op.isConnective then
    if t == .boolean then some .boolean else none
  else
    if t.isStackNative then some t else none

namespace Term

/-- The error of an operator on operands of a type it is not defined on. -/
def noOperator (op : Operator) (t : PrimType) : ValueError := .invalidOperand op.sign t.name

/-- The error of an operator on a pair of operands it does not take. -/
def noOperatorPair (op : Operator) (s t : PrimType) : ValueError :=
  .invalidOperand op.sign s!"{s.name} and {t.name}"

def foldUnary (op : UnaryOp) (a : Term) : Term :=
  match a with
  | constant c =>
    match Constant.fold? op c with
    | some d => constant d
    | none => unary op a.type a
  | unary op' _ b => if op' = op then b else unary op a.type a
  | _ => unary op a.type a

def applyUnary (op : Operator) (a : Term) : Except ValueError Term :=
  match op with
  | .unary u => if u.accepts a.type then .ok (foldUnary u a) else .error (noOperator op a.type)
  | .binary _ => .error (noOperator op a.type)

/-- A connective with an operand of known truth value: the value that decides the connective
decides the result, and the other value leaves the other operand. -/
def connective? (op : BinaryOp) (a b : Term) : Option Term :=
  let deciding := op == .or
  match a.bool? with
  | some v => some (if v = deciding then ofBool deciding else b)
  | none =>
    match b.bool? with
    | some v => some (if v = deciding then ofBool deciding else a)
    | none => none

/-- The constant that a binary operator folds to when both operands are constants. -/
def foldedPair? (op : BinaryOp) (a b : Term) : Option Constant :=
  match a, b with
  | constant c, constant d => Constant.foldPair? op c d
  | _, _ => none

/-- A binary operator on terms it is defined on, with a result of type `t`. -/
def foldBinary (op : BinaryOp) (t : PrimType) (a b : Term) : Term :=
  match foldedPair? op a b with
  | some c => constant c
  | none =>
    if op.isConnective then (connective? op a b).getD (binary op t a b) else binary op t a b

/-- Applies an operator to two terms, which must have the same type. -/
def applyBinary (op : Operator) (a b : Term) : Except ValueError Term :=
  match op with
  | .unary _ => .error (noOperatorPair op a.type b.type)
  | .binary o =>
    if b.type = a.type then
      match o.result? a.type with
      | some t => .ok (foldBinary o t a b)
      | none => .error (noOperator op a.type)
    else .error (noOperatorPair op a.type b.type)

def mkNot (a : Term) : Except ValueError Term := applyUnary (.unary .not) a

def mkAnd (a b : Term) : Except ValueError Term := applyBinary (.binary .and) a b

def mkEq (a b : Term) : Except ValueError Term := applyBinary (.binary .eq) a b

def mkNe (a b : Term) : Except ValueError Term := applyBinary (.binary .ne) a b

/-- That one number is below another. -/
def mkLt (a b : Term) : Except ValueError Term := applyBinary (.binary .lt) a b

/-- That one number is not below another. -/
def mkGe (a b : Term) : Except ValueError Term := applyBinary (.binary .ge) a b

/-- The conjunction of the terms of a list onto a first one, from left to right. -/
def mkAllOnto (a : Term) : List Term → Except ValueError Term
  | [] => .ok a
  | b :: rest =>
    match mkAnd a b with
    | .ok c => mkAllOnto c rest
    | .error e => .error e

/-- The conjunction of a list of booleans, which is `true` for the empty list. -/
def mkAll (terms : List Term) : Except ValueError Term := mkAllOnto (ofBool true) terms

/-- Converts a term to another type.  Constants are converted; other terms take a conversion
node, from `boolean` to `int` and between numeric types only. -/
def convert (a : Term) (target : PrimType) : Except ValueError Term :=
  if a.type = target then .ok a
  else
    match a with
    | constant c => (c.convert target).map constant
    | _ =>
      if a.type = .boolean ∧ target = .int then .ok (conversion target a)
      else if a.type.isNumeric && target.isNumeric then .ok (conversion target a)
      else .error (Constant.noConversion a.type target)

end Term

end SymbolicMachine
