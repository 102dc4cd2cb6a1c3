import SymbolicMachine.Explore.Error
/-!
# Pure native methods

A native method without side effects is not executed.  Without a result it does nothing; a
reference result is taken to be null; a primitive result is computed by an evaluator if all
arguments are constants, and is otherwise the application of a function symbol named after the
method.
-/
namespace SymbolicMachine

/-- The error of a native method that cannot be evaluated. -/
def cannotInvoke (method : MethodSignature) (reason : String) : ExecutionError :=
  .cannotInvokeNative method.text reason

/-- What evaluates native methods on constants. -/
structure NativeEvaluator where
  /-- The result of a method, without its receiver. -/
  invoke : MethodSignature → List Constant → Except ExecutionError Constant

def NativeEvaluator.absent : NativeEvaluator :=
  ⟨fun method _ => .error (cannotInvoke method "no native evaluator is configured")⟩

/-- Implementations of native methods by the text of the method.  An implementation may reject
its arguments. -/
structure NativeTable where
  functions : OrderedMap String (List Constant → Option Constant)

namespace NativeTable

/-- The table without implementations. -/
def empty : NativeTable := ⟨.empty⟩

/-- The table with one more implementation, in place of any other of the same method. -/
def insert (t : NativeTable) (method : MethodSignature)
    (function : List Constant → Option Constant) : NativeTable :=
  ⟨t.functions.insert method.text function⟩

def evaluator (t : NativeTable) : NativeEvaluator :=
  ⟨fun method args =>
    match t.functions.get? method.text with
    | none => .error (cannotInvoke method "no implementation is registered")
    | some function =>
      match function args with
      | none => .error (cannotInvoke method "the implementation rejected its arguments")
      | some result => .ok result⟩

end NativeTable

namespace NativeEvaluator

def argumentTerms (method : MethodSignature) : List Value → Except ExecutionError (List Term)
  | [] => .ok []
  | .primitive t :: rest => do
    let others ← argumentTerms method rest
    .ok (t :: others)
  | .reference r :: _ =>
    .error (cannotInvoke method (ValueError.notForNative r.text).message)

def constants? : List Term → Option (List Constant)
  | [] => some []
  | t :: rest => do
    let c ← t.constant?
    let others ← constants? rest
    some (c :: others)

/-- The result of a method with a primitive result on terms. -/
def apply (e : NativeEvaluator) (method : MethodSignature) (type : PrimType)
    (args : List Term) : Except ExecutionError Term :=
  match constants? args with
  | none => .ok (.application type method.text args)
  | some constants =>
    match e.invoke method constants with
    | .error error => .error error
    | .ok result =>
      if result.type = type then .ok (.constant result)
      else
        .error (cannotInvoke method (ValueError.invalidType type.name result.type.name).message)

/-- The result of a pure native method on arguments without the receiver, if it has one. -/
def invokePure (e : NativeEvaluator) (method : MethodSignature) (args : List Value) :
    Except ExecutionError (Option Value) :=
  match Descriptor.returnType method.descriptor with
  | .error error => .error (cannotInvoke method error.message)
  | .ok result =>
    if Descriptor.isVoid result then .ok none
    else
      match Descriptor.primType? result with
      | none => .ok (some (.reference .null))
      | some type => do
        let terms ← argumentTerms method args
        let term ← e.apply method type terms
        .ok (some (.primitive term))

end NativeEvaluator

end SymbolicMachine
