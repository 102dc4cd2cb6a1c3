import SymbolicMachine.Oracle.Basic
import SymbolicMachine.Types.Hierarchy
/-!
# Errors of an exploration

What escapes from the execution of an instruction.  A flaw in the analysed program never does:
it ends the path of the state that has it.  What remains is an oracle without an answer, a
native method that cannot be evaluated, a stop that was asked for, and a flaw in the
exploration itself.  An error that leaves a step says at which instruction it arose.
-/
namespace SymbolicMachine

/-- Why the execution of an instruction was abandoned. -/
inductive ExecutionError where
  /-- The oracle gave no answer. -/
  | decision (cause : DecisionError)
  /-- A class could not be used. -/
  | linkage (cause : ClassError)
  /-- A native method could not be evaluated. -/
  | cannotInvokeNative (method reason : String)
  /-- The watchdog asked to stop. -/
  | stoppedByWatchdog
  /-- The exploration itself is flawed. -/
  | internal (message : String)
  deriving DecidableEq, Repr

namespace ExecutionError

def message : ExecutionError → String
  | decision cause => cause.message
  | linkage cause => cause.message
  | cannotInvokeNative method reason => s!"Cannot invoke native method {method}: {reason}"
  | stoppedByWatchdog => "Execution was stopped by the watchdog"
  | internal m => s!"Internal invariant violated: {m}"

def isInternal : ExecutionError → Bool
  | internal _ => true
  | _ => false

/-- Whether the error stands for a search without end. -/
def isEndless : ExecutionError → Bool
  | linkage cause => cause.isEndless
  | _ => false

end ExecutionError

/-- Any error of the library. -/
inductive Failure where
  | value (cause : ValueError)
  | memory (cause : MemoryError)
  | decision (cause : DecisionError)
  | linkage (cause : ClassError)
  | execution (cause : ExecutionError)
  /-- An error of the embedding program. -/
  | other (message : String)
  deriving DecidableEq, Repr

def Failure.message : Failure → String
  | .value cause => cause.message
  | .memory cause => cause.message
  | .decision cause => cause.message
  | .linkage cause => cause.message
  | .execution cause => cause.message
  | .other m =>
    let text := Text.quoted m
    s!"Unknown Error: {text}"

/-- An error with the program counter of the instruction at which it arose. -/
structure Located (ε : Type) where
  location : Nat
  cause : ε
  deriving DecidableEq, Repr

namespace Located

variable {ε ε' : Type}

def map (f : ε → ε') (l : Located ε) : Located ε' := ⟨l.location, f l.cause⟩

def pcDigits (pc : Nat) : List Char :=
  let digits := Text.hexDigits pc
  List.replicate (8 - digits.length) '0' ++ digits

/-- The wording of a located error, given the wording of the error. -/
def message (wording : ε → String) (l : Located ε) : String :=
  s!"[pc 0x{String.ofList (pcDigits l.location)}]: {wording l.cause}"

end Located

end SymbolicMachine
