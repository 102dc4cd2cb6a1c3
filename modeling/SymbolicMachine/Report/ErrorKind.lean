import SymbolicMachine.Explore.Error
/-!
# Kinds of errors

A short name for every kind of error: the area it is from and the kind within the area.  An
error that only passes on another has the kind of that other one.  Reports name errors by their
kind, beside the wording, so that they can be told apart without reading the wording.
-/
namespace SymbolicMachine

def ValueError.kind : ValueError → String
  | .invalidConversion .. => "value.InvalidConversion"
  | .invalidOperand .. => "value.InvalidOperand"
  | .invalidType .. => "value.InvalidType"
  | .notForNative .. => "value.ValueDoesNotSupportNative"
  | .invalidDescriptor .. => "value.InvalidDescriptor"

def MemoryError.kind : MemoryError → String
  | .invalidProgramCounter .. => "memory.InvalidProgramCounter"
  | .invalidSlot .. => "memory.InvalidSlot"
  | .threadStackEmpty => "memory.ThreadStackEmpty"
  | .operandStackEmpty => "memory.OperandStackEmpty"
  | .operandStackOverflow .. => "memory.OperandStackDepthExceeded"
  | .noSuchObject .. => "memory.NoSuchObject"
  | .notAnArray .. => "memory.NotAnArray"
  | .noSuchField .. => "memory.NoSuchField"
  | .unresolvedReference .. => "memory.UnresolvedReference"
  | .alreadyResolved .. => "memory.AlreadyResolved"
  | .nullDereference => "memory.NullDereference"
  | .value cause => cause.kind

def DecisionError.kind : DecisionError → String
  | .failure .. => "decision.Failure"
  | .timeout => "decision.Timeout"
  | .unsupported .. => "decision.Unsupported"

def ClassError.kind : ClassError → String
  | .notFound .. => "class.NotFound"
  | .notAccessible .. => "class.NotAccessible"
  | .endless .. => "class.Endless"

def ExecutionError.kind : ExecutionError → String
  | .decision cause => cause.kind
  | .linkage cause => cause.kind
  | .cannotInvokeNative .. => "execution.CannotInvokeNative"
  | .stoppedByWatchdog => "execution.StoppedByWatchdog"
  | .internal .. => "execution.Internal"

def Failure.kind : Failure → String
  | .value cause => cause.kind
  | .memory cause => cause.kind
  | .decision cause => cause.kind
  | .linkage cause => cause.kind
  | .execution cause => cause.kind
  | .other _ => "Other"

end SymbolicMachine
