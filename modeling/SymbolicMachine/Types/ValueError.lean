import SymbolicMachine.Text.Quoted
/-!
# Errors about values

The ways in which building, converting or describing a value can go wrong.  Every operation
that can fail on values fails with one of these, and the wording of each is in `message`.
-/
namespace SymbolicMachine

/-- Why a value could not be built, converted or described. -/
inductive ValueError where
  /-- There is no conversion from one type to the other. -/
  | invalidConversion (source target : String)
  /-- An operator was applied to operands it is not defined on. -/
  | invalidOperand (operator found : String)
  /-- A value of one type was needed and one of another type was given. -/
  | invalidType (expected found : String)
  /-- A native method can neither take nor return the value. -/
  | notForNative (value : String)
  /-- A text is not a descriptor of the needed kind. -/
  | invalidDescriptor (descriptor : String)
  deriving DecidableEq, Repr

def ValueError.message : ValueError → String
  | .invalidConversion source target =>
    s!"A value of type {source} cannot be converted to {target}"
  | .invalidOperand operator found =>
    s!"The operator {operator} cannot be applied to operands of type {found}"
  | .invalidType expected found =>
    s!"Expected a value of type {expected} but found one of type {found}"
  | .notForNative value =>
    s!"The value {value} cannot be passed to or returned from a native method"
  | .invalidDescriptor descriptor =>
    let text := Text.quoted descriptor
    s!"The descriptor {text} is malformed"

end SymbolicMachine
