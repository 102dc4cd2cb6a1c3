import SymbolicMachine.Explore.Alternative
import SymbolicMachine.Explore.Error
/-!
# Triggers

Hooks that run when an alternative is taken, after its value was pushed and before the program
counter moves.  A trigger may change the successor state and whatever state triggers keep
among themselves, and it may keep the program counter where it is.
-/
namespace SymbolicMachine

/-- What a trigger says about the program counter. -/
inductive Advance where
  | continue
  | suppress
  deriving DecidableEq, Repr

/-- An action of triggers with a state of type `τ` on a successor state. -/
abbrev TriggerAction (τ α : Type) : Type := Action (State × τ) ExecutionError α

/-- What is run for each alternative taken; the result says whether the program counter may
move on. -/
structure Triggers (τ : Type) where
  run : Alternative → TriggerAction τ Bool

def Triggers.absent (τ : Type) : Triggers τ := ⟨fun _ => pure true⟩

/-- A trigger for the alternatives of one kind, and of one expanded class if it names one. -/
structure TriggerRule (τ : Type) where
  kind : AlternativeKind
  className : Option String
  action : Alternative → TriggerAction τ Advance

namespace TriggerRule

variable {τ : Type}

def appliesTo (r : TriggerRule τ) (a : Alternative) : Bool :=
  a.kind == r.kind &&
    match r.className with
    | some c => a.expandedClass? == some c
    | none => true

/-- Runs rules in order; the program counter may move on if none of them suppresses it. -/
def runAll (a : Alternative) : List (TriggerRule τ) → TriggerAction τ Bool
  | [] => pure true
  | r :: rest => do
    let advance ← r.action a
    let others ← runAll a rest
    pure (advance == .continue && others)

end TriggerRule

/-- Triggers given by a list of rules, of which those for an alternative run in order. -/
def Triggers.ofRules {τ : Type} (rules : List (TriggerRule τ)) : Triggers τ :=
  ⟨fun a => TriggerRule.runAll a (rules.filter (·.appliesTo a))⟩

end SymbolicMachine
