import SymbolicMachine.Explore.Trigger
/-!
# Scripted hooks

A trigger that follows a script.  For each alternative that it is run for it leaves a line in a
trail, then makes its changes to the successor one after another, and ends as the script says.
-/
namespace SymbolicMachine

/-- The lines that scripted hooks leave, latest first. -/
abbrev Trail : Type := List String

/-- What a scripted hook does. -/
structure Hook where
  name : String
  kind : AlternativeKind
  className : Option String
  /-- The changes to the successor.  Each is chosen by what the successor looks like then, and
  may be impossible for a reason that is given in words. -/
  changes : List (State → Except String (State.Update Unit))
  outcome : Except ExecutionError Advance

namespace Hook

/-- The line that a hook leaves. -/
def line (h : Hook) (a : Alternative) : String := s!"{h.name}: {a.text} #{a.branch}"

/-- Makes one change.  Whatever goes wrong is a flaw in the exploration. -/
def change (choose : State → Except String (State.Update Unit)) : TriggerAction Trail Unit := do
  let (s, _) ← Action.read
  let m ← Action.ofExcept ((choose s).mapError .internal)
  Action.mapError (.internal ∘ MemoryError.message)
    (Action.onPart (·.1) (fun s w => (s, w.2)) m)

def changeAll : List (State → Except String (State.Update Unit)) → TriggerAction Trail Unit
  | [] => pure ()
  | c :: rest => do
    change c
    changeAll rest

def rule (h : Hook) : TriggerRule Trail :=
  { kind := h.kind
    className := h.className
    action := fun a => do
      Action.update fun w => (w.1, h.line a :: w.2)
      changeAll h.changes
      Action.ofExcept h.outcome }

end Hook

end SymbolicMachine
