import SymbolicMachine.Explore.Statistics
/-!
# Counting

Statistics form a commutative monoid, in which equal summands cancel.  Everything that an
exploration does to them adds an amount that does not depend on what was counted before, so
that it makes no difference in which order things are counted.
-/
namespace SymbolicMachine.Statistics

@[simp] theorem zero_plus (a : Statistics) : zero.plus a = a := by
  simp [plus, zero]

theorem plus_comm (a b : Statistics) : a.plus b = b.plus a := by
  simp only [plus, mk.injEq]
  omega

theorem plus_assoc (a b c : Statistics) : (a.plus b).plus c = a.plus (b.plus c) := by
  simp only [plus, mk.injEq]
  omega

theorem plus_left_comm (a b c : Statistics) : a.plus (b.plus c) = b.plus (a.plus c) := by
  rw [← plus_assoc, plus_comm a b, plus_assoc]

theorem plus_left_cancel {a b c : Statistics} (h : a.plus b = a.plus c) : b = c := by
  cases b
  cases c
  simpa only [plus, mk.injEq, Nat.add_left_cancel_iff] using h

/-- What is counted is an amount that is added to what there is. -/
def Adds (f : Statistics → Statistics) (amount : Statistics) : Prop := ∀ a, f a = a.plus amount

theorem adds_addDecisionPoint : Adds addDecisionPoint (zero.addDecisionPoint) := fun _ => rfl

theorem adds_recordVerdict (verdict : Bool) :
    Adds (·.recordVerdict verdict) (zero.recordVerdict verdict) := by
  intro a
  cases verdict <;> rfl

theorem adds_addSuccessors (count : Nat) :
    Adds (·.addSuccessors count) (zero.addSuccessors count) := by
  intro a
  simp [addSuccessors, plus, zero]

theorem adds_recordPath (outcome : PathOutcome) :
    Adds (·.recordPath outcome) (zero.recordPath outcome) := by
  intro a
  cases outcome <;> rfl

end SymbolicMachine.Statistics
