import SymbolicMachine.Explore.Call
import SymbolicMachine.Proofs.Explore.Rules
/-!
# Calls and steps

A call comes to what its step comes to, unless a counter runs over its word or superclasses are
followed for ever.  What steps keep therefore holds along calls, and the counters of every state
that a call gives back are words.
-/
namespace SymbolicMachine

open SymbolicMachine.Action

variable {ω τ α : Type}

namespace CallError

variable {σ ε : Type}

theorem run_unlessLost_of_inRange {states : List State} (h : ∀ s ∈ states, s.InRange) (w : σ) :
    (unlessLost states : Action σ (CallError ε) Unit).run w = (.ok (), w) :=
  congrArg (fun m : Action σ (CallError ε) Unit => m.run w) (if_pos h)

theorem run_unlessLost_of_overrun {states : List State} (h : ∃ s ∈ states, ¬s.InRange) (w : σ) :
    (unlessLost states : Action σ (CallError ε) Unit).run w = (.error .lost, w) := by
  obtain ⟨s, hs, hover⟩ := h
  exact congrArg (fun m : Action σ (CallError ε) Unit => m.run w)
    (if_neg fun hall => hover (hall s hs))

/-- The counters of all these states are words, or there is one whose counters are not. -/
theorem inRange_or_overrun (states : List State) :
    (∀ s ∈ states, s.InRange) ∨ ∃ s ∈ states, ¬s.InRange := by
  by_cases h : ∀ s ∈ states, s.InRange
  · exact .inl h
  · exact .inr (by simpa using h)

end CallError

namespace State

/-- An operation that comes back leaves counters that are words. -/
theorem inRange_of_call {m : Update α} {s t : State} {result : Except (CallError MemoryError) α}
    (h : (State.call m).run s = (result, t)) (hback : result ≠ .error .lost) :
    t.InRange ∧ ∃ inner, m.run s = (inner, t) := by
  unfold State.call at h
  rw [run_bind_ok (run_attempt m s), run_bind_ok (run_read _)] at h
  by_cases hrange : (m.run s).2.InRange
  · rw [run_bind_ok (CallError.run_unlessLost_of_inRange (List.forall_mem_singleton.2 hrange) _)]
      at h
    cases h
    exact ⟨hrange, _, rfl⟩
  · rw [run_bind_error (CallError.run_unlessLost_of_overrun ⟨_, List.mem_singleton_self _, hrange⟩
      _)] at h
    cases h
    exact absurd rfl hback

end State

namespace Engine

variable {e : Engine ω τ} {i : Instruction} {s t : State} {ses ses' : Session ω τ}
  {successors : List State}

/-- A step counts past the last word, in the state in which it decides a value or in a
successor. -/
def Overruns (e : Engine ω τ) (i : Instruction) (s : State) (ses : Session ω τ) : Prop :=
  (∃ t ∈ StepResult.decidedIn ((e.body i s).run ses).1, ¬t.InRange) ∨
    ∃ successors, ((e.step i s).run ses).1 = .ok successors ∧ ∃ t ∈ successors, ¬t.InRange

/-- A call is its step, unless a counter runs over. -/
theorem call_cases (e : Engine ω τ) (i : Instruction) (s : State) (ses : Session ω τ) :
    ((e.call i s).run ses =
        (((e.step i s).run ses).1.mapError .ofStep, ((e.step i s).run ses).2) ∧
      ∀ successors, ((e.step i s).run ses).1 = .ok successors → ∀ t ∈ successors, t.InRange) ∨
    ((e.call i s).run ses).1 = .error .lost ∧ e.Overruns i s ses := by
  let m := e.conclude s i.length ((e.body i s).run ses).1
  have hstep : (e.step i s).run ses = (Action.mapError (Located.mk (locationOf s)) m).run
      ((e.body i s).run ses).2 := rfl
  unfold Overruns
  rw [hstep, run_mapError, call, run_bind_ok (run_attempt _ ses)]
  rcases CallError.inRange_or_overrun (StepResult.decidedIn ((e.body i s).run ses).1) with
    hdecided | hover
  · rw [run_bind_ok (CallError.run_unlessLost_of_inRange hdecided _)]
    have hmapped := run_mapError (CallError.ofStep ∘ Located.mk (locationOf s)) m
      ((e.body i s).run ses).2
    rcases hrun : m.run ((e.body i s).run ses).2 with ⟨error | successors, after⟩
    · rw [hrun] at hmapped
      rw [run_bind_error hmapped]
      exact .inl ⟨rfl, nofun⟩
    · rw [hrun] at hmapped
      rw [run_bind_ok hmapped]
      rcases CallError.inRange_or_overrun successors with hrange | hover
      · rw [run_bind_ok (CallError.run_unlessLost_of_inRange hrange _)]
        refine .inl ⟨rfl, fun _ heq => ?_⟩
        cases heq
        exact hrange
      · rw [run_bind_error (CallError.run_unlessLost_of_overrun hover _)]
        exact .inr ⟨rfl, .inr ⟨successors, rfl, hover⟩⟩
  · rw [run_bind_error (CallError.run_unlessLost_of_overrun hover _)]
    exact .inr ⟨rfl, .inl hover⟩

/-- What a call gives back are the successors of its step, with counters that are words. -/
theorem step_of_call (h : (e.call i s).run ses = (.ok successors, ses')) :
    (e.step i s).run ses = (.ok successors, ses') ∧ ∀ t ∈ successors, t.InRange := by
  rcases call_cases e i s ses with ⟨hcall, hrange⟩ | ⟨hlost, -⟩
  · obtain ⟨hresult, hafter⟩ := Prod.ext_iff.1 (h.symm.trans hcall)
    have hok := mapError_eq_ok.1 hresult.symm
    exact ⟨Prod.ext hok hafter.symm, hrange successors hok⟩
  · rw [h] at hlost
    cases hlost

/-- The root state that is given back is the one that was made, and its counters are words. -/
theorem initialState_of_callInitial {method : MethodSignature} {isStatic : Bool}
    {code : List UInt8} {maxLocals maxStack : Nat} {table : List LocalVariable}
    (h : e.callInitial method isStatic code maxLocals table maxStack = .ok s) :
    e.initialState method isStatic code maxLocals table maxStack = .ok s ∧ s.InRange := by
  unfold callInitial at h
  split at h
  · cases h
  · obtain ⟨root, hroot, h⟩ := bind_eq_ok.1 h
    split at h
    · rename_i hrange
      cases h
      exact ⟨mapError_eq_ok.1 hroot, hrange⟩
    · cases h

end Engine

end SymbolicMachine
