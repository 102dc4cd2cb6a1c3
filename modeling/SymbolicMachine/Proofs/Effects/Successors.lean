import SymbolicMachine.Proofs.Acts.Steps
import SymbolicMachine.Proofs.Effects.Progress
/-!
# What a refinement does

Carrying out an alternative only makes progress until the value is pushed, so the successor is the
state after the instruction was executed or after it failed.  The successors for a list of
alternatives are forks of the state, numbered in order.
-/
namespace SymbolicMachine

open SymbolicMachine.Action

variable {ω τ ε α β : Type}

namespace Engine

/-! ## Refinements -/

/-- An action on a successor makes progress without taking operands off, also where it fails. -/
def Quiet (m : Refinement ω τ α) : Prop :=
  ∀ w, m.Meets w (fun _ w' => w.1.Progress 0 w'.1) fun _ w' => w.1.Progress 0 w'.1

section Quiet

theorem Quiet.bind {m : Refinement ω τ α} {k : α → Refinement ω τ β} (hm : Quiet m)
    (hk : ∀ a, Quiet (k a)) : Quiet (m >>= k) := by
  intro w
  rw [meets_bind]
  refine (hm w).mono (fun a w' h => ?_) fun _ _ h => h
  exact (hk a w').mono (fun _ _ h' => h.trans h') fun _ _ h' => h.trans h'

theorem quiet_pure (a : α) : Quiet (pure a : Refinement ω τ α) := fun w => .refl w.1

theorem quiet_ofExcept (r : Except Fault α) : Quiet (ofExcept r : Refinement ω τ α) := fun w =>
  meets_ofExcept.2 ⟨fun _ _ => .refl w.1, fun _ _ => .refl w.1⟩

theorem quiet_updating {m : State.Update α} (h : State.Quiet m) :
    Quiet (updating (ω := ω) (τ := τ) m) := by
  rintro ⟨s, ses⟩
  rw [meets_updating]
  exact h s

theorem quiet_consulting (m : Run ω τ ExecutionError α) : Quiet (consulting m) := by
  rintro ⟨s, ses⟩
  rw [meets_consulting, meets_iff]
  exact ⟨fun _ _ _ => .refl s, fun _ _ _ => .refl s⟩

variable {e : Engine ω τ}

theorem quiet_assumeGuard (a : Alternative) : Quiet (assumeGuard (ω := ω) (τ := τ) a) := by
  unfold assumeGuard
  split
  · split
    · exact quiet_pure _
    · exact quiet_updating (State.quiet_assume _)
  · exact quiet_pure _

theorem quiet_assumeLength (address : Nat) : Quiet (e.assumeLength address) := by
  intro w
  have hgo : Quiet (e.assumeLengthIn w.1 address) := by
    refine (quiet_ofExcept _).bind fun a => (quiet_ofExcept _).bind fun condition => ?_
    refine (quiet_consulting _).bind fun _ => (quiet_consulting _).bind fun simplified => ?_
    exact quiet_updating (State.quiet_assume _)
  exact meets_assumeLength.2 (hgo w)

theorem quiet_expand (r : RefSymbol) (className : String) : Quiet (e.expand r className) := by
  refine (quiet_ofExcept _).bind fun fields => ?_
  refine (quiet_updating (State.quiet_assumeExpands r className fields)).bind fun address => ?_
  split
  · exact quiet_assumeLength address
  · exact quiet_pure _

theorem quiet_assumeDecision (d : Decision) : Quiet (e.assumeDecision d) := by
  cases d with
  | outOfRange => exact quiet_pure _
  | loads v => exact quiet_pure _
  | null r =>
    exact (quiet_updating (State.quiet_assumeClause _)).bind fun _ => quiet_pure _
  | aliases r address =>
    exact (quiet_updating (State.quiet_assumeAliases r address)).bind fun _ => quiet_pure _
  | expands r className => exact (quiet_expand r className).bind fun _ => quiet_pure _

end Quiet

/-- An alternative that an instruction offers: if it is about a member of an array, the member is
the one that is read, and it is new only in an input array. -/
def OfferedBy (i : Instruction) (s : State) (a : Alternative) : Prop :=
  ∀ access, a.access = some access → i.Loads s access.array access.index ∧
    (access.fresh = true → ∃ array, s.heap.get access.array = .ok (.array array) ∧
      array.origin.isSome = true)

section Successors

variable {e : Engine ω τ} {i : Instruction} {s t : State} {n : Nat} {ses : Session ω τ}

theorem recordFresh_ready {a : Alternative} (ha : OfferedBy i s a) (h : s.Progress n t)
    (hn : i.consumes = some n) (v : Value) :
    (recordFresh a v).Meets (t, ses) (fun _ w => i.Ready s v w.1) fun _ w => i.Partway s w.1 := by
  have hready : i.Ready s v t := .of_progress h hn
  unfold recordFresh
  split
  · rename_i access haccess
    split
    · rename_i hfresh
      obtain ⟨hloads, horigin⟩ := ha access haccess
      obtain ⟨array, harray, hinput⟩ := horigin hfresh
      rw [meets_updating]
      refine State.meets_arraySet (fun k hk => ⟨hready.frames, ?_, ?_, h.place, h.ending⟩)
        fun _ _ => hready.partway
      · exact Heap.keptBut_arraySet hloads harray hinput h.objects hk
      · obtain ⟨found, hfound, heq⟩ := bind_eq_ok.1 hk
        cases heq
        exact Nat.le_trans h.next
          (Nat.le_of_eq (Heap.next_insertAt_of_get (Heap.getArray_eq_ok.1 hfound) _).symm)
    · exact hready
  · exact hready

variable (htriggers : e.triggers = .absent τ)

include htriggers

theorem load_effects {a : Alternative} (ha : OfferedBy i s a) (h : s.Progress n t)
    (hn : i.consumes = some n) (hresults : i.results = 1) (v : Value) :
    (e.load a i.length v).Meets (t, ses) (fun _ w => i.Effect s w.1)
      fun _ w => i.Partway s w.1 := by
  unfold load
  rw [meets_bind]
  refine (recordFresh_ready ha h hn v).mono (fun _ ⟨u, ses'⟩ hu => ?_) fun _ _ h => h
  rw [meets_bind, meets_ofExcept_mapError]
  refine ⟨fun w hw => ?_, fun _ _ => hu.partway⟩
  rw [meets_bind, meets_updating]
  refine (hu.meets_push hresults (Value.isOperand_widen hw) fun _ => hw).mono
    (fun _ u' hu' => ?_) fun _ _ h => h
  rw [meets_bind, meets_triggering, htriggers]
  exact meets_updating _ |>.2 hu'

theorem apply_effects {a : Alternative} (ha : OfferedBy i s a) (h : s.Progress n t)
    (hn : i.consumes = some n) (hresults : i.results = 1) :
    (e.apply a i.length).Meets (t, ses) (fun _ w => i.Effect s w.1)
      fun _ w => i.Partway s w.1 := by
  have hassume : Quiet (do assumeGuard a; e.assumeDecision a.decision) :=
    (quiet_assumeGuard a).bind fun _ => quiet_assumeDecision _
  have hassumed := hassume (t, ses)
  unfold apply
  rw [meets_bind] at hassumed ⊢
  refine hassumed.mono (fun _ w hw => ?_) fun _ _ hw => .of_progress (h.trans hw)
  rw [meets_bind]
  refine hw.mono (fun loaded ⟨u, ses'⟩ hu => ?_) fun _ _ hu => .of_progress (h.trans hu)
  have hu : s.Progress n u := h.trans hu
  cases loaded with
  | none => exact (Instruction.Partway.of_progress hu).throw (by simp [thrownClasses])
  | some v => exact load_effects htriggers ha hu hn hresults v

end Successors

/-! ## Numbered forks -/

/-- The place of a successor with a number. -/
def nextPlace (place : List Nat × Nat) (branching : Bool) (number : Nat) : List Nat × Nat :=
  if branching then (place.1 ++ [number], 0) else (place.1, place.2 + 1)

theorem successorOf_eq (s : State) (branching : Bool) (number : Nat) :
    successorOf s branching number = s.withPlace (nextPlace s.place branching number) := by
  cases branching <;> rfl

/-- The successors are forks of a state, numbered in order, to which the instruction was done. -/
def Forked (i : Instruction) (s : State) (branching : Bool) (number : Nat)
    (successors : List State) : Prop :=
  ∃ forks, successors = numbered branching number forks ∧ ∀ t ∈ forks, i.Effect s t

/-- All successors of a state: they start branches if there are several of them. -/
def Branched (i : Instruction) (s : State) (successors : List State) : Prop :=
  Forked i s (decide (1 < successors.length)) 1 successors

theorem length_numbered (branching : Bool) (number : Nat) (forks : List State) :
    (numbered branching number forks).length = forks.length := by
  induction forks generalizing number with
  | nil => rfl
  | cons t rest ih => exact congrArg (· + 1) (ih (number + 1))

section Refining

variable {e : Engine ω τ} {i : Instruction} {s t : State} {n : Nat}

theorem branched_single (h : i.Effect s t) : Branched i s [t.incSequence] := by
  refine ⟨[t], rfl, fun u hu => ?_⟩
  cases List.mem_singleton.1 hu
  exact h

/-- What an instruction does besides numbering does not depend on the place of the state. -/
theorem Effect.moved {place : List Nat × Nat} {u : State} (h : i.Effect (s.withPlace place) u) :
    i.Effect s (u.withPlace s.place) := by
  obtain ⟨read, hobjects, hexecuted | hfailed⟩ := h.change
  · exact ⟨rfl, read, hobjects, .inl ⟨hexecuted.ending, hexecuted.frames⟩⟩
  · exact ⟨rfl, read, hobjects, .inr ⟨hfailed.frames, hfailed.ending⟩⟩

/-- An effect on a state at its new place is the effect on the state that was numbered. -/
theorem exists_fork {u : State} {branching : Bool} {number : Nat}
    (h : i.Effect (s.withPlace (nextPlace s.place branching number)) u) :
    ∃ fork, u = successorOf fork branching number ∧ i.Effect s fork := by
  have hplace : u.place = nextPlace s.place branching number := h.place
  refine ⟨u.withPlace s.place, ?_, Effect.moved h⟩
  rw [successorOf_eq]
  change u = u.withPlace (nextPlace s.place branching number)
  rw [← hplace]
  rfl

variable (htriggers : e.triggers = .absent τ)

include htriggers

theorem refineOne_effects {a : Alternative} {branching : Bool} {number : Nat}
    (ha : OfferedBy i s a) (h : s.Progress n t) (hn : i.consumes = some n)
    (hresults : i.results = 1) :
    (e.refineOne t branching i.length number a).Always
      (fun u => ∃ fork, u = successorOf fork branching number ∧ i.Effect s fork)
      fun _ => True := by
  intro ses
  have hplace := h.withPlace (nextPlace s.place branching number)
  have hstart : successorOf t branching number =
      t.withPlace (nextPlace s.place branching number) := by
    rw [successorOf_eq, h.place]
  have hoffered : OfferedBy i (s.withPlace (nextPlace s.place branching number))
      { a with branch := number } := ha
  refine meets_refineOne ?_
  rw [hstart]
  refine (apply_effects htriggers hoffered hplace hn hresults).mono (fun _ w hw => ?_)
    fun fault w hw => ⟨fun u hu => ?_, fun _ _ => trivial⟩
  · exact exists_fork hw
  · exact exists_fork (hw.settle hu)

theorem refineFrom_effects {alternatives : List Alternative} {branching : Bool} {number : Nat}
    (hall : ∀ a ∈ alternatives, OfferedBy i s a) (h : s.Progress n t) (hn : i.consumes = some n)
    (hresults : i.results = 1) :
    (e.refineFrom t branching i.length number alternatives).Always
      (fun successors => Forked i s branching number successors ∧
        successors.length = alternatives.length) fun _ => True := by
  induction alternatives generalizing number with
  | nil => exact always_pure ⟨⟨[], rfl, nofun⟩, rfl⟩
  | cons a rest ih =>
    have hhead := hall a List.mem_cons_self
    refine (refineOne_effects htriggers hhead h hn hresults).bind fun u ⟨fork, hu, hfork⟩ => ?_
    refine (always_any _).bind fun _ _ => ?_
    refine (ih fun b hb => hall b (List.mem_cons_of_mem _ hb)).bind ?_
    rintro others ⟨⟨forks, hothers, hforks⟩, hlength⟩
    refine always_pure ⟨⟨fork :: forks, ?_, fun v hv => ?_⟩, congrArg (· + 1) hlength⟩
    · rw [hu, hothers, numbered]
    · rcases List.mem_cons.1 hv with rfl | hv
      · exact hfork
      · exact hforks v hv

theorem refine_effects {alternatives : List Alternative}
    (hall : ∀ a ∈ alternatives, OfferedBy i s a) (h : s.Progress n t) (hn : i.consumes = some n)
    (hresults : i.results = 1) :
    (e.refine t alternatives i.length).Always (Branched i s) fun _ => True := by
  intro ses
  refine (refineFrom_effects htriggers hall h hn hresults ses).mono ?_ fun _ _ h => h
  rintro successors - ⟨hforked, hlength⟩
  unfold Branched
  rwa [hlength]

end Refining

end Engine

end SymbolicMachine
