import SymbolicMachine.Proofs.Explore.Calls
import SymbolicMachine.Proofs.Safety.Steps
/-!
# Reachable states

The states that an exploration gets to if the embedding program may move operands about between
any two steps.  All of them are sound, and so no step from them has a fault.  What is left are
calls that do not come back, because superclasses go on for ever or because a counter runs over.
-/
namespace SymbolicMachine

open SymbolicMachine.Action

variable {ω τ : Type}

/-! ## Moves of the embedding program -/

/-- A value that an embedding program puts somewhere: one that it made itself, or one that it
took off a stack. -/
def Value.IsFreeOr (taken : List Value) (v : Value) : Prop :=
  (∃ t, v = .primitive t) ∨ v = .reference .null ∨ v ∈ taken

/-- One thing that an embedding program does to a state, with the operands that it has taken off
so far before and after it.  An update that fails counts as well. -/
inductive Move (s : State) (taken : List Value) : State → List Value → Prop
  | pop {result t} : State.popOperand.run s = (result, t) →
      Move s taken t (result.toOption.toList ++ taken)
  | push {v result t} : v.IsFreeOr taken → (State.pushOperand v).run s = (result, t) →
      Move s taken t taken
  | setLocal {slot v result t} : v ∈ taken → (State.setLocal slot v).run s = (result, t) →
      Move s taken t taken
  | setField {address name v result t} : v ∈ taken →
      (State.setField address name v).run s = (result, t) → Move s taken t taken
  | arraySet {address index v result t} : v ∈ taken →
      (State.arraySet address index v).run s = (result, t) → Move s taken t taken

/-- What holds in all reachable states: the state is sound, and the operands that were taken off
can still be followed in it. -/
structure State.Holds (s : State) (taken : List Value) : Prop where
  sound : s.Sound
  usable : ∀ v ∈ taken, s.Usable v

section Moves

variable {s t : State} {taken kept : List Value}

theorem State.Holds.follows (h : s.Holds taken) (hst : s.Follows t) : t.Holds taken :=
  ⟨hst.sound, fun v hv => hst.grows.usable (h.usable v hv)⟩

theorem State.Holds.isFreeOr (h : s.Holds taken) {v : Value} (hv : v.IsFreeOr taken) :
    s.Usable v := by
  rcases hv with ⟨u, rfl⟩ | rfl | hv
  · trivial
  · trivial
  · exact h.usable v hv

theorem Move.holds (hmove : Move s taken t kept) (h : s.Holds taken) : t.Holds kept := by
  cases hmove with
  | pop hrun =>
    rename_i result
    have hpop := State.safe_popOperand h.sound
    cases result with
    | error e =>
      have hst := (Meets.of_error hpop hrun).1
      exact h.follows hst
    | ok v =>
      obtain ⟨hst, hv⟩ := Meets.of_ok hpop hrun
      have hkept := h.follows hst
      refine ⟨hst.sound, fun w hw => ?_⟩
      rcases List.mem_cons.1 hw with rfl | hw
      · exact hv
      · exact hkept.usable w hw
  | push hv hrun =>
    have hpush := State.safe_pushOperand h.sound (h.isFreeOr hv)
    exact h.follows (Meets.of_run (hpush.mono (fun _ _ hst => hst.1) fun _ _ hst => hst.1) hrun)
  | setLocal hv hrun =>
    have hgrounded := (h.usable _ hv).grounded
    exact h.follows (Meets.of_run (State.follows_setLocal h.sound hgrounded) hrun)
  | setField hv hrun =>
    have hgrounded := (h.usable _ hv).grounded
    exact h.follows (Meets.of_run (State.follows_setField h.sound hgrounded) hrun)
  | arraySet hv hrun =>
    have hgrounded := (h.usable _ hv).grounded
    exact h.follows (Meets.of_run (State.follows_arraySet h.sound hgrounded) hrun)

end Moves

namespace Engine

/-! ## Roots -/

section Roots

variable {e : Engine ω τ} {s : State}

theorem safe_createArguments (hs : s.Sound) (table : List LocalVariable) (slot : Nat)
    (descriptors : List String) :
    State.Safe (createArguments table slot descriptors) s
      fun args t => ∀ v ∈ args, t.Grounded v := by
  induction descriptors generalizing s slot with
  | nil => exact State.safe_pure hs nofun
  | cons descriptor rest ih =>
    refine (State.safe_createSymbol hs descriptor _).bind fun v t hst ⟨hv, _⟩ => ?_
    refine (ih hst.sound (slot + v.slots)).bind fun others u htu hothers => ?_
    refine State.safe_pure htu.sound fun w hw => ?_
    rcases List.mem_cons.1 hw with rfl | hw
    · exact htu.grows.grounded hv
    · exact hothers w hw

theorem safe_createReceiver (className name : String) :
    State.Safe (e.createReceiver className name) .root fun v t => t.Grounded v := by
  have hcreate : State.Safe (State.createReference className (.root name)) .root
      fun r t => t.isResolved r = false :=
    ⟨⟨State.sound_root.withSymbols 1, .of_eq rfl rfl rfl⟩, rfl⟩
  refine hcreate.bind fun r t hst hfree => ?_
  refine (State.safe_assumeExpands hst.sound className _ hfree).bind fun _ u htu _ => ?_
  exact State.safe_pure htu.sound trivial

theorem safe_createInputs (method : MethodSignature) (isStatic : Bool)
    (table : List LocalVariable) :
    State.Safe (e.createInputs method isStatic table) .root
      fun args t => ∀ v ∈ args, t.Grounded v := by
  have hparameters : ∀ {s : State}, s.Sound → State.Safe (ofExcept
      ((Descriptor.parameterTypes method.descriptor).mapError .value)) s fun _ _ => True :=
    fun hs => State.safe_value hs fun _ _ => trivial
  unfold createInputs
  split
  · exact (hparameters State.sound_root).bind fun descriptors t hst _ =>
      safe_createArguments hst.sound table 0 descriptors
  · refine (safe_createReceiver _ _).bind fun receiver t hst hreceiver => ?_
    refine (hparameters hst.sound).bind fun descriptors u htu _ => ?_
    refine (safe_createArguments htu.sound table 1 descriptors).bind fun others x hux hothers => ?_
    refine State.safe_pure hux.sound fun v hv => ?_
    rcases List.mem_cons.1 hv with rfl | hv
    · exact (htu.trans hux).grows.grounded hreceiver
    · exact hothers v hv

theorem mem_slots_of_setArgsFrom {l m : Locals} {slot : Nat} {args : List Value}
    {result : Except MemoryError Unit} {w : Value} (h : l.setArgsFrom slot args = (result, m))
    (hw : some w ∈ m.slots) : w ∈ args ∨ some w ∈ l.slots := by
  induction args generalizing l slot with
  | nil =>
    cases h
    exact .inr hw
  | cons v rest ih =>
    unfold Locals.setArgsFrom at h
    split at h
    · rename_i k hset
      rcases ih h with hmem | hmem
      · exact .inl (List.mem_cons_of_mem _ hmem)
      · rcases State.mem_slots_of_set hset hmem with rfl | hmem
        · exact .inl List.mem_cons_self
        · exact .inr hmem
    · cases h
      exact .inr hw

theorem sound_initialState {method : MethodSignature} {isStatic : Bool} {code : List UInt8}
    {maxLocals maxStack : Nat} {table : List LocalVariable}
    (h : e.initialState method isStatic code maxLocals table maxStack = .ok s) : s.Sound := by
  unfold initialState at h
  split at h
  · cases h
  · rename_i args t hrun
    obtain ⟨ht, hargs⟩ := Meets.of_ok (safe_createInputs method isStatic table) hrun
    split at h
    · cases h
    · rename_i l hset
      cases h
      have hlocals : ∀ v, some v ∈ l.slots → t.Grounded v := by
        intro v hv
        rcases mem_slots_of_setArgsFrom hset hv with hmem | hmem
        · exact hargs v hmem
        · cases (List.mem_replicate.1 hmem).2
      constructor
      · intro f hf v hv
        rcases List.mem_cons.1 hf with rfl | hf
        · cases hv
        · exact ht.sound.operands f hf v hv
      · intro f hf v hv
        rcases List.mem_cons.1 hf with rfl | hf
        · exact hlocals v hv
        · exact ht.sound.locals f hf v hv
      · exact ht.sound.contents
      · exact ht.sound.targets
      · exact ht.sound.inputs

end Roots

/-! ## Runs -/

theorem permissive_undisturbed (t : ClassTable) : (permissive t).Undisturbed where
  oracle := Oracle.permissive_answers
  triggers := rfl
  watchdog := fun _ => rfl
  natives := NativeEvaluator.absent_onlyRejects

/-- The states that the exploration of some method gets to by calls of steps and by moves of the
embedding program in any order, with the operands that the program has taken off on the way. -/
inductive Reachable (e : Engine ω τ) : State → List Value → Prop
  | start {method isStatic code maxLocals table maxStack s} :
      e.callInitial method isStatic code maxLocals table maxStack = .ok s → Reachable e s []
  | call {s taken i ses ses' successors t} : Reachable e s taken →
      (e.call i s).run ses = (.ok successors, ses') → t ∈ successors → Reachable e t taken
  | move {s taken t kept} : Reachable e s taken → Move s taken t kept → Reachable e t kept

section Runs

variable {e : Engine ω τ} {s : State} {taken : List Value}

theorem Reachable.holds (he : e.Undisturbed) (h : e.Reachable s taken) : s.Holds taken := by
  induction h with
  | start hroot => exact ⟨sound_initialState (initialState_of_callInitial hroot).1, nofun⟩
  | call _ hrun ht ih =>
    have hfollows := Meets.of_ok (step_always he ih.sound _ _) (step_of_call hrun).1
    exact ih.follows (hfollows _ ht)
  | move _ hmove ih => exact hmove.holds ih

end Runs

def arrayRoot : State :=
  (State.root.withSymbols 1).pushFrame
    (.create ⟨"Main", "run", "([I)V"⟩ [0, 0]
      ⟨[some (.reference (.symbolic ⟨0, "[I", .root "arg0"⟩))], []⟩ 4)

theorem initialState_arrayRoot :
    (permissive .initial).initialState ⟨"Main", "run", "([I)V"⟩ true [0, 0] 1 [] 4 =
      .ok arrayRoot := by
  have hparameters : Descriptor.parameterTypes "([I)V" = .ok ["[I"] := by cbv
  simp only [initialState, createInputs, hparameters]
  rfl

end Engine

end SymbolicMachine
