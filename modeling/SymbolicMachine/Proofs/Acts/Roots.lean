import SymbolicMachine.Proofs.Acts.Steps
import SymbolicMachine.Proofs.Safety.Reachable
/-!
# Initial states as acts

The state that an exploration starts from is reached by acts from the state without frames and
objects.  The states below a state are those that steps lead to, with updates of the embedding
program in between.  Among them are those that calls of these steps give back.
-/
namespace SymbolicMachine

open SymbolicMachine.Action

variable {ω τ : Type}

namespace Engine

variable {e : Engine ω τ} {s : State} {hand : List Value}

theorem acting_createArguments (table : List LocalVariable) (slot : Nat)
    (descriptors : List String) :
    e.Acting id (createArguments table slot descriptors) s hand
      fun args _ hand' => ∀ v ∈ args, v ∈ hand' := by
  induction descriptors generalizing s hand slot with
  | nil => exact acting_pure nofun
  | cons descriptor rest ih =>
    refine (acting_createSymbol (.root _)).bind fun v t hand' _ hv => ?_
    refine (ih (slot + v.slots)).bind fun others u hand'' hacts hothers => ?_
    refine acting_pure fun w hw => ?_
    rcases List.mem_cons.1 hw with rfl | hw
    · exact hacts.subset hv
    · exact hothers w hw

theorem acting_createReceiver (className name : String) :
    e.Acting id (e.createReceiver className name) s hand fun v _ hand' => v ∈ hand' := by
  have hcreate : e.Acting id (State.createReference className (.root name)) s hand
      fun r _ hand' => .reference (.symbolic r) ∈ hand' ∧ r.staticType = className :=
    ⟨_, (Act.nameReference (.root name)).acts, List.mem_cons_self, rfl⟩
  refine hcreate.bind fun r t hand' _ ⟨hr, htype⟩ => ?_
  have hfields : (e.classes.instanceFields className).toOption.getD [] = [] ∨
      e.classes.instanceFields className =
        .ok ((e.classes.instanceFields className).toOption.getD []) := by
    cases e.classes.instanceFields className with
    | error error => exact .inl rfl
    | ok fields => exact .inr rfl
  refine (acting_assumeExpands hr (.inl htype.symm) hfields).bind fun _ u hand'' hacts _ => ?_
  exact acting_pure (hacts.subset hr)

theorem acting_createInputs (method : MethodSignature) (isStatic : Bool)
    (table : List LocalVariable) :
    e.Acting id (e.createInputs method isStatic table) s hand
      fun args _ hand' => ∀ v ∈ args, v ∈ hand' := by
  have hparameters : ∀ {s : State} {hand : List Value}, e.Acting id
      (ofExcept ((Descriptor.parameterTypes method.descriptor).mapError MemoryError.value)) s hand
        fun _ _ _ => True := acting_ofExcept fun _ _ => trivial
  unfold createInputs
  split
  · exact hparameters.bind fun descriptors _ _ _ _ => acting_createArguments table 0 descriptors
  · refine (acting_createReceiver _ _).bind fun receiver t hand' _ hreceiver => ?_
    refine hparameters.bind fun descriptors u hand'' hacts _ => ?_
    refine (acting_createArguments table 1 descriptors).bind fun others x hand₃ hacts' hothers => ?_
    refine acting_pure fun v hv => ?_
    rcases List.mem_cons.1 hv with rfl | hv
    · exact hacts'.subset (hacts.subset hreceiver)
    · exact hothers v hv

/-- The state that an exploration starts from is reached by acts. -/
theorem initialState_acts {method : MethodSignature} {isStatic : Bool} {code : List UInt8}
    {maxLocals maxStack : Nat} {table : List LocalVariable}
    (h : e.initialState method isStatic code maxLocals table maxStack = .ok s) :
    e.ActsTo .root [] s := by
  unfold initialState at h
  split at h
  · cases h
  · rename_i args t hrun
    have hinputs : e.Acting id (e.createInputs method isStatic table) .root []
        fun args _ hand => ∀ v ∈ args, v ∈ hand := acting_createInputs method isStatic table
    obtain ⟨hand, hacts, hargs⟩ := Meets.of_ok hinputs hrun
    split at h
    · cases h
    · rename_i l hset
      cases h
      refine ⟨hand, .tail hacts (.enter rfl fun v hv => ?_)⟩
      rcases mem_slots_of_setArgsFrom hset hv with hmem | hmem
      · exact hargs v hmem
      · cases (List.mem_replicate.1 hmem).2

/-- The states that steps from a state lead to, if updates of the embedding program may come in
between. -/
inductive Descends (e : Engine ω τ) (updates : State → State → Prop) (s : State) : State → Prop
  | refl : Descends e updates s s
  | step {t u : State} {i : Instruction} {ses ses' : Session ω τ} {successors : List State}
      (h : Descends e updates s t) (hrun : (e.step i t).run ses = (.ok successors, ses'))
      (hu : u ∈ successors) : Descends e updates s u
  | update {t u : State} (h : Descends e updates s t) (hupdate : updates t u) :
      Descends e updates s u

/-- The states that calls of steps give back, from a state on, if updates of the embedding program
may come in between. -/
inductive GivesBack (e : Engine ω τ) (updates : State → State → Prop) (s : State) : State → Prop
  | refl : GivesBack e updates s s
  | call {t u : State} {i : Instruction} {ses ses' : Session ω τ} {successors : List State}
      (h : GivesBack e updates s t) (hrun : (e.call i t).run ses = (.ok successors, ses'))
      (hu : u ∈ successors) : GivesBack e updates s u
  | update {t u : State} (h : GivesBack e updates s t) (hupdate : updates t u) :
      GivesBack e updates s u

theorem GivesBack.descends {updates : State → State → Prop} {t : State}
    (h : e.GivesBack updates s t) : e.Descends updates s t := by
  induction h with
  | refl => exact .refl
  | call _ hrun hu ih => exact ih.step (step_of_call hrun).1 hu
  | update _ hupdate ih => exact ih.update hupdate

/-- If updates keep the counters in their words, so do calls. -/
theorem GivesBack.inRange {updates : State → State → Prop} {t : State} (h : e.GivesBack updates s t)
    (hs : s.InRange) (hupdate : ∀ {t u}, t.InRange → updates t u → u.InRange) : t.InRange := by
  induction h with
  | refl => exact hs
  | call _ hrun hu _ => exact (step_of_call hrun).2 _ hu
  | update _ hup ih => exact hupdate ih hup

theorem actsTo_of_run (htriggers : e.triggers = .absent τ) {i : Instruction} {t : State}
    {ses ses' : Session ω τ} {successors : List State}
    (hrun : (e.step i s).run ses = (.ok successors, ses')) (ht : t ∈ successors) :
    e.ActsTo s [] t :=
  Meets.of_ok (step_acts htriggers i s ses) hrun t ht

/-- What acts keep of a state and a hand, and updates of a state, holds of every descendant. -/
theorem Descends.keepsInHand {updates : State → State → Prop} (htriggers : e.triggers = .absent τ)
    {P : State → List Value → Prop}
    (hact : ∀ {s hand t hand'}, P s hand → Act e s hand t hand' → P t hand')
    (hempty : ∀ {s hand}, P s hand → P s [])
    (hupdate : ∀ {s t}, P s [] → updates s t → P t []) {t : State} (h : e.Descends updates s t)
    (hs : P s []) : P t [] := by
  induction h with
  | refl => exact hs
  | step _ hrun hu ih =>
    obtain ⟨hand, hacts⟩ := actsTo_of_run htriggers hrun hu
    exact hempty (hacts.keeps hact ih)
  | update _ hup ih => exact hupdate ih hup

/-- What acts and updates keep holds of every descendant. -/
theorem Descends.keeps {updates : State → State → Prop} (htriggers : e.triggers = .absent τ)
    {P : State → Prop}
    (hact : ∀ {s hand t hand'}, P s → Act e s hand t hand' → P t)
    (hupdate : ∀ {s t}, P s → updates s t → P t) {t : State} (h : e.Descends updates s t)
    (hs : P s) : P t :=
  h.keepsInHand htriggers (P := fun s _ => P s) hact (fun h => h) hupdate hs

/-- Calls the steps of instructions one after another, each time from the successor at a position
on. -/
def follow (e : Engine ω τ) (ses : Session ω τ) : List (Instruction × Nat) → State → Option State
  | [], s => some s
  | (i, k) :: rest, s => do
    let successors ← ((e.call i s).run ses).1.toOption
    let t ← successors[k]?
    e.follow ses rest t

theorem GivesBack.follow {updates : State → State → Prop} {ses : Session ω τ}
    {choices : List (Instruction × Nat)} {t u : State} (h : e.GivesBack updates s t)
    (hu : e.follow ses choices t = some u) : e.GivesBack updates s u := by
  induction choices generalizing t with
  | nil =>
    cases hu
    exact h
  | cons choice rest ih =>
    obtain ⟨i, k⟩ := choice
    obtain ⟨successors, hsuccessors, hu⟩ := Option.bind_eq_some_iff.1 hu
    obtain ⟨next, hnext, hu⟩ := Option.bind_eq_some_iff.1 hu
    rcases hrun : (e.call i t).run ses with ⟨error | _, after⟩
    · rw [hrun] at hsuccessors
      cases hsuccessors
    · rw [hrun] at hsuccessors
      cases hsuccessors
      exact ih (h.call hrun (List.mem_of_getElem? hnext)) hu

/-- What is checked of the state that the calls lead to holds of a state that they give back. -/
theorem exists_givesBack {ses : Session ω τ} {choices : List (Instruction × Nat)} {s : State}
    {P : State → Prop} [DecidablePred P]
    (h : ((e.follow ses choices s).any fun t => P t) = true) :
    ∃ t, e.GivesBack (· = ·) s t ∧ P t := by
  obtain ⟨t, ht, hfound⟩ := (Option.any_eq_true _ _).1 h
  exact ⟨t, GivesBack.refl.follow ht, of_decide_eq_true hfound⟩

end Engine

end SymbolicMachine
