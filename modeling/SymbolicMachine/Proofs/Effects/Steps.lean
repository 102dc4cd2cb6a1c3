import SymbolicMachine.Proofs.Effects.Successors
import SymbolicMachine.Proofs.Safety.Reachable
/-!
# What a step does

The successors of a step are forks of the state, numbered in order, and every fork is the state
after the instruction was executed or after it failed.  This is shown for the body of each
instruction, and then for the sorting of its results.
-/
namespace SymbolicMachine

open SymbolicMachine.Action

variable {ω τ ε α β : Type}

namespace Engine

/-! ## Bodies -/

/-- What a body came to, in terms of its instruction. -/
def Comes (i : Instruction) (s : State) : StepResult → Prop
  | .decided working alternatives => i.results = 1 ∧
      (∃ n, i.consumes = some n ∧ s.Progress n working) ∧ ∀ a ∈ alternatives, OfferedBy i s a
  | .forked successors => Branched i s successors
  | .done working => i.Effect s working

section Bodies

variable {e : Engine ω τ} {i : Instruction} {s t : State} {n : Nat}

theorem onState_good {m : State.Update α} {good : α → State → Prop}
    {bad : MemoryError → State → Prop} (h : m.Meets s good bad) :
    (onState (ω := ω) (τ := τ) s m).Always (fun r => good r.1 r.2) fun _ => True := by
  intro ses
  rw [meets_onState]
  exact h.mono (fun _ _ h => h) fun _ _ _ => trivial

/-- A body that ends with an update has the effect of the update. -/
theorem done_comes {m : State.Update Unit} {bad : MemoryError → State → Prop}
    (h : m.Meets t (fun _ => i.Effect s) bad) :
    (do let ((), u) ← onState t m
        pure (.done u) : Run ω τ Fault StepResult).Always (Comes i s) fun _ => True :=
  (onState_good h).bind fun _ hu => always_pure hu

theorem thrown_comes (h : s.Progress n t) {className : String}
    (hclass : className ∈ thrownClasses) :
    (thrown (ω := ω) (τ := τ) t className).Always (Comes i s) fun _ => True :=
  always_pure ((Instruction.Partway.of_progress h).throw hclass)

theorem popInt_progress (s : State) :
    (popInt (ω := ω) (τ := τ) s).Always
      (fun r => ∃ f rest below, s.frames = f :: rest ∧
        f.operands.operands = .primitive r.1 :: below ∧ r.2 = popped s f below rest)
      fun _ => True := fun _ =>
  meets_popInt (fun f rest _ below hf hv _ => ⟨f, rest, below, hf, hv, rfl⟩) fun _ _ => trivial

theorem popTarget_progress (s : State) :
    (popTarget (ω := ω) (τ := τ) s).Always
      (fun r => ∃ f rest ref below, s.frames = f :: rest ∧
        f.operands.operands = .reference ref :: below ∧ s.deref ref = .ok r.1 ∧
          r.2 = popped s f below rest) fun _ => True := fun _ =>
  meets_popTarget
    (fun f rest r below _ hf hv htarget => ⟨f, rest, r, below, hf, hv, htarget, rfl⟩)
    (fun _ _ _ _ _ _ _ _ => trivial) fun _ _ => trivial

theorem decideLoad_plain (s : State) (v : Value) :
    (e.decideLoad s v).Always (fun alternatives => ∀ a ∈ alternatives, a.access = none)
      fun _ => True := by
  refine (always_any _).bind fun _ _ => ?_
  split
  · refine (always_any _).bind fun _ _ => (always_any _).bind fun decisions _ => ?_
    refine always_pure fun a ha => ?_
    obtain ⟨d, -, rfl⟩ := List.mem_map.1 ha
    rfl
  · refine always_pure fun a ha => ?_
    cases List.mem_singleton.1 ha
    rfl

theorem decided_comes (h : s.Progress n t) (hn : i.consumes = some n) (hresults : i.results = 1)
    (v : Value) : (e.decided t v).Always (Comes i s) fun _ => True := by
  refine Always.bind ((decideLoad_plain t v).mapError fun _ h => h) fun alternatives hall => ?_
  refine always_pure ⟨hresults, ⟨n, hn, h⟩, fun a ha access haccess => ?_⟩
  cases (hall a ha).symm.trans haccess

theorem loadLocal_comes (slot length : Nat) :
    (e.loadLocal slot s).Always (Comes (.loadLocal slot length) s) fun _ => True :=
  (fetched_any _).bind fun v _ => decided_comes (.refl s) rfl rfl v

theorem getField_comes (name : String) :
    (e.getField name s).Always (Comes (.getField name) s) fun _ => True := by
  refine (popTarget_progress s).bind ?_
  rintro ⟨target, t⟩ ⟨f, rest, r, below, hf, hv, -, rfl⟩
  have hpopped := State.progress_popped hf hv
  cases target with
  | none => exact thrown_comes hpopped (by simp [thrownClasses])
  | some address =>
    refine (fetched_any _).bind fun o _ => (fetched_any _).bind fun v _ => ?_
    exact decided_comes hpopped rfl rfl v

/-! ### Array members -/

/-- An alternative of reading a member of an array, which is new only in an input array. -/
def ReadsMember (address : Nat) (array : ArrayObject) (index : Term) (a : Alternative) : Prop :=
  ∀ access, a.access = some access → access.array = address ∧ access.index = index ∧
    (access.fresh = true → array.origin.isSome = true)

section Members

variable {address : Nat} {array : ArrayObject} {index : Term}

theorem memberAlternatives_access (v : Value) (access : ArrayAccess) :
    (e.memberAlternatives s v access).Always
      (fun alternatives => ∀ a ∈ alternatives, a.access = some access) fun _ => True := by
  unfold memberAlternatives
  split
  · refine (always_any _).bind fun _ _ => (always_any _).bind fun decisions _ => ?_
    refine always_pure fun a ha => ?_
    obtain ⟨d, -, rfl⟩ := List.mem_map.1 ha
    rfl
  · refine always_pure fun a ha => ?_
    cases List.mem_singleton.1 ha
    rfl

theorem unrecordedMember_progress :
    (unrecordedMember (ω := ω) (τ := τ) s array index).Always
      (fun r => s.Progress 0 r.2 ∧ (r.1.2 = true → array.origin.isSome = true))
      fun _ => True := by
  unfold unrecordedMember
  split
  · rename_i container horigin
    have hcreate : (State.createSymbol array.memberType (.member container index)).Meets s
        (fun _ t => s.Progress 0 t) fun _ _ => True :=
      State.meets_createSymbol (fun _ _ => s.progress_withSymbols _) fun _ _ _ => trivial
    have hinput : array.origin.isSome = true := by
      rw [horigin]
      rfl
    exact (onState_good hcreate).bind fun r hr => always_pure ⟨hr, fun _ => hinput⟩
  · exact (ofExcept_any _ _).bind fun v _ => always_pure ⟨.refl s, nofun⟩

theorem outcomeAlternatives_member (outcome : AccessOutcome) :
    (e.outcomeAlternatives s address array index outcome).Always
      (fun r => s.Progress 0 r.1 ∧ ∀ a ∈ r.2, ReadsMember address array index a)
      fun _ => True := by
  have hmember : ∀ (fresh : Bool) (a : Alternative),
      (fresh = true → array.origin.isSome = true) →
        a.access = some ⟨outcome.guard, address, index, fresh⟩ →
          ReadsMember address array index a := by
    intro fresh a hfresh ha access haccess
    cases ha.symm.trans haccess
    exact ⟨rfl, rfl, hfresh⟩
  cases outcome with
  | outOfRange guard =>
    refine always_pure ⟨.refl s, fun a ha => ?_⟩
    cases List.mem_singleton.1 ha
    exact hmember false _ nofun rfl
  | entry guard v =>
    refine Always.bind ((memberAlternatives_access v _).mapError fun _ h => h) fun as has => ?_
    exact always_pure ⟨.refl s, fun a ha => hmember false a nofun (has a ha)⟩
  | unknown guard =>
    refine unrecordedMember_progress.bind ?_
    rintro ⟨⟨v, fresh⟩, t⟩ ⟨ht, hfresh⟩
    refine Always.bind ((memberAlternatives_access v _).mapError fun _ h => h) fun as has => ?_
    exact always_pure ⟨ht, fun a ha => hmember fresh a hfresh (has a ha)⟩

theorem decideOutcomes_members (outcomes : List AccessOutcome) :
    (e.decideOutcomes address array index s outcomes).Always
      (fun r => s.Progress 0 r.1 ∧ ∀ a ∈ r.2, ReadsMember address array index a)
      fun _ => True := by
  induction outcomes generalizing s with
  | nil => exact always_pure ⟨.refl s, nofun⟩
  | cons outcome rest ih =>
    unfold decideOutcomes
    refine (always_any _).bind fun _ _ => (always_any _).bind fun verdict _ => ?_
    split
    · refine (outcomeAlternatives_member outcome).bind ?_
      rintro ⟨t, here⟩ ⟨ht, hhere⟩
      refine ih.bind ?_
      rintro ⟨u, others⟩ ⟨hu, hothers⟩
      refine always_pure ⟨ht.trans hu, fun a ha => ?_⟩
      rcases List.mem_append.1 ha with ha | ha
      · exact hhere a ha
      · exact hothers a ha
    · exact ih

theorem decideArrayLoad_members (ho : s.heap.get address = .ok (.array array)) :
    (e.decideArrayLoad s address index).Always
      (fun r => s.Progress 0 r.1 ∧ ∀ a ∈ r.2, ReadsMember address array index a)
      fun _ => True := by
  refine (always_any _).bind fun _ _ => (ofExcept_any _ _).bind fun found hfound => ?_
  cases ho.symm.trans (Heap.getArray_eq_ok.1 hfound)
  exact (ofExcept_any _ _).bind fun outcomes _ => decideOutcomes_members outcomes

end Members

theorem arrayLoad_comes : (e.arrayLoad s).Always (Comes .arrayLoad s) fun _ => True := by
  refine (popInt_progress s).bind ?_
  rintro ⟨index, t⟩ ⟨f, rest, below, hf, hv, rfl⟩
  refine (popTarget_progress _).bind ?_
  rintro ⟨target, u⟩ ⟨f', rest', r, below', hf', hv', htarget, rfl⟩
  cases hf'
  have hpopped := (State.progress_popped hf hv).trans (State.progress_popped rfl hv')
  cases target with
  | none => exact thrown_comes hpopped (by simp [thrownClasses])
  | some address =>
    refine (fetched_any _).bind fun o ho => ?_
    cases o with
    | object contents =>
      intro ses
      refine meets_checked.2 ⟨?_, fun _ _ => trivial⟩
      rintro a ⟨⟩
    | array array =>
      refine (decideArrayLoad_members ho).bind ?_
      rintro ⟨working, alternatives⟩ ⟨hworking, hall⟩
      refine always_pure ⟨rfl, ⟨2, rfl, hpopped.trans hworking⟩, fun a ha access haccess => ?_⟩
      obtain ⟨harray, hindex, hfresh⟩ := hall a ha access haccess
      rw [harray, hindex]
      have hoperands : f.operands.operands = .primitive index :: .reference r :: below' :=
        hv.trans (congrArg (Value.primitive index :: ·) hv')
      exact ⟨⟨rfl, f, rest, r, below', hf, hoperands, htarget⟩, fun h => ⟨array, ho, hfresh h⟩⟩

/-! ### Allocations -/

theorem Ready.allocated {m : State.Update Nat} (hm : State.Quiet m) (h : s.Progress n t)
    (hn : i.consumes = some n) (hresults : i.results = 1) (hload : i ≠ .arrayLoad) :
    (do let address ← m
        pushAllocated address i.length : State.Update Unit).Meets t (fun _ => i.Effect s)
      fun _ => i.Partway s := by
  rw [meets_bind]
  refine (hm t).mono (fun address u hu => ?_) fun _ _ hu => .of_progress (h.trans hu)
  have hready : i.Ready s (.reference .null) u := .of_progress (h.trans hu) hn
  unfold pushAllocated
  rw [meets_bind]
  exact hready.meets_push hresults trivial fun hi => absurd hi hload

theorem allocateArray_effects (memberType className : String) (length : Term)
    (h : s.Progress 1 t) :
    (allocateArray className length (newArrayLength memberType)).Meets t
      (fun _ => (Instruction.newArray memberType).Effect s)
      fun _ => (Instruction.newArray memberType).Partway s :=
  Ready.allocated (i := .newArray memberType) (State.quiet_createArray className length) h rfl rfl
    nofun

theorem assumeInitialization_progress (className : String) :
    (e.assumeInitialization s className).Always
      (fun assumed => ∀ t, assumed = some t → s.Progress 0 t) fun _ => True := by
  have hassumed : ∀ c : Clause,
      (do let ((), t) ← onState s (State.assumeClause c)
          pure (some t) : Run ω τ Fault (Option State)).Always
        (fun assumed => ∀ t, assumed = some t → s.Progress 0 t) fun _ => True := by
    intro c
    refine (onState_good (State.quiet_assumeClause c s)).bind fun r hr => ?_
    refine always_pure fun t ht => ?_
    cases ht
    exact hr
  unfold assumeInitialization
  split
  · refine always_pure fun t ht => ?_
    cases ht
    exact .refl s
  · refine (always_any _).bind fun _ _ => (always_any _).bind fun before _ => ?_
    split
    · exact hassumed _
    · refine (always_any _).bind fun after _ => ?_
      split
      · exact hassumed _
      · exact always_pure nofun

theorem newInstance_comes (className : String) :
    (e.newInstance className s).Always (Comes (.newInstance className) s) fun _ => True := by
  refine (fetched_any _).bind fun f _ => (always_any _).bind fun c _ => ?_
  split
  · refine (always_any _).bind fun fields _ => ?_
    refine (assumeInitialization_progress className).bind fun assumed hassumed => ?_
    cases assumed with
    | none => exact always_pure ⟨[], rfl, nofun⟩
    | some t =>
      exact done_comes (Ready.allocated (i := .newInstance className)
        (State.quiet_createInstance className fields) (hassumed t rfl) rfl rfl nofun)
  · exact thrown_comes (.refl s) (by simp [thrownClasses])

theorem settled_effects {m : State.Update Unit} {fork : State}
    (hm : m.Meets t (fun _ => i.Effect s) fun _ => i.Partway s) (h : settled t m = .ok fork) :
    i.Effect s fork := by
  unfold settled at h
  split at h <;> rename_i hrun
  · cases h
    exact hm.of_ok hrun
  · exact (hm.of_error hrun).settle h

theorem forkIf_effects {condition : Term} {fork : Except ExecutionError State}
    (h : ∀ t, fork = .ok t → i.Effect s t) :
    (e.forkIf condition fork).Always (fun forks => ∀ t ∈ forks, i.Effect s t) fun _ => True := by
  refine (always_any _).bind fun verdict _ => ?_
  split
  · refine (ofExcept_any _ _).bind fun t ht => always_pure fun u hu => ?_
    cases List.mem_singleton.1 hu
    exact h t ht
  · exact always_pure nofun

theorem forkOnLength_comes (memberType className : String) (length : Term)
    (h : s.Progress 1 t) :
    (e.forkOnLength t className length (newArrayLength memberType)).Always
      (Comes (.newArray memberType) s) fun _ => True := by
  refine (always_any _).bind fun _ _ => (always_any _).bind fun _ _ => ?_
  refine (checked_any _).bind fun negative _ => (checked_any _).bind fun nonnegative _ => ?_
  have hassumed : ∀ condition, (State.assume condition).Meets t (fun _ => s.Progress 1)
      fun _ => (Instruction.newArray memberType).Partway s := fun condition =>
    (State.quiet_assume condition t).mono (fun _ _ hu => h.trans hu)
      fun _ _ hu => .of_progress (h.trans hu)
  have hfailing : ∀ u, negativeFork t negative = .ok u →
      (Instruction.newArray memberType).Effect s u := by
    refine fun u => settled_effects ?_
    rw [meets_bind]
    refine (hassumed negative).mono (fun _ u hu => ?_) fun _ _ h => h
    exact (Instruction.Partway.of_progress hu).throw (by simp [thrownClasses])
  have hpassing : ∀ u, nonnegativeFork t nonnegative className length
      (newArrayLength memberType) = .ok u → (Instruction.newArray memberType).Effect s u := by
    refine fun u => settled_effects ?_
    rw [meets_bind]
    refine (hassumed nonnegative).mono (fun _ u hu => ?_) fun _ _ h => h
    exact allocateArray_effects memberType className length hu
  refine (forkIf_effects hfailing).bind fun failing hfailing => ?_
  refine (forkIf_effects hpassing).bind fun passing hpassing => (always_any _).bind fun _ _ => ?_
  refine always_pure ⟨failing ++ passing, ?_, fun u hu => ?_⟩
  · rw [length_numbered]
  · rcases List.mem_append.1 hu with hu | hu
    · exact hfailing u hu
    · exact hpassing u hu

theorem newArray_comes (memberType : String) :
    (e.newArray memberType s).Always (Comes (.newArray memberType) s) fun _ => True := by
  refine (popInt_progress s).bind ?_
  rintro ⟨length, t⟩ ⟨f, rest, below, hf, hv, rfl⟩
  have hpopped := State.progress_popped hf hv
  dsimp only
  split
  · split
    · exact thrown_comes hpopped (by simp [thrownClasses])
    · exact done_comes (allocateArray_effects memberType _ _ hpopped)
  · exact forkOnLength_comes memberType _ length hpopped

/-! ### Invocations -/

theorem popArguments_progress (count : Nat) (isStatic : Bool) :
    (popArguments (ω := ω) (τ := τ) s count isStatic).Always
      (fun r => s.Progress (count + if isStatic then 0 else 1) r.2) fun _ => True := by
  unfold popArguments
  split
  · exact onState_good (State.meets_popOperands count s)
  · refine (onState_good (State.meets_popOperands (count + 1) s)).bind ?_
    rintro ⟨_ | ⟨receiver, args⟩, t⟩ ht
    · exact always_pure ht
    · exact (checked_any _).bind fun _ _ => always_pure ht

theorem results_of_invokePure {natives : NativeEvaluator} {method : MethodSignature}
    {args : List Value} {result : Option Value} (isStatic : Bool) (length : Nat)
    (h : natives.invokePure method args = .ok result) :
    (Instruction.invokeNative method isStatic length).results = result.toList.length := by
  unfold NativeEvaluator.invokePure at h
  unfold Instruction.results
  split at h
  · cases h
  · rename_i returned hreturned
    simp only [hreturned]
    split at h
    · rename_i hvoid
      cases h
      rw [if_pos hvoid]
      rfl
    · rename_i hvalue
      rw [if_neg hvalue]
      split at h
      · cases h
        rfl
      · obtain ⟨terms, -, h⟩ := bind_eq_ok.1 h
        obtain ⟨term, -, h⟩ := bind_eq_ok.1 h
        cases h
        rfl

theorem pushResult_effects {read : Value} {result : Option Value} (h : i.Ready s read t)
    (hresults : i.results = result.toList.length) (hload : i ≠ .arrayLoad) :
    (pushResult result i.length).Meets t (fun _ => i.Effect s) fun _ => i.Partway s := by
  cases result with
  | none => exact h.meets_incPc hresults hload
  | some v =>
    unfold pushResult
    rw [meets_bind, meets_ofExcept_mapError]
    refine ⟨fun w hw => ?_, fun _ _ => h.partway⟩
    rw [meets_bind]
    exact h.meets_push hresults (Value.isOperand_widen hw) fun hi => absurd hi hload

theorem invokeNative_comes (method : MethodSignature) (isStatic : Bool) (length : Nat) :
    (e.invokeNative method isStatic length s).Always
      (Comes (.invokeNative method isStatic length) s) fun _ => True := by
  refine (checked_any _).bind fun parameters hparameters => ?_
  refine (popArguments_progress parameters.length isStatic).bind ?_
  rintro ⟨args, t⟩ ht
  refine (ofExcept_any _ _).bind fun result hresult => ?_
  have hconsumes : (Instruction.invokeNative method isStatic length).consumes =
      some (parameters.length + if isStatic then 0 else 1) := by
    rw [Instruction.consumes, hparameters]
    rfl
  have hready : (Instruction.invokeNative method isStatic length).Ready s (.reference .null) t :=
    .of_progress ht hconsumes
  have hresults := results_of_invokePure isStatic length hresult
  have hpush := pushResult_effects hready hresults nofun
  exact done_comes hpush

theorem invokeIsExplored_comes :
    (invokeIsExplored (ω := ω) (τ := τ) s).Always (Comes .invokeIsExplored s) fun _ => True := by
  have hready : Instruction.invokeIsExplored.Ready s (.reference .null) s :=
    .of_progress (.refl s) rfl
  have hpush := hready.meets_push rfl (w := .primitive (.ofInt 1)) rfl nofun
  exact done_comes ((meets_bind _ _).2 hpush)

theorem body_comes (i : Instruction) (s : State) :
    (e.body i s).Always (Comes i s) fun _ => True := by
  cases i with
  | loadLocal slot length => exact loadLocal_comes slot length
  | getField name => exact getField_comes name
  | arrayLoad => exact arrayLoad_comes
  | newInstance className => exact newInstance_comes className
  | newArray memberType => exact newArray_comes memberType
  | invokeNative method isStatic length => exact invokeNative_comes method isStatic length
  | invokeIsExplored => exact invokeIsExplored_comes

/-- The successors of a step are forks of the state, numbered in order, to which the instruction
was done. -/
theorem step_branched (htriggers : e.triggers = .absent τ) (i : Instruction) (s : State) :
    (e.step i s).Always (Branched i s) fun _ => True := by
  intro ses
  have hbody : (e.body i s).Always (Comes i s) fun _ => True := body_comes i s
  refine meets_execute ((hbody ses).mono (fun result ses' hresult => ?_) fun fault ses' _ => ?_)
  · cases result with
    | decided working alternatives =>
      obtain ⟨hresults, ⟨n, hn, hprogress⟩, hall⟩ := hresult
      exact refine_effects htriggers hall hprogress hn hresults ses'
    | forked successors => exact hresult
    | done working => exact branched_single hresult
  · change Meets (ofExcept (fault.settle s) >>= fun failed => single failed) _ _ _
    rw [meets_bind, meets_ofExcept]
    refine ⟨fun t ht => ?_, fun _ _ => trivial⟩
    exact branched_single ((Instruction.Partway.of_progress (.refl s)).settle ht)

theorem mem_numbered {branching : Bool} {number : Nat} {forks : List State} {u : State}
    (h : u ∈ numbered branching number forks) :
    ∃ fork ∈ forks, ∃ k, u = successorOf fork branching k := by
  induction forks generalizing number with
  | nil => cases h
  | cons t rest ih =>
    rcases List.mem_cons.1 h with rfl | h
    · exact ⟨t, List.mem_cons_self, number, rfl⟩
    · obtain ⟨fork, hfork, hk⟩ := ih h
      exact ⟨fork, List.mem_cons_of_mem _ hfork, hk⟩

/-- Every successor of a step of a running state has the frames below the current one, and its
method, code and local variables.  Its old objects are unchanged, except that `arrayLoad` may have
recorded what it read in an input array, at the index at which it read.  Either it goes on: then
the instruction took its operands off, pushed its result and moved on inside the code.  Or it
threw a new exception, and the program counter is where it was. -/
theorem step_keeps_contract (htriggers : e.triggers = .absent τ) {f : Frame} {rest : List Frame}
    (hframes : s.frames = f :: rest) (hrunning : s.ending = none) {ses after : Session ω τ}
    {successors : List State} (hstep : (e.step i s).run ses = (.ok successors, after))
    (ht : t ∈ successors) :
    ∃ read g, t.frames = g :: rest ∧ g.method = f.method ∧ g.code = f.code ∧
      g.locals = f.locals ∧ s.heap.KeptBut (i.Loads s) read t.heap ∧
      ((t.ending = none ∧ g.pc = f.pc + i.length ∧ g.pc < g.code.length ∧
          ∃ count pushed, i.consumes = some count ∧ count ≤ f.operands.operands.length ∧
            g.operands.operands = pushed ++ f.operands.operands.drop count ∧
            pushed.length = i.results ∧ (∀ v ∈ pushed, v.IsOperand) ∧
            (i = .arrayLoad → ∃ w, read.widen = .ok w ∧ pushed = [w])) ∨
        (g.pc = f.pc ∧ ∃ className ∈ thrownClasses, ∃ address, s.heap.next ≤ address ∧
          t.heap.get address = .ok (.object (.create className none [])) ∧
            t.ending = some (.threw (.concrete address)))) := by
  obtain ⟨forks, hnumbered, hforks⟩ := (step_branched htriggers i s ses).of_ok hstep
  rw [hnumbered] at ht
  obtain ⟨fork, hfork, k, rfl⟩ := mem_numbered ht
  rw [successorOf_eq]
  obtain ⟨read, hobjects, hexecuted | hfailed⟩ := (hforks fork hfork).change
  · obtain ⟨_, _, count, pushed, hf, hcount, henough, hresults, hoperands, hload, hpc, hg⟩ :=
      hexecuted.frames
    cases hframes.symm.trans hf
    exact ⟨read, _, hg, rfl, rfl, rfl, hobjects, .inl ⟨hexecuted.ending.trans hrunning, rfl, hpc,
      count, pushed, hcount, henough, rfl, hresults, hoperands, hload⟩⟩
  · have hg : ∃ operands, fork.frames = { f with operands := operands } :: rest := by
      rcases hfailed.frames with hsame | ⟨f', rest', operands, hf, hg⟩
      · exact ⟨f.operands, hsame.trans hframes⟩
      · cases hframes.symm.trans hf
        exact ⟨operands, hg⟩
    obtain ⟨operands, hg⟩ := hg
    exact ⟨read, _, hg, rfl, rfl, rfl, hobjects, .inr ⟨rfl, hfailed.ending⟩⟩

end Bodies

/-- A state that is about to read the first member of its input array. -/
def memberRoot : State :=
  let r : RefSymbol := ⟨0, "[I", .root "arg0"⟩
  let prepare : State.Update Unit := do
    let _ ← State.assumeExpands r "[I" []
    State.pushOperand (.reference (.symbolic r))
    State.pushOperand (.primitive (.ofInt 0))
  (prepare.run arrayRoot).2

/-- On the path on which the index is in bounds the member is pushed in place of the index and the
array, and at most its record is new in the array. -/
theorem array_load_replaces_operands :
    let e := permissive .initial
    ∃ successors after,
      (e.step .arrayLoad memberRoot).run (.start [] ()) = (.ok successors, after) ∧
        ∃ t ∈ successors, t.ending = none ∧ ∃ read w g, read.widen = .ok w ∧ t.frames = [g] ∧
          g.pc = 1 ∧ g.operands.operands = [w] ∧
            memberRoot.heap.KeptBut (Instruction.arrayLoad.Loads memberRoot) read t.heap := by
  intro e
  have hfirst : ((((e.step .arrayLoad memberRoot).run (.start [] ())).1.toOption.bind
      List.head?).any fun t => t.ending.isNone) = true := by decide +kernel
  rcases hrun : (e.step .arrayLoad memberRoot).run (.start [] ()) with
    ⟨_ | _ | ⟨t, others⟩, after⟩ <;> rw [hrun] at hfirst
  · cases hfirst
  · cases hfirst
  have hending : t.ending = none := Option.isNone_iff_eq_none.1 hfirst
  obtain ⟨read, g, hg, -, -, -, hobjects, hgoes | ⟨-, _, -, _, -, -, hthrew⟩⟩ :=
    step_keeps_contract (i := .arrayLoad) (s := memberRoot) rfl rfl rfl hrun (.head _)
  · obtain ⟨-, hpc, -, count, pushed, hcount, -, hoperands, -, -, hload⟩ := hgoes
    obtain ⟨w, hw, rfl⟩ := hload rfl
    cases hcount
    exact ⟨_, _, rfl, t, .head _, hending, read, w, g, hw, hg, hpc, hoperands, hobjects⟩
  · cases hending.symm.trans hthrew

end Engine

end SymbolicMachine
