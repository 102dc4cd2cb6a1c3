import SymbolicMachine.Proofs.Safety.Successors
/-!
# Steps without engine faults

Starting from a sound state, no step of an undisturbed engine fails: whatever is wrong with the
analysed program ends the path of a successor.  Each body pops operands that can be followed, and
what it allocates or loads can be followed afterwards.  A step may still hang at a class that is
above itself.
-/
namespace SymbolicMachine

open SymbolicMachine.Action

variable {ω τ ε α β : Type}

namespace Engine

/-! ## Bodies -/

/-- A fault in the body of an instruction that an undisturbed engine may have. -/
def MayFault (t : ClassTable) (i : Instruction) (fault : Fault) : Prop :=
  fault.Expected t ∨ ∃ x, fault = .execution x ∧ i.MayFail x

def SafeResult (t : ClassTable) (s : State) : StepResult → Prop
  | .decided working alternatives =>
    s.Follows working ∧ ∀ a ∈ alternatives, Applicable t working a
  | .forked successors => ∀ t ∈ successors, s.Follows t
  | .done working => s.Follows working

section Bodies

variable {e : Engine ω τ} {s : State} {i : Instruction} (he : e.Steady)

theorem onState_always {m : State.Update α} {post : α → State → Prop} (h : State.Safe m s post) :
    (onState (ω := ω) (τ := τ) s m).Always (fun r => s.Follows r.2 ∧ post r.1 r.2)
      Fault.EndsPath := by
  intro ses
  rw [meets_onState]
  exact h.mono (fun _ _ ht => ht) fun _ _ ht => ht.2

theorem checked_always {r : Except ValueError α} :
    (checked (ω := ω) (τ := τ) r).Always (fun a => r = .ok a) Fault.EndsPath :=
  fun _ => meets_checked.2 ⟨fun _ ha => ha, fun _ _ => rfl⟩

theorem fetched_always {r : Except MemoryError α}
    (h : ∀ error, r = .error error → error.isEngineFault = false) :
    (fetched (ω := ω) (τ := τ) r).Always (fun a => r = .ok a) Fault.EndsPath :=
  fun _ => meets_fetched.2 ⟨fun _ ha => ha, h⟩

theorem fetched_of_ok {r : Except MemoryError α} {a : α} (h : r = .ok a) :
    (fetched (ω := ω) (τ := τ) r).Always (fun b => b = a) Fault.EndsPath := by
  subst h
  exact fun _ => rfl

/-- A class can be told apart from one that is missing or out of sight without a search. -/
theorem resolve_always {t : ClassTable} {accessor name : String} :
    (ofExcept ((t.resolve accessor name).mapError Fault.linkage) : Run ω τ Fault ClassInfo).Always
      (fun c => t.classes.get? name = some c) Fault.EndsPath :=
  fun _ => meets_linked.2
    ⟨fun _ hc => ClassTable.get?_of_resolve hc, fun _ h => ClassTable.isEndless_of_resolve h⟩

/-- The fields of a class that can have instances are found, or what stands in the way is
expected. -/
theorem instanceFields_always {t : ClassTable} {name : String} (hname : t.Instantiable name) :
    (ofExcept ((t.instanceFields name).mapError Fault.linkage) :
      Run ω τ Fault (List FieldInfo)).Always (fun _ => True) (Fault.Expected t) :=
  fun _ => meets_linked.2
    ⟨fun _ _ => trivial, fun _ hcause => Fault.expected_of_instanceFields hname hcause⟩

section Always

variable {t : ClassTable} {m : Run ω τ Fault α} {post : α → Prop}

theorem Always.expected (hm : m.Always post Fault.EndsPath) :
    m.Always post (Fault.Expected t) :=
  fun ses => (hm ses).mono (fun _ _ h => h) fun _ _ h => .inl h

theorem Always.mayFault (hm : m.Always post (Fault.Expected t)) : m.Always post (MayFault t i) :=
  fun ses => (hm ses).mono (fun _ _ h => h) fun _ _ h => .inl h

theorem Always.mayFault_of_endsPath (hm : m.Always post Fault.EndsPath) :
    m.Always post (MayFault t i) :=
  Always.mayFault (Always.expected hm)

end Always

theorem popInt_always (hs : s.Sound) :
    (popInt (ω := ω) (τ := τ) s).Always (fun r => s.Follows r.2) Fault.EndsPath := by
  refine (onState_always (State.safe_popOperand hs)).bind fun popped hpopped => ?_
  refine checked_always.bind fun t _ => checked_always.bind fun _ _ => ?_
  exact always_pure hpopped.1

theorem deref_usable {r : Reference} (hs : s.Sound) (hr : s.Usable (.reference r)) :
    ∃ target, s.deref r = .ok target ∧ ∀ a, target = some a → s.InUse a := by
  cases r with
  | null => exact ⟨none, rfl, nofun⟩
  | concrete a =>
    refine ⟨some a, rfl, fun b hb => ?_⟩
    cases hb
    exact hr
  | symbolic r =>
    obtain ⟨c, hc⟩ := PathCondition.isResolved_iff.1 hr
    refine ⟨c.address?, ?_, fun a ha => hs.targets hc ha⟩
    have hresolution : s.resolution? r = some c := hc
    simp only [State.deref, hresolution]

theorem popTarget_always (hs : s.Sound) :
    (popTarget (ω := ω) (τ := τ) s).Always
      (fun r => s.Follows r.2 ∧ ∀ a, r.1 = some a → r.2.InUse a) Fault.EndsPath := by
  refine (onState_always (State.safe_popOperand hs)).bind fun popped hpopped => ?_
  obtain ⟨v, t⟩ := popped
  obtain ⟨hst, hv⟩ := hpopped
  refine checked_always.bind fun r hr => ?_
  cases v with
  | primitive t => cases hr
  | reference r' =>
    cases hr
    obtain ⟨target, htarget, hinUse⟩ := deref_usable hst.sound hv
    refine (fetched_of_ok htarget).bind fun target' heq => ?_
    subst heq
    exact always_pure ⟨hst, hinUse⟩

theorem single_always {s t : State} (h : s.Follows t) {bad : ExecutionError → Prop} :
    (single (ω := ω) (τ := τ) t).Always (fun successors => ∀ u ∈ successors, s.Follows u) bad := by
  intro ses u hu
  cases List.mem_singleton.1 hu
  exact ⟨⟨h.sound.operands, h.sound.locals, h.sound.contents, h.sound.targets, h.sound.inputs⟩,
    h.grows.trans (.of_eq rfl rfl rfl)⟩

theorem thrown_always {s t : State} (h : s.Follows t) (className : String) :
    (thrown (ω := ω) (τ := τ) t className).Always (SafeResult e.classes s) Fault.EndsPath :=
  always_pure (h.trans ⟨h.sound.throwNew _, t.grows_throwNew _⟩)

theorem getLocal_grounded (hs : s.Sound) {slot : Nat} {v : Value} (h : s.getLocal slot = .ok v) :
    s.Grounded v := by
  obtain ⟨f, hf, hv⟩ := State.exists_frame_of_getLocal h
  exact hs.locals f hf v hv

theorem currentFrame_error {error : MemoryError} (h : s.currentFrame = .error error) :
    error.isEngineFault = false := by
  unfold State.currentFrame at h
  split at h
  · cases h
  · cases h
    rfl

theorem getLocal_error {slot : Nat} {error : MemoryError} (h : s.getLocal slot = .error error) :
    error.isEngineFault = false := by
  rcases bind_eq_error.1 h with h | ⟨f, -, h⟩
  · exact currentFrame_error h
  · unfold Locals.get at h
    split at h <;> cases h <;> rfl

theorem readLocal_always (hs : s.Sound) (slot : Nat) (policy : UnwrittenSlot) :
    (fetched (ω := ω) (τ := τ) (readLocal s slot policy)).Always (fun v => s.Grounded v)
      Fault.EndsPath := by
  intro ses
  refine meets_fetched.2 ⟨fun v hv => ?_, fun error herror => ?_⟩
  · unfold readLocal at hv
    split at hv
    · rename_i w hw
      cases hv
      exact getLocal_grounded hs hw
    · split at hv
      · split at hv
        · cases hv
        · split at hv
          · exact (State.default_usable (mapError_eq_ok.1 hv) s).grounded
          · cases hv
      · cases hv
  · show error.isEngineFault = false
    unfold readLocal at herror
    split at herror
    · cases herror
    · rename_i x hx
      split at herror
      · split at herror
        · rename_i hframe
          cases herror
          exact currentFrame_error hframe
        · split at herror
          · obtain ⟨cause, -, rfl⟩ := mapError_eq_error.1 herror
            rfl
          · cases herror
            exact getLocal_error hx
      · cases herror
        exact getLocal_error hx

include he

theorem decided_always {s t : State} {v : Value} (hst : s.Follows t) (hv : t.Grounded v) :
    (e.decided t v).Always (SafeResult e.classes s) Fault.EndsPath :=
  Always.bind ((decideLoad_always he hv).mapError fun _ h => h.elim)
    fun _ hall => always_pure ⟨hst, hall⟩

theorem loadLocal_always (hs : s.Sound) (slot : Nat) :
    (e.loadLocal slot s).Always (SafeResult e.classes s) Fault.EndsPath :=
  (readLocal_always hs slot _).bind fun _ hv => decided_always he ⟨hs, .refl s⟩ hv

theorem getField_always (hs : s.Sound) (name : String) :
    (e.getField name s).Always (SafeResult e.classes s) Fault.EndsPath := by
  refine (popTarget_always hs).bind fun popped hpopped => ?_
  rcases popped with ⟨_ | address, t⟩
  · exact thrown_always hpopped.1 _
  · obtain ⟨o, ho⟩ := hpopped.2 address rfl
    refine (fetched_of_ok ho).bind fun o' heq => ?_
    subst heq
    refine (fetched_always fun error => HeapObject.getField_error).bind fun v hv => ?_
    exact decided_always he hpopped.1
      (hpopped.1.sound.contents ho (HeapObject.contains_of_getField hv))

theorem decideArrayLoad_always (hs : s.Sound) {address : Nat} {a : ArrayObject} (index : Term)
    (ha : s.heap.get address = .ok (.array a)) :
    (e.decideArrayLoad s address index).Always (DecidedIn e.classes s) Fault.EndsPath := by
  have harray : s.getArray address = .ok a := Heap.getArray_eq_ok.2 ha
  refine (count_always _).bind fun _ _ => ?_
  refine (fetched_of_ok harray).bind fun a' heq => ?_
  subst heq
  refine checked_always.bind fun outcomes houtcomes => ?_
  exact decideOutcomes_always he hs harray fun guard v hmem =>
    hs.contents ha (contains_of_mem_get houtcomes hmem)

theorem arrayLoad_always (hs : s.Sound) :
    (e.arrayLoad s).Always (SafeResult e.classes s) Fault.EndsPath := by
  refine (popInt_always hs).bind fun popped hpopped => ?_
  obtain ⟨index, t⟩ := popped
  refine (popTarget_always hpopped.sound).bind fun popped' hpopped' => ?_
  rcases popped' with ⟨_ | address, u⟩
  · exact thrown_always (hpopped.trans hpopped'.1) _
  · obtain ⟨o, ho⟩ := hpopped'.2 address rfl
    have hu := hpopped.trans hpopped'.1
    refine (fetched_of_ok ho).bind fun o' heq => ?_
    subst heq
    cases o' with
    | object i => exact fun _ => meets_checked.2 ⟨nofun, fun _ _ => rfl⟩
    | array a =>
      refine (decideArrayLoad_always he hu.sound index ho).bind fun result hresult => ?_
      obtain ⟨t', alternatives⟩ := result
      obtain ⟨⟨n, hn⟩, hall⟩ := hresult
      cases hn
      refine always_pure ⟨hu.trans ⟨hu.sound.withSymbols n, .of_eq rfl rfl rfl⟩, fun b hb => ?_⟩
      exact ⟨(hall b hb).decision, (hall b hb).member⟩

/-! ### Allocations -/

omit he in
theorem safe_pushAllocated (hs : s.Sound) {address : Nat} (offset : Nat) (ha : s.InUse address) :
    State.Safe (pushAllocated address offset) s fun _ _ => True :=
  (State.safe_pushOperand hs (v := .reference (.concrete address)) ha).bind
    fun _ _ hst _ => State.safe_incPc hst.sound offset

omit he in
theorem safe_allocateArray (hs : s.Sound) (className : String) (length : Term) (offset : Nat) :
    State.Safe (allocateArray className length offset) s fun _ _ => True :=
  (State.safe_createArray hs className length).bind
    fun _ _ hst ha => safe_pushAllocated hst.sound offset ha

omit he in
theorem safe_assumeClause (hs : s.Sound) {c : Clause} (hc : c.reference? = none) :
    State.Safe (State.assumeClause c) s fun _ _ => True := by
  refine State.meets_assumeClause
    (fun p hp => ⟨⟨hs.withPath hp fun a ha => ?_, State.grows_withPath hp⟩, trivial⟩)
    fun r hr => absurd (hc.symm.trans hr) nofun
  cases c with
  | assume condition => cases ha
  | initialized className => cases ha
  | notInitialized className => cases ha
  | isNull r => cases hc
  | expands r address className => cases hc
  | aliases r address => cases hc

omit he in
theorem assumed_always (hs : s.Sound) {c : Clause} (hc : c.reference? = none) :
    (do let ((), t) ← onState s (State.assumeClause c)
        pure (some t) : Run ω τ Fault (Option State)).Always
      (fun assumed => ∀ t, assumed = some t → s.Follows t) Fault.EndsPath := by
  refine (onState_always (safe_assumeClause hs hc)).bind fun r hr => always_pure fun t ht => ?_
  cases ht
  exact hr.1

theorem assumeInitialization_always (hs : s.Sound) (className : String) :
    (e.assumeInitialization s className).Always (fun assumed => ∀ t, assumed = some t → s.Follows t)
      Fault.EndsPath := by
  unfold assumeInitialization
  split
  · refine always_pure fun t ht => ?_
    cases ht
    exact ⟨hs, .refl s⟩
  · refine Always.bind ((sync_answers he s).mapError fun _ h => h.elim) fun _ _ => ?_
    refine Always.bind ((query_answers he _).mapError fun _ h => h.elim) fun before _ => ?_
    split
    · exact assumed_always hs rfl
    · refine Always.bind ((query_answers he _).mapError fun _ h => h.elim) fun after _ => ?_
      split
      · exact assumed_always hs rfl
      · refine always_pure fun t ht => ?_
        cases ht

theorem newInstance_always (hs : s.Sound) (className : String) :
    (e.newInstance className s).Always (SafeResult e.classes s) (Fault.Expected e.classes) := by
  refine (Always.expected (fetched_always fun _ => currentFrame_error)).bind fun f _ => ?_
  refine (Always.expected resolve_always).bind fun c hc => ?_
  split
  · rename_i hconcrete
    refine (instanceFields_always ⟨c, hc, hconcrete⟩).bind fun fields _ => ?_
    refine (Always.expected (assumeInitialization_always he hs className)).bind
      fun assumed hassumed => ?_
    cases assumed with
    | none => exact always_pure nofun
    | some t =>
      have hst := hassumed t rfl
      have hallocate : State.Safe (allocateInstance className fields) t fun _ _ => True :=
        (State.safe_createInstance hst.sound className fields).bind
          fun _ _ htu ha => safe_pushAllocated htu.sound newInstanceLength ha
      exact (Always.expected (onState_always hallocate)).bind
        fun r hr => always_pure (hst.trans hr.1)
  · exact Always.expected (thrown_always ⟨hs, .refl s⟩ _)

omit he in
theorem exists_settled {m : State.Update Unit} {post : Unit → State → Prop}
    (h : State.Safe m s post) : ∃ t, settled s m = .ok t ∧ s.Follows t := by
  unfold settled
  rcases hrun : m.run s with ⟨error | _, t⟩
  · obtain ⟨hst, hmild⟩ := Meets.of_error h hrun
    obtain ⟨u, hu, htu⟩ := Fault.exists_settle (.memory error) hmild hst.sound
    exact ⟨u, hu, hst.trans htu⟩
  · exact ⟨t, rfl, (Meets.of_ok h hrun).1⟩

theorem forkIf_always {condition : Term} {fork : Except ExecutionError State} {t : State}
    (hfork : fork = .ok t) (hst : s.Follows t) :
    (e.forkIf condition fork).Always (fun forks => ∀ u ∈ forks, s.Follows u) Fault.EndsPath := by
  refine Always.bind ((query_answers he _).mapError fun _ h => h.elim) fun verdict _ => ?_
  split
  · rw [hfork]
    refine always_pure fun u hu => ?_
    cases List.mem_singleton.1 hu
    exact hst
  · exact always_pure nofun

omit he in
theorem follows_numbered {forks : List State} (h : ∀ t ∈ forks, s.Follows t) (branching : Bool)
    (number : Nat) : ∀ t ∈ numbered branching number forks, s.Follows t := by
  induction forks generalizing number with
  | nil => exact nofun
  | cons t rest ih =>
    have ht := h t List.mem_cons_self
    intro u hu
    rcases List.mem_cons.1 hu with rfl | hu
    · exact ht.trans (follows_successorOf ht.sound branching number)
    · exact ih (fun v hv => h v (List.mem_cons_of_mem _ hv)) (number + 1) u hu

theorem forkOnLength_always (hs : s.Sound) (className : String) (length : Term) (offset : Nat) :
    (e.forkOnLength s className length offset).Always (SafeResult e.classes s) Fault.EndsPath := by
  have hnegative : ∀ negative, ∃ t, negativeFork s negative = .ok t ∧ s.Follows t := by
    intro negative
    exact exists_settled ((State.safe_assume hs negative).bind fun _ t hst _ =>
      State.safe_throwNew hst.sound negativeArraySize)
  have hnonnegative : ∀ nonnegative, ∃ t,
      nonnegativeFork s nonnegative className length offset = .ok t ∧ s.Follows t := by
    intro nonnegative
    exact exists_settled ((State.safe_assume hs nonnegative).bind fun _ t hst _ =>
      safe_allocateArray hst.sound className length offset)
  refine (count_always _).bind fun _ _ => ?_
  refine Always.bind ((sync_answers he s).mapError fun _ h => h.elim) fun _ _ => ?_
  refine checked_always.bind fun negative _ => checked_always.bind fun nonnegative _ => ?_
  obtain ⟨t, ht, hst⟩ := hnegative negative
  obtain ⟨u, hu, hsu⟩ := hnonnegative nonnegative
  refine (forkIf_always he ht hst).bind fun failing hfailing => ?_
  refine (forkIf_always he hu hsu).bind fun passing hpassing => ?_
  refine (count_always _).bind fun _ _ => always_pure (follows_numbered (fun v hv => ?_) _ _)
  rcases List.mem_append.1 hv with hv | hv
  · exact hfailing v hv
  · exact hpassing v hv

theorem newArray_always (hs : s.Sound) (memberType : String) :
    (e.newArray memberType s).Always (SafeResult e.classes s) Fault.EndsPath := by
  unfold newArray
  refine (popInt_always hs).bind fun popped hpopped => ?_
  obtain ⟨length, t⟩ := popped
  dsimp only
  split
  · split
    · exact thrown_always hpopped _
    · exact (onState_always (safe_allocateArray hpopped.sound _ _ _)).bind fun r hr =>
        always_pure (hpopped.trans hr.1)
  · intro ses
    refine (forkOnLength_always he hpopped.sound _ _ _ ses).mono (fun result _ hresult => ?_)
      fun _ _ h => h
    cases result with
    | decided working alternatives => exact ⟨hpopped.trans hresult.1, hresult.2⟩
    | forked successors => exact fun u hu => hpopped.trans (hresult u hu)
    | done working => exact hpopped.trans hresult

/-! ### Invocations -/

omit he in
theorem safe_pushResult (hs : s.Sound) {result : Option Value} (offset : Nat)
    (hresult : ∀ v, result = some v → s.Usable v) :
    State.Safe (pushResult result offset) s fun _ _ => True := by
  unfold pushResult
  cases result with
  | none => exact State.safe_incPc hs offset
  | some v =>
    have hwidened : State.Safe (ofExcept (v.widen.mapError .value)) s fun w t => t.Usable w :=
      State.safe_value hs fun w hw => usable_widen (hresult v rfl) hw
    refine hwidened.bind fun w t hst hw => ?_
    exact (State.safe_pushOperand hst.sound hw).bind fun _ u htu _ =>
      State.safe_incPc htu.sound offset

omit he in
theorem popArguments_always (hs : s.Sound) (count : Nat) (isStatic : Bool) :
    (popArguments (ω := ω) (τ := τ) s count isStatic).Always (fun r => s.Follows r.2)
      Fault.EndsPath := by
  unfold popArguments
  split
  · intro ses
    exact (onState_always (State.safe_popOperands hs count) ses).mono (fun _ _ h => h.1)
      fun _ _ h => h
  · refine (onState_always (State.safe_popOperands hs (count + 1))).bind fun popped hpopped => ?_
    rcases popped with ⟨_ | ⟨receiver, args⟩, t⟩
    · exact always_pure hpopped.1
    · exact checked_always.bind fun _ _ => always_pure hpopped.1

omit he in
theorem invokeNative_always (hn : e.natives.OnlyRejects) (hs : s.Sound)
    (method : MethodSignature) (isStatic : Bool) (length : Nat) :
    (e.invokeNative method isStatic length s).Always (SafeResult e.classes s)
      (MayFault e.classes (.invokeNative method isStatic length)) := by
  refine (Always.mayFault_of_endsPath checked_always).bind fun parameters _ => ?_
  refine (Always.mayFault_of_endsPath (popArguments_always hs _ _)).bind fun popped hpopped => ?_
  obtain ⟨args, t⟩ := popped
  have hinvoke : (ofExcept ((e.natives.invokePure method args).mapError .execution) :
      Run ω τ Fault (Option Value)).Always (fun result => ∀ v, result = some v → t.Usable v)
        (MayFault e.classes (.invokeNative method isStatic length)) := by
    refine always_ofExcept (fun result hresult v hv => ?_) fun fault hfault => ?_
    · cases hv
      exact NativeEvaluator.invokePure_usable t (mapError_eq_ok.1 hresult)
    · obtain ⟨x, hx, rfl⟩ := mapError_eq_error.1 hfault
      exact .inr ⟨x, rfl, ⟨_, _, _, rfl⟩, NativeEvaluator.invokePure_rejects hn hx⟩
  refine hinvoke.bind fun result hresult => ?_
  have hpush := safe_pushResult hpopped.sound length hresult
  refine (Always.mayFault_of_endsPath (onState_always hpush)).bind fun r hr => ?_
  exact always_pure (hpopped.trans hr.1)

omit he in
theorem invokeIsExplored_always (hs : s.Sound) :
    (invokeIsExplored (ω := ω) (τ := τ) s).Always (SafeResult e.classes s) Fault.EndsPath := by
  have hpush : State.Safe (do
      State.pushOperand (.primitive (.ofInt 1))
      State.incPc invokeStaticLength) s fun _ _ => True :=
    (State.safe_pushOperand hs (v := .primitive (.ofInt 1)) trivial).bind fun _ _ hst _ =>
      State.safe_incPc hst.sound _
  exact (onState_always hpush).bind fun r hr => always_pure hr.1

/-- A step is in order if the body of the instruction is. -/
theorem execute_always (hs : s.Sound) {offset : Nat} {body : Body ω τ}
    (hbody : (body s).Always (SafeResult e.classes s) (MayFault e.classes i)) :
    (e.execute offset body s).Always (fun successors => ∀ t ∈ successors, s.Follows t)
      fun x => i.MayFail x.cause ∨ x.cause.Hangs e.classes := by
  intro ses
  refine meets_execute ((hbody ses).mono (fun result ses' hresult => ?_)
    fun fault ses' hfault => ?_)
  · cases result with
    | decided working alternatives =>
      refine (refineFrom_always he hresult.1.sound hresult.2 ses').mono
        (fun successors _ hall t ht => hresult.1.trans (hall t ht)) fun _ _ h => .inr h
    | forked successors => exact hresult
    | done working => exact single_always hresult ses'
  · change Meets (ofExcept (fault.settle s) >>= fun failed => single failed) _ _ _
    rw [meets_bind, meets_ofExcept]
    rcases hfault with (hends | ⟨cause, hhangs, rfl⟩) | ⟨x, rfl, hx⟩
    · obtain ⟨t, ht, hst⟩ := Fault.exists_settle _ hends hs
      rw [ht]
      refine ⟨fun u hu => ?_, nofun⟩
      cases hu
      exact single_always hst ses'
    · rw [hhangs.settle]
      refine ⟨nofun, fun y hy => ?_⟩
      cases hy
      exact .inr ⟨cause, hhangs, rfl⟩
    · refine ⟨nofun, fun y hy => ?_⟩
      cases hy
      exact .inl hx

theorem body_always (hn : e.natives.OnlyRejects) (hs : s.Sound) (i : Instruction) :
    (e.body i s).Always (SafeResult e.classes s) (MayFault e.classes i) := by
  cases i with
  | loadLocal slot length => exact Always.mayFault_of_endsPath (loadLocal_always he hs slot)
  | getField name => exact Always.mayFault_of_endsPath (getField_always he hs name)
  | arrayLoad => exact Always.mayFault_of_endsPath (arrayLoad_always he hs)
  | newInstance className => exact Always.mayFault (newInstance_always he hs className)
  | newArray memberType => exact Always.mayFault_of_endsPath (newArray_always he hs memberType)
  | invokeNative method isStatic length => exact invokeNative_always hn hs method isStatic length
  | invokeIsExplored => exact Always.mayFault_of_endsPath (invokeIsExplored_always hs)

end Bodies

section Steps

variable {e : Engine ω τ} {s : State} {i : Instruction}

/-- A step from a sound state gives sound successors further along the path.  It fails only at a
native method that cannot be invoked, unless it hangs. -/
theorem step_always (he : e.Undisturbed) (hs : s.Sound) (i : Instruction) :
    (e.step i s).Always (fun successors => ∀ t ∈ successors, s.Follows t)
      fun x => i.MayFail x.cause ∨ x.cause.Hangs e.classes :=
  execute_always he.toSteady hs (body_always he.toSteady he.natives hs i)

end Steps

end Engine

end SymbolicMachine
