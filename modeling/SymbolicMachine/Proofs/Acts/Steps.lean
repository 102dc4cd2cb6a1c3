import SymbolicMachine.Proofs.Acts.Successors
/-!
# Steps as acts

Every successor of a step is reached from the state by acts, and every state that an exploration
starts from is reached by acts from the root state.  Neither depends on what the oracle says.
-/
namespace SymbolicMachine

open SymbolicMachine.Action

variable {ω τ ε α β : Type}

namespace Engine

/-- What a body came to, in terms of the acts that lead there from a state. -/
def Performs (e : Engine ω τ) (s : State) (hand : List Value) : StepResult → Prop
  | .decided working alternatives => ∃ hand', Acts e s hand working hand' ∧
      ∀ a ∈ alternatives, e.Offered working hand' a
  | .forked successors => ∀ t ∈ successors, e.ActsTo s hand t
  | .done working => e.ActsTo s hand working

/-- An action in a body gives a result and a state that acts lead to. -/
def Leads (e : Engine ω τ) (s : State) (hand : List Value) (m : Run ω τ Fault (α × State))
    (post : α → State → List Value → Prop) : Prop :=
  m.Always (fun r => ∃ hand', Acts e s hand r.2 hand' ∧ post r.1 r.2 hand') fun _ => True

section Bodies

variable {e : Engine ω τ} {s t : State} {hand hand' : List Value}

theorem ActsTo.trans {u : State} (h : Acts e s hand t hand') (h' : e.ActsTo t hand' u) :
    e.ActsTo s hand u := by
  obtain ⟨hand'', hacts⟩ := h'
  exact ⟨hand'', h.trans hacts⟩

theorem Performs.after {result : StepResult} (h : Acts e s hand t hand')
    (h' : e.Performs t hand' result) : e.Performs s hand result := by
  cases result with
  | decided working alternatives =>
    obtain ⟨hand'', hacts, hall⟩ := h'
    exact ⟨hand'', h.trans hacts, hall⟩
  | forked successors => exact fun u hu => (h' u hu).trans h
  | done working => exact ActsTo.trans h h'

/-- A body comes to what its rest comes to after its first acts. -/
theorem performs_bind {m : Run ω τ Fault (α × State)} {k : α × State → Run ω τ Fault StepResult}
    {post : α → State → List Value → Prop}
    (hm : e.Leads s hand m post)
    (hk : ∀ a t hand', Acts e s hand t hand' → post a t hand' →
      (k (a, t)).Always (e.Performs t hand') fun _ => True) :
    (m >>= k).Always (e.Performs s hand) fun _ => True := by
  refine Always.bind hm fun ⟨a, t⟩ ⟨hand', hacts, ha⟩ ses => ?_
  exact (hk a t hand' hacts ha ses).mono (fun result _ hresult => hresult.after hacts)
    fun _ _ h => h

theorem onState_acts {m : State.Update α} {post : α → State → List Value → Prop}
    (h : e.Acting id m s hand post) :
    e.Leads s hand (onState s m) post := by
  intro ses
  rw [meets_onState]
  exact Meets.mono h (fun _ _ h => h) fun _ _ _ => trivial

/-- A body that ends with an update performs the acts of the update. -/
theorem done_performs {m : State.Update Unit} (hm : e.Acting id m s hand fun _ _ _ => True) :
    (do let ((), t) ← onState s m
        pure (.done t) : Run ω τ Fault StepResult).Always (e.Performs s hand) fun _ => True := by
  refine performs_bind (onState_acts hm) fun _ t hand' _ _ => ?_
  exact always_pure ⟨hand', .refl⟩

theorem Performs.always_after {m : Run ω τ Fault StepResult} (h : Acts e s hand t hand')
    (hm : m.Always (e.Performs t hand') fun _ => True) :
    m.Always (e.Performs s hand) fun _ => True :=
  fun ses => (hm ses).mono (fun _ _ hresult => hresult.after h) fun _ _ h => h

theorem checked_any (r : Except ValueError α) :
    (checked (ω := ω) (τ := τ) r).Always (fun a => r = .ok a) fun _ => True :=
  fun _ => meets_checked.2 ⟨fun _ ha => ha, fun _ _ => trivial⟩

theorem fetched_any (r : Except MemoryError α) :
    (fetched (ω := ω) (τ := τ) r).Always (fun a => r = .ok a) fun _ => True :=
  fun _ => meets_fetched.2 ⟨fun _ ha => ha, fun _ _ => trivial⟩

theorem popInt_acts :
    e.Leads s hand (popInt s) fun t _ hand' => .primitive t ∈ hand' ∧ t.type = .int := by
  intro ses
  refine meets_popInt (fun f rest t below hframes hoperands hint => ?_) fun _ _ => trivial
  have hmem : f ∈ s.frames := hframes ▸ List.mem_cons_self
  have hshows : s.Shows (.primitive t) := .operand hmem (hoperands ▸ List.mem_cons_self)
  exact ⟨.primitive t :: hand, (Act.take hshows).acts.trans (Act.drop hframes hoperands).acts,
    List.mem_cons_self, hint⟩

theorem popTarget_acts :
    e.Leads s hand (popTarget s) fun _ _ _ => True := by
  intro ses
  refine meets_popTarget (fun f rest r below target hframes hoperands _ => ?_)
    (fun _ _ _ _ _ _ _ _ => trivial) fun _ _ => trivial
  exact ⟨hand, (Act.drop hframes hoperands).acts, trivial⟩

theorem thrown_performs (className : String) :
    (thrown (ω := ω) (τ := τ) s className).Always (e.Performs s hand) fun _ => True :=
  always_pure ⟨hand, (Act.throw className).acts⟩

theorem decided_performs {v : Value} (hv : v ∈ hand) :
    (e.decided s v).Always (e.Performs s hand) fun _ => True :=
  Always.bind ((decideLoad_offers hv).mapError fun _ h => h) fun _ hall =>
    always_pure ⟨hand, .refl, hall⟩

theorem readLocal_acts {slot : Nat} {policy : UnwrittenSlot} {v : Value}
    (h : readLocal s slot policy = .ok v) : Act e s hand s (v :: hand) := by
  unfold readLocal at h
  split at h
  · rename_i w hw
    cases h
    obtain ⟨f, hf, hv⟩ := State.exists_frame_of_getLocal hw
    exact .take (.slot hf hv)
  · split at h
    · split at h
      · cases h
      · split at h
        · exact .make (isPlain_default (mapError_eq_ok.1 h))
        · cases h
    · cases h

theorem loadLocal_performs (slot : Nat) :
    (e.loadLocal slot s).Always (e.Performs s hand) fun _ => True := by
  refine (fetched_any _).bind fun v hv => ?_
  exact Performs.always_after (readLocal_acts hv).acts (decided_performs List.mem_cons_self)

theorem getField_performs (name : String) :
    (e.getField name s).Always (e.Performs s hand) fun _ => True := by
  refine performs_bind popTarget_acts fun target t hand' _ _ => ?_
  cases target with
  | none => exact thrown_performs _
  | some address =>
    refine (fetched_any _).bind fun o ho => (fetched_any _).bind fun v hv => ?_
    have hshows : t.Shows v := .content ho (HeapObject.contains_of_getField hv)
    exact Performs.always_after (Act.take hshows).acts (decided_performs List.mem_cons_self)

theorem arrayLoad_performs : (e.arrayLoad s).Always (e.Performs s hand) fun _ => True := by
  refine performs_bind popInt_acts fun index t hand' _ ⟨hindex, hint⟩ => ?_
  refine performs_bind popTarget_acts fun target u hand'' hacts _ => ?_
  cases target with
  | none => exact thrown_performs _
  | some address =>
    refine (fetched_any _).bind fun o ho => ?_
    cases o with
    | object i => exact fun _ => meets_checked.2 ⟨nofun, fun _ _ => trivial⟩
    | array a =>
      refine (decideArrayLoad_decided ho (hacts.subset hindex) hint).bind ?_
      rintro ⟨working, alternatives⟩ ⟨n, hand₃, -, hacts', hall⟩
      exact always_pure ⟨hand₃, hacts', hall⟩

/-! ### Allocations -/

theorem acting_pushAllocated {address : Nat} (offset : Nat)
    (h : .reference (.concrete address) ∈ hand) :
    e.Acting id (pushAllocated address offset) s hand fun _ _ _ => True :=
  (acting_pushOperand h).bind fun _ _ _ _ _ => acting_incPc offset

theorem acting_allocateArray (className : String) {length : Term} (offset : Nat)
    (hlength : .primitive length ∈ hand) (hint : length.type = .int) :
    e.Acting id (allocateArray className length offset) s hand fun _ _ _ => True :=
  (acting_createArray className hlength hint).bind fun _ _ _ _ h => acting_pushAllocated offset h

theorem acting_allocateInstance (className : String) (fields : List FieldInfo) :
    e.Acting id (allocateInstance className fields) s hand fun _ _ _ => True :=
  (acting_createInstance className fields).bind fun _ _ _ _ h => acting_pushAllocated _ h

theorem assumeInitialization_acts (hand : List Value) (className : String) :
    (e.assumeInitialization s className).Always
      (fun assumed => ∀ t, assumed = some t → e.ActsTo s hand t) fun _ => True := by
  have hassumed : ∀ c : Clause, s.initialization? className = none →
      c = .initialized className ∨ c = .notInitialized className →
      (do let ((), t) ← onState s (State.assumeClause c)
          pure (some t) : Run ω τ Fault (Option State)).Always
        (fun assumed => ∀ t, assumed = some t → e.ActsTo s hand t) fun _ => True := by
    intro c hopen hc
    have hacts : e.Leads s hand (onState s (State.assumeClause c)) fun _ _ _ => True :=
      onState_acts (acting_assumeInitialization hopen hc)
    refine Always.bind hacts fun r ⟨hand', hacts, _⟩ => always_pure fun t ht => ?_
    cases ht
    exact ⟨hand', hacts⟩
  unfold assumeInitialization
  split
  · refine always_pure fun t ht => ?_
    cases ht
    exact ⟨hand, .refl⟩
  · rename_i hopen
    refine (always_any _).bind fun _ _ => (always_any _).bind fun before _ => ?_
    split
    · exact hassumed _ hopen (.inl rfl)
    · refine (always_any _).bind fun after _ => ?_
      split
      · exact hassumed _ hopen (.inr rfl)
      · exact always_pure nofun

theorem newInstance_performs (className : String) :
    (e.newInstance className s).Always (e.Performs s hand) fun _ => True := by
  refine (fetched_any _).bind fun f _ => (always_any _).bind fun c _ => ?_
  split
  · refine (always_any _).bind fun fields _ => ?_
    refine (assumeInitialization_acts hand className).bind fun assumed hassumed => ?_
    cases assumed with
    | none => exact always_pure nofun
    | some t =>
      obtain ⟨hand', hacts⟩ := hassumed t rfl
      exact Performs.always_after hacts (done_performs (acting_allocateInstance className fields))
  · exact thrown_performs _

theorem actsTo_settled {m : State.Update Unit} {fork : State}
    (hm : e.Acting id m s hand fun _ _ _ => True) (h : settled s m = .ok fork) :
    e.ActsTo s hand fork := by
  unfold settled at h
  split at h <;> rename_i hrun
  · cases h
    obtain ⟨hand', hacts, -⟩ := Meets.of_ok hm hrun
    exact ⟨hand', hacts⟩
  · have hacts := Meets.of_error hm hrun
    exact ActsTo.settle hacts h

theorem forkIf_acts {condition : Term} {fork : Except ExecutionError State}
    (h : ∀ t, fork = .ok t → e.ActsTo s hand t) :
    (e.forkIf condition fork).Always (fun forks => ∀ t ∈ forks, e.ActsTo s hand t)
      fun _ => True := by
  refine (always_any _).bind fun verdict _ => ?_
  split
  · refine (ofExcept_any _ _).bind fun t ht => always_pure fun u hu => ?_
    cases List.mem_singleton.1 hu
    exact h t ht
  · exact always_pure nofun

theorem actsTo_numbered {forks : List State} (h : ∀ t ∈ forks, e.ActsTo s hand t)
    (branching : Bool) (number : Nat) :
    ∀ t ∈ numbered branching number forks, e.ActsTo s hand t := by
  induction forks generalizing number with
  | nil => exact nofun
  | cons t rest ih =>
    intro u hu
    rcases List.mem_cons.1 hu with rfl | hu
    · obtain ⟨hand', hacts⟩ := h t List.mem_cons_self
      exact ⟨hand', hacts.trans (actsTo_successorOf branching number)⟩
    · exact ih (fun v hv => h v (List.mem_cons_of_mem _ hv)) (number + 1) u hu

theorem forkOnLength_performs (className : String) {length : Term} (offset : Nat)
    (hlength : .primitive length ∈ hand) (hint : length.type = .int) :
    (e.forkOnLength s className length offset).Always (e.Performs s hand) fun _ => True := by
  refine (always_any _).bind fun _ _ => (always_any _).bind fun _ _ => ?_
  refine (checked_any _).bind fun negative hnegative => ?_
  refine (checked_any _).bind fun nonnegative hnonnegative => ?_
  have hfailing : ∀ t, negativeFork s negative = .ok t → e.ActsTo s hand t := by
    refine fun t => actsTo_settled ((acting_assume (.negative hlength hnegative)).bind ?_)
    exact fun _ _ hand' _ _ => ⟨hand', (Act.throw _).acts, trivial⟩
  have hpassing : ∀ t, nonnegativeFork s nonnegative className length offset = .ok t →
      e.ActsTo s hand t := by
    refine fun t => actsTo_settled ((acting_assume (.nonnegative hlength hnonnegative)).bind ?_)
    exact fun _ _ _ hacts _ => acting_allocateArray className offset (hacts.subset hlength) hint
  refine (forkIf_acts hfailing).bind fun failing hfailing => ?_
  refine (forkIf_acts hpassing).bind fun passing hpassing => (always_any _).bind fun _ _ => ?_
  refine always_pure (actsTo_numbered (fun t ht => ?_) _ _)
  rcases List.mem_append.1 ht with ht | ht
  · exact hfailing t ht
  · exact hpassing t ht

theorem newArray_performs (memberType : String) :
    (e.newArray memberType s).Always (e.Performs s hand) fun _ => True := by
  unfold newArray
  refine performs_bind popInt_acts fun length t hand' _ ⟨hlength, hint⟩ => ?_
  dsimp only
  split
  · rename_i c hc
    split
    · exact thrown_performs _
    · have heq : length = .constant c := by
        cases length <;> cases hc
        rfl
      subst heq
      exact done_performs (acting_allocateArray _ _ hlength hint)
  · exact forkOnLength_performs _ _ hlength hint

/-! ### Invocations -/

theorem popArguments_acts (count : Nat) (isStatic : Bool) :
    e.Leads s hand (popArguments s count isStatic) fun args _ hand' => ∀ v ∈ args, v ∈ hand' := by
  unfold popArguments
  split
  · exact onState_acts (acting_popOperands count)
  · have hpopped : e.Leads s hand (onState s (State.popOperands (count + 1)))
        fun args _ hand' => ∀ v ∈ args, v ∈ hand' := onState_acts (acting_popOperands _)
    refine Always.bind hpopped ?_
    rintro ⟨_ | ⟨receiver, args⟩, t⟩ ⟨hand', hacts, hvalues⟩
    · exact always_pure ⟨hand', hacts, nofun⟩
    · exact (checked_any _).bind fun _ _ =>
        always_pure ⟨hand', hacts, fun v hv => hvalues v (List.mem_cons_of_mem _ hv)⟩

theorem mem_of_argumentTerms {method : MethodSignature} {args : List Value} {terms : List Term}
    (h : NativeEvaluator.argumentTerms method args = .ok terms) :
    ∀ t ∈ terms, .primitive t ∈ args := by
  induction args generalizing terms with
  | nil =>
    cases h
    exact nofun
  | cons v rest ih =>
    cases v with
    | reference r => cases h
    | primitive t =>
      obtain ⟨others, hothers, h⟩ := bind_eq_ok.1 h
      cases h
      intro u hu
      rcases List.mem_cons.1 hu with rfl | hu
      · exact List.mem_cons_self
      · exact List.mem_cons_of_mem _ (ih hothers u hu)

theorem invokePure_acts {n : NativeEvaluator} {method : MethodSignature} {args : List Value}
    {v : Value} (hargs : ∀ v ∈ args, v ∈ hand) (h : n.invokePure method args = .ok (some v)) :
    Act e s hand s (v :: hand) := by
  unfold NativeEvaluator.invokePure at h
  split at h
  · cases h
  · split at h
    · cases h
    · split at h
      · cases h
        exact .make .null
      · obtain ⟨terms, hterms, h⟩ := bind_eq_ok.1 h
        obtain ⟨term, hterm, h⟩ := bind_eq_ok.1 h
        cases h
        unfold NativeEvaluator.apply at hterm
        split at hterm
        · cases hterm
          exact .apply fun t ht => hargs _ (mem_of_argumentTerms hterms t ht)
        · split at hterm
          · cases hterm
          · split at hterm
            · cases hterm
              exact .make (.constant _)
            · cases hterm

theorem acting_pushResult {result : Option Value} (offset : Nat)
    (hresult : ∀ v, result = some v → v ∈ hand) :
    e.Acting id (pushResult result offset) s hand fun _ _ _ => True := by
  cases result with
  | none => exact acting_incPc offset
  | some v =>
    have hv := hresult v rfl
    unfold pushResult Acting
    rw [meets_bind, meets_ofExcept_mapError]
    refine ⟨fun w hw => ?_, fun _ _ => ⟨hand, .refl⟩⟩
    have hpush : e.Acting id (State.pushOperand w >>= fun _ => State.incPc offset) s (w :: hand)
        fun _ _ _ => True :=
      (acting_pushOperand List.mem_cons_self).bind fun _ _ _ _ _ => acting_incPc offset
    exact Meets.mono hpush
      (fun _ _ ⟨hand', hacts, h⟩ => ⟨hand', (Act.widen hv hw).acts.trans hacts, h⟩)
      fun _ _ ⟨hand', hacts⟩ => ⟨hand', (Act.widen hv hw).acts.trans hacts⟩

theorem invokeNative_performs (method : MethodSignature) (isStatic : Bool) (length : Nat) :
    (e.invokeNative method isStatic length s).Always (e.Performs s hand) fun _ => True := by
  refine (checked_any _).bind fun parameters _ => ?_
  refine performs_bind (popArguments_acts _ _) fun args t hand' _ hargs => ?_
  refine (ofExcept_any _ _).bind fun result hresult => ?_
  have hmade : ∃ hand'', Acts e t hand' t hand'' ∧ ∀ v, result = some v → v ∈ hand'' := by
    cases result with
    | none => exact ⟨hand', .refl, nofun⟩
    | some v =>
      refine ⟨v :: hand', (invokePure_acts hargs hresult).acts, fun w hw => ?_⟩
      cases hw
      exact List.mem_cons_self
  obtain ⟨hand'', hacts, hv⟩ := hmade
  exact Performs.always_after hacts (done_performs (acting_pushResult length hv))

theorem invokeIsExplored_performs :
    (invokeIsExplored (ω := ω) (τ := τ) s).Always (e.Performs s hand) fun _ => True := by
  have hmake : Act e s hand s (.primitive (.ofInt 1) :: hand) := .make (.constant _)
  have hpush : e.Acting id (do
      State.pushOperand (.primitive (.ofInt 1))
      State.incPc invokeStaticLength) s (.primitive (.ofInt 1) :: hand) fun _ _ _ => True :=
    (acting_pushOperand List.mem_cons_self).bind fun _ _ _ _ _ => acting_incPc _
  exact Performs.always_after hmake.acts (done_performs hpush)

theorem body_performs (i : Instruction) :
    (e.body i s).Always (e.Performs s hand) fun _ => True := by
  cases i with
  | loadLocal slot length => exact loadLocal_performs slot
  | getField name => exact getField_performs name
  | arrayLoad => exact arrayLoad_performs
  | newInstance className => exact newInstance_performs className
  | newArray memberType => exact newArray_performs memberType
  | invokeNative method isStatic length => exact invokeNative_performs method isStatic length
  | invokeIsExplored => exact invokeIsExplored_performs

theorem single_acts (h : e.ActsTo s hand t) :
    (single (ω := ω) (τ := τ) t).Always (fun successors => ∀ u ∈ successors, e.ActsTo s hand u)
      fun _ => True := by
  intro ses u hu
  cases List.mem_singleton.1 hu
  obtain ⟨hand', hacts⟩ := h
  exact ⟨hand', .tail hacts (.place _ _)⟩

/-- Every successor of a step is reached from the state by acts. -/
theorem step_acts (htriggers : e.triggers = .absent τ) (i : Instruction) (s : State) :
    (e.step i s).Always (fun successors => ∀ t ∈ successors, e.ActsTo s [] t) fun _ => True := by
  intro ses
  have hbody : (e.body i s).Always (e.Performs s []) fun _ => True := body_performs i
  refine meets_execute ((hbody ses).mono (fun result ses' hresult => ?_) fun fault ses' _ => ?_)
  · cases result with
    | decided working alternatives =>
      obtain ⟨hand', hacts, hall⟩ := hresult
      exact (refineFrom_acts htriggers hall ses').mono
        (fun successors _ hs t ht => ActsTo.trans hacts (hs t ht)) fun _ _ h => h
    | forked successors => exact hresult
    | done working => exact single_acts hresult ses'
  · change Meets (ofExcept (fault.settle s) >>= fun failed => single failed) _ _ _
    rw [meets_bind, meets_ofExcept]
    refine ⟨fun t ht => ?_, fun _ _ => trivial⟩
    have hsettled : e.ActsTo s [] t := ActsTo.settle ⟨[], .refl⟩ ht
    exact single_acts hsettled ses'

end Bodies

end Engine

end SymbolicMachine
