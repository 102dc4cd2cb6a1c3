import SymbolicMachine.Proofs.HandOff.Successors
/-!
# Handing the oracle over

A step asks only what its sites allow, whatever the oracle held before.
-/
namespace SymbolicMachine

open SymbolicMachine.Action

variable {ω τ : Type}

namespace Engine

variable {e : Engine ω τ} {stack : ω → List Clause} {P : Log → Question → List Clause → Prop}

/-! ## Bodies -/

/-- The outcome of a body that leaves only proper questions to be asked. -/
def LeavesProper (P : Log → Question → List Clause → Prop) : StepResult → Prop
  | .decided working alternatives => ∀ a ∈ alternatives, MayExpand P working a
  | _ => True

section Discipline

variable (hkeeps : e.oracle.KeepsStack stack)

include hkeeps

omit hkeeps in
theorem mayExpand_of_decidesFor {s working : State} {i : Instruction} {v : Value} {a : Alternative}
    (hclauses : working.pathCondition = s.pathCondition) (hheap : working.heap = s.heap)
    (hloads : ∀ r, v = .reference (.symbolic r) → Loads s i r) (ha : DecidesFor v none a) :
    MayExpand (Site s i) working a := by
  intro r className hexpands harray earlier condition hlength
  have hguards : a.guardClauses = [] := by
    unfold Alternative.guardClauses
    rw [ha.1]
  rw [hguards, List.append_nil, hclauses, hheap]
  exact .expanded (hloads r (ha.2 r className hexpands)) harray hlength

omit hkeeps in
theorem mayExpand_of_belongsTo {s working : State} {array : ArrayObject} {index : Term}
    {outcome : AccessOutcome} {a : Alternative}
    (hclauses : working.pathCondition = s.pathCondition) (hheap : working.heap = s.heap)
    (haccess : Accesses s array index outcome) (ha : BelongsTo array index outcome a) :
    MayExpand (Site s .arrayLoad) working a := by
  intro r className hexpands harray earlier condition hlength
  obtain ⟨⟨access, hsome, hguard⟩, hyields⟩ := ha
  have hguards : a.guardClauses = SymbolicMachine.guardClauses outcome.guard := by
    unfold Alternative.guardClauses
    rw [hsome, ← hguard]
  rw [hguards, hclauses, hheap]
  exact .expandedMember haccess (hyields r className hexpands) harray hlength

/-- A query that an instruction may put to the oracle.  A body asks nothing but queries. -/
def QuerySite (s : State) (i : Instruction) (earlier : Log) (question : Question)
    (held : List Clause) : Prop :=
  Site s i earlier question held ∧ ∃ q, question = .query q

theorem decided_proper {s working : State} {i : Instruction} {v : Value}
    {ses : Session (Recorded ω) τ} (h : AskedProperly (QuerySite s i) ses)
    (hclauses : working.pathCondition = s.pathCondition) (hheap : working.heap = s.heap)
    (hloads : ∀ r, v = .reference (.symbolic r) → Loads s i r) :
    ((e.recording stack).decided working v).Meets ses
      (fun result ses' => AskedProperly (QuerySite s i) ses' ∧ LeavesProper (Site s i) result)
      fun _ ses' => AskedProperly (QuerySite s i) ses' := by
  unfold decided
  rw [meets_bind, meets_mapError]
  refine (decideLoad_proper hkeeps h fun earlier q r hv hq => ?_).mono
    (fun alternatives ses' ⟨h', hall⟩ => ?_) fun _ _ hp => hp
  · rw [hclauses]
    exact ⟨.target (hloads r hv) hq, q, rfl⟩
  · exact ⟨h', fun a ha => mayExpand_of_decidesFor hclauses hheap hloads (hall a ha)⟩

theorem loadLocal_proper {s : State} {slot length : Nat} {ses : Session (Recorded ω) τ}
    (h : AskedProperly (QuerySite s (.loadLocal slot length)) ses) :
    ((e.recording stack).loadLocal slot s).Meets ses
      (fun result ses' => AskedProperly (QuerySite s (.loadLocal slot length)) ses' ∧
        LeavesProper (Site s (.loadLocal slot length)) result)
      fun _ ses' => AskedProperly (QuerySite s (.loadLocal slot length)) ses' := by
  unfold loadLocal
  rw [meets_bind, meets_fetched]
  refine ⟨fun v hv => ?_, fun _ _ => h⟩
  refine decided_proper hkeeps h rfl rfl fun r hr => .slot ?_
  rw [hr] at hv
  exact getLocal_of_readLocal hv

theorem getField_proper {s : State} {name : String} {ses : Session (Recorded ω) τ}
    (h : AskedProperly (QuerySite s (.getField name)) ses) :
    ((e.recording stack).getField name s).Meets ses
      (fun result ses' => AskedProperly (QuerySite s (.getField name)) ses' ∧
        LeavesProper (Site s (.getField name)) result)
      fun _ ses' => AskedProperly (QuerySite s (.getField name)) ses' := by
  unfold getField
  rw [meets_bind]
  refine meets_popTarget (fun f rest r below target hf hr htarget => ?_)
    (fun _ _ _ _ _ _ _ _ => h) fun _ _ => h
  have htop : s.operands = .reference r :: below := (State.operands_of_frames hf).trans hr
  cases target with
  | none => exact ⟨h, trivial⟩
  | some address =>
    rw [meets_bind, meets_fetched]
    refine ⟨fun o ho => ?_, fun _ _ => h⟩
    rw [meets_bind, meets_fetched]
    refine ⟨fun v hv => ?_, fun _ _ => h⟩
    refine decided_proper hkeeps h rfl rfl fun r' hr' => ?_
    rw [hr'] at hv
    exact .field htop htarget ho hv

theorem arrayLoad_proper {s : State} {ses : Session (Recorded ω) τ}
    (h : AskedProperly (QuerySite s .arrayLoad) ses) :
    ((e.recording stack).arrayLoad s).Meets ses
      (fun result ses' => AskedProperly (QuerySite s .arrayLoad) ses' ∧
        LeavesProper (Site s .arrayLoad) result)
      fun _ ses' => AskedProperly (QuerySite s .arrayLoad) ses' := by
  unfold arrayLoad
  rw [meets_bind]
  refine meets_popInt (fun f rest index below hf hindex _ => ?_) fun _ _ => h
  rw [meets_bind]
  refine meets_popTarget (fun f' rest' r below' target hf' hr htarget => ?_)
    (fun _ _ _ _ _ _ _ _ => h) fun _ _ => h
  cases hf'
  have htop : s.operands = .primitive index :: .reference r :: below' := by
    rw [State.operands_of_frames hf, hindex, ← hr]
  cases target with
  | none => exact ⟨h, trivial⟩
  | some address =>
    rw [meets_bind, meets_fetched]
    refine ⟨fun o ho => ?_, fun _ _ => h⟩
    cases o with
    | object i =>
      refine meets_checked.2 ⟨fun _ hi => ?_, fun _ _ => h⟩
      cases hi
    | array a =>
      unfold decideArrayLoad
      rw [meets_bind, meets_bind, Session.meets_count]
      simp only [meets_bind, meets_ofExcept, mapError_eq_ok, mapError_eq_error]
      refine ⟨fun a' ha' => ⟨fun outcomes houtcomes => ?_, fun _ _ => h⟩, fun _ _ => h⟩
      have haccess : ∀ outcome ∈ outcomes, Accesses s a' index outcome := fun outcome ho =>
        ⟨⟨r, below', address, htop, htarget, ha'⟩, outcomes, houtcomes, ho⟩
      have hcounted : AskedProperly (QuerySite s .arrayLoad)
          { ses with statistics := ses.statistics.addDecisionPoint } := h
      refine (decideOutcomes_proper (s := popped (popped s f below rest) _ below' rest) hkeeps
        hcounted
        (fun outcome ho earlier => ⟨.outcome (haccess outcome ho), _, rfl⟩)
        fun outcome ho earlier q r' hlast hyields hq =>
          ⟨.member (haccess outcome ho) hlast hyields hq, q, rfl⟩).mono
        (fun result ses' hresult => ?_) fun _ _ hp => hp
      obtain ⟨h', ⟨n, hn⟩, hall⟩ := hresult
      refine ⟨h', fun b hb => ?_⟩
      obtain ⟨outcome, ho, hbelongs⟩ := hall b hb
      refine mayExpand_of_belongsTo ?_ ?_ (haccess outcome ho) hbelongs <;> rw [hn] <;> rfl

omit hkeeps in
theorem assumed_proper {s : State} {m : State.Update Unit} {ses : Session (Recorded ω) τ}
    (h : AskedProperly P ses) :
    (do let ((), t) ← onState s m
        pure (some t) : Run (Recorded ω) τ Fault (Option State)).Meets ses
      (fun _ ses' => AskedProperly P ses') fun _ ses' => AskedProperly P ses' := by
  rw [meets_bind, meets_onState]
  exact meets_iff.2 ⟨fun _ _ _ => h, fun _ _ _ => h⟩

theorem assumeInitialization_proper {s : State} {className : String}
    {ses : Session (Recorded ω) τ}
    (h : AskedProperly (QuerySite s (.newInstance className)) ses) :
    ((e.recording stack).assumeInitialization s className).Meets ses
      (fun _ ses' => AskedProperly (QuerySite s (.newInstance className)) ses')
      fun _ ses' => AskedProperly (QuerySite s (.newInstance className)) ses' := by
  unfold assumeInitialization
  split
  · exact h
  · rw [meets_bind, meets_mapError]
    refine (sync_holding hkeeps h).mono (fun _ ses₁ h₁ => ?_) fun _ _ hp => hp
    rw [meets_bind, meets_mapError]
    refine (query_holding hkeeps _ h₁.1 ⟨.initialization (.inl rfl), _, rfl⟩).mono
      (fun before ses₂ h₂ => ?_) fun _ _ hp => hp
    obtain ⟨hproper, hheld, -⟩ := h₂
    split
    · exact assumed_proper hproper
    · rw [meets_bind, meets_mapError]
      refine (query_holding hkeeps _ ⟨hproper, hheld, rfl⟩
        ⟨.initialization (.inr rfl), _, rfl⟩).mono (fun after ses₃ h₃ => ?_) fun _ _ hp => hp
      split
      · exact assumed_proper h₃.1
      · exact h₃.1

theorem newInstance_proper {s : State} {className : String} {ses : Session (Recorded ω) τ}
    (h : AskedProperly (QuerySite s (.newInstance className)) ses) :
    ((e.recording stack).newInstance className s).Meets ses
      (fun result ses' => AskedProperly (QuerySite s (.newInstance className)) ses' ∧
        LeavesProper (Site s (.newInstance className)) result)
      fun _ ses' => AskedProperly (QuerySite s (.newInstance className)) ses' := by
  unfold newInstance
  rw [meets_bind, meets_fetched]
  refine ⟨fun f _ => ?_, fun _ _ => h⟩
  rw [meets_bind, meets_linked]
  refine ⟨fun c _ => ?_, fun _ _ => h⟩
  split
  · rw [meets_bind, meets_linked]
    refine ⟨fun fields _ => ?_, fun _ _ => h⟩
    rw [meets_bind]
    refine (assumeInitialization_proper hkeeps h).mono (fun assumed ses' h' => ?_) fun _ _ hp => hp
    cases assumed with
    | none => exact ⟨h', trivial⟩
    | some t =>
      rw [meets_bind, meets_onState]
      exact meets_iff.2 ⟨fun _ _ _ => ⟨h', trivial⟩, fun _ _ _ => h'⟩
  · exact ⟨h, trivial⟩

theorem forkIf_holding {condition : Term} {fork : Except ExecutionError State}
    {held : List Clause} {last : Option Term} {ses : Session (Recorded ω) τ}
    (h : Holding stack P held last ses) (hP : ∀ earlier, P earlier (.query (.sat condition)) held) :
    ((e.recording stack).forkIf condition fork).Meets ses
      (fun _ ses' => Holding stack P held (some condition) ses')
      fun _ ses' => AskedProperly P ses' := by
  unfold forkIf
  rw [meets_bind, meets_mapError]
  refine (query_holding hkeeps _ h (hP _)).mono
    (fun verdict ses₁ ⟨hproper, hheld, hasked⟩ => ?_) fun _ _ hp => hp
  have h₁ : Holding stack P held (some condition) ses₁ := ⟨hproper, hheld, by rw [hasked]; rfl⟩
  split
  · simp only [meets_bind, meets_ofExcept]
    exact ⟨fun _ _ => h₁, fun _ _ => hproper⟩
  · exact h₁

theorem newArray_proper {s : State} {memberType : String} {ses : Session (Recorded ω) τ}
    (h : AskedProperly (QuerySite s (.newArray memberType)) ses) :
    ((e.recording stack).newArray memberType s).Meets ses
      (fun result ses' => AskedProperly (QuerySite s (.newArray memberType)) ses' ∧
        LeavesProper (Site s (.newArray memberType)) result)
      fun _ ses' => AskedProperly (QuerySite s (.newArray memberType)) ses' := by
  unfold newArray
  dsimp only
  rw [meets_bind]
  refine meets_popInt (fun f rest length below hf hlength _ => ?_) fun _ _ => h
  have htop : s.operands = .primitive length :: below := (State.operands_of_frames hf).trans hlength
  dsimp only
  split
  · split
    · exact ⟨h, trivial⟩
    · rw [meets_bind, meets_onState]
      exact meets_iff.2 ⟨fun _ _ _ => ⟨h, trivial⟩, fun _ _ _ => h⟩
  · unfold forkOnLength
    have hcounted : AskedProperly (QuerySite s (.newArray memberType))
        { ses with statistics := ses.statistics.addDecisionPoint } := h
    rw [meets_bind, Session.meets_count, meets_bind, meets_mapError]
    refine (sync_holding (s := popped s f below rest) hkeeps hcounted).mono
      (fun _ ses₁ ⟨h₁, _⟩ => ?_) fun _ _ hp => hp
    rw [meets_bind, meets_checked]
    refine ⟨fun negative hnegative => ?_, fun _ _ => h₁.proper⟩
    rw [meets_bind, meets_checked]
    refine ⟨fun nonnegative hnonnegative => ?_, fun _ _ => h₁.proper⟩
    rw [meets_bind]
    refine (forkIf_holding hkeeps h₁ fun earlier =>
      ⟨.length htop (.inl hnegative), _, rfl⟩).mono (fun failing ses₂ h₂ => ?_) fun _ _ hp => hp
    rw [meets_bind]
    refine (forkIf_holding hkeeps h₂ fun earlier =>
      ⟨.length htop (.inr hnonnegative), _, rfl⟩).mono (fun passing ses₃ h₃ => ?_) fun _ _ hp => hp
    exact ⟨h₃.proper, trivial⟩

omit hkeeps in
theorem onState_proper {s t : State} {i : Instruction} {m : State.Update Unit}
    {ses : Session (Recorded ω) τ} (h : AskedProperly (QuerySite s i) ses) :
    (do let ((), u) ← onState t m
        pure (.done u) : Run (Recorded ω) τ Fault StepResult).Meets ses
      (fun result ses' => AskedProperly (QuerySite s i) ses' ∧ LeavesProper (Site s i) result)
      fun _ ses' => AskedProperly (QuerySite s i) ses' := by
  rw [meets_bind, meets_onState]
  exact meets_iff.2 ⟨fun _ _ _ => ⟨h, trivial⟩, fun _ _ _ => h⟩

omit hkeeps in
theorem invokeNative_proper {s : State} {i : Instruction} {method : MethodSignature}
    {isStatic : Bool} {offset : Nat} {ses : Session (Recorded ω) τ}
    (h : AskedProperly (QuerySite s i) ses) :
    ((e.recording stack).invokeNative method isStatic offset s).Meets ses
      (fun result ses' => AskedProperly (QuerySite s i) ses' ∧ LeavesProper (Site s i) result)
      fun _ ses' => AskedProperly (QuerySite s i) ses' := by
  have hresult : ∀ args t,
      (do let result ← ofExcept
            (((e.recording stack).natives.invokePure method args).mapError .execution)
          let ((), u) ← onState t (pushResult result offset)
          pure (.done u) : Run (Recorded ω) τ Fault StepResult).Meets ses
        (fun result ses' => AskedProperly (QuerySite s i) ses' ∧ LeavesProper (Site s i) result)
        fun _ ses' => AskedProperly (QuerySite s i) ses' := by
    intro args t
    rw [meets_bind, meets_ofExcept]
    exact ⟨fun result _ => onState_proper h, fun _ _ => h⟩
  unfold invokeNative
  rw [meets_bind, meets_checked]
  refine ⟨fun parameters _ => ?_, fun _ _ => h⟩
  rw [meets_bind]
  unfold popArguments
  split
  · rw [meets_onState]
    exact meets_iff.2 ⟨fun args t _ => hresult args t, fun _ _ _ => h⟩
  · rw [meets_bind, meets_onState]
    refine meets_iff.2 ⟨fun args t _ => ?_, fun _ _ _ => h⟩
    cases args with
    | nil => exact hresult [] t
    | cons receiver args =>
      dsimp only
      rw [meets_bind, meets_checked]
      exact ⟨fun _ _ => hresult args t, fun _ _ => h⟩

theorem body_proper {s : State} {i : Instruction} {ses : Session (Recorded ω) τ}
    (h : AskedProperly (QuerySite s i) ses) :
    ((e.recording stack).body i s).Meets ses
      (fun result ses' => AskedProperly (QuerySite s i) ses' ∧ LeavesProper (Site s i) result)
      fun _ ses' => AskedProperly (QuerySite s i) ses' := by
  cases i with
  | loadLocal slot length => exact loadLocal_proper hkeeps h
  | getField name => exact getField_proper hkeeps h
  | arrayLoad => exact arrayLoad_proper hkeeps h
  | newInstance className => exact newInstance_proper hkeeps h
  | newArray memberType => exact newArray_proper hkeeps h
  | invokeNative method isStatic length => exact invokeNative_proper h
  | invokeIsExplored => exact onState_proper h

/-! ## Steps -/

/-- Each time the length of an array is asked for, it is under the beginning of the path of a
successor. -/
def LengthsReflected (log : Log) (successors : List State) : Prop :=
  ∀ condition held, (Question.simplify condition, held) ∈ log →
    ∃ t ∈ successors, held <+: t.pathCondition.clauses

theorem conclude_proper {s : State} {i : Instruction} {offset : Nat}
    {result : Except Fault StepResult} {ses : Session (Recorded ω) τ}
    (h : AskedProperly (QuerySite s i) ses)
    (hresult : ∀ r, result = .ok r → LeavesProper (Site s i) r) :
    ((e.recording stack).conclude s offset result).Meets ses
      (fun successors ses' => AskedProperly (Site s i) ses' ∧
        (e.triggers = .absent τ → LengthsReflected ses'.oracle.asked successors))
      fun _ ses' => AskedProperly (Site s i) ses' := by
  have hsite : AskedProperly (Site s i) ses := Log.Proper.mono h fun _ _ _ hq => hq.1
  have hqueries : ∀ {condition held}, (Question.simplify condition, held) ∉ ses.oracle.asked := by
    intro condition held hmem
    obtain ⟨_, _, q, hq⟩ := Log.Proper.mem h hmem
    cases hq
  have hnone : ∀ successors, LengthsReflected ses.oracle.asked successors :=
    fun _ _ _ hmem => absurd hmem hqueries
  match result with
  | .ok (.decided working alternatives) =>
    refine (refineFrom_proper hkeeps hsite (hresult _ rfl)).mono
      (fun successors ses' ⟨h', hreflected⟩ => ⟨h', fun habsent condition held hmem => ?_⟩)
      fun _ _ hp => hp
    exact (hreflected habsent _ hmem).resolve_left hqueries
  | .ok (.forked successors) => exact ⟨hsite, fun _ => hnone successors⟩
  | .ok (.done working) => exact meets_single.2 ⟨hsite, fun _ => hnone _⟩
  | .error fault =>
    change Meets (ofExcept (fault.settle s) >>= fun failed => single failed) _ _ _
    rw [meets_bind, meets_ofExcept]
    exact ⟨fun failed _ => meets_single.2 ⟨hsite, fun _ => hnone _⟩, fun _ _ => hsite⟩

theorem step_proper {s : State} {i : Instruction} {ses : Session (Recorded ω) τ}
    (h : AskedProperly (QuerySite s i) ses) :
    ((e.recording stack).step i s).Meets ses
      (fun successors ses' => AskedProperly (Site s i) ses' ∧
        (e.triggers = .absent τ → LengthsReflected ses'.oracle.asked successors))
      fun _ ses' => AskedProperly (Site s i) ses' := by
  refine meets_execute ((body_proper hkeeps h).mono (fun result ses' ⟨h', hleaves⟩ => ?_)
    fun fault ses' h' => ?_)
  · refine conclude_proper hkeeps h' fun r hr => ?_
    cases hr
    exact hleaves
  · exact conclude_proper hkeeps h' nofun

end Discipline

/-- Whatever an oracle held before a step, each question of the step is put to it while it holds
the path condition of the state: with the guard of the outcome in question behind it for the
member of an array, and with all that the successor assumed up to its expansion for the length of
a new input array.  Taking note of the questions does not change the step. -/
theorem step_asks_under_own_path (e : Engine ω τ) (stack : ω → List Clause)
    (hkeeps : e.oracle.KeepsStack stack) (i : Instruction) (s : State) (ses : Session ω τ) :
    (((e.recording stack).step i s).run ses.recording).1 = ((e.step i s).run ses).1 ∧
      (((e.recording stack).step i s).run ses.recording).2.forget = ((e.step i s).run ses).2 ∧
      (e.questions stack i s ses).Proper (Site s i) ∧
      (e.triggers = .absent τ → ∀ successors, ((e.step i s).run ses).1 = .ok successors →
        LengthsReflected (e.questions stack i s ses) successors) := by
  obtain ⟨hresult, hforget⟩ := e.step_recording stack i s ses
  have hstart : AskedProperly (QuerySite s i) ses.recording := trivial
  have hproper := step_proper hkeeps hstart
  refine ⟨hresult, hforget, ?_, fun habsent successors hsuccessors => ?_⟩
  · unfold questions
    rcases hrun : ((e.recording stack).step i s).run ses.recording with ⟨x | successors, ses'⟩
    · exact hproper.of_error hrun
    · exact (hproper.of_ok hrun).1
  · rw [← hresult] at hsuccessors
    exact (hproper.of_ok (Prod.ext hsuccessors rfl)).2 habsent

def arrayInput : State :=
  State.root.pushFrame
    (.create ⟨"Main", "run", "([I)V"⟩ [0, 0]
      ⟨[some (.reference (.symbolic ⟨0, "[I", .root "xs"⟩))], []⟩ 4)

/-- The load of an array asks whether it is null and whether it is there with nothing assumed, and
for its length once it was expanded; what the oracle held before is gone. -/
theorem array_load_asks_under_own_path :
    let e := permissive .initial
    let ses := Session.start [.isNull ⟨7, "[I", .root "stale"⟩] ()
    (e.questions id (.loadLocal 0 1) arrayInput ses).Proper (Site arrayInput (.loadLocal 0 1)) ∧
      (e.questions id (.loadLocal 0 1) arrayInput ses).map (·.2) =
        [[.expands ⟨0, "[I", .root "xs"⟩ 1 "[I"], [], []] :=
  ⟨(step_asks_under_own_path (permissive .initial) id Oracle.permissive_keepsStack (.loadLocal 0 1)
    arrayInput (.start [.isNull ⟨7, "[I", .root "stale"⟩] ())).2.2.1, rfl⟩

end Engine

end SymbolicMachine
