import SymbolicMachine.Proofs.Arrays.Loads
import SymbolicMachine.Proofs.Effects.Successors
import SymbolicMachine.Proofs.HandOff.Successors
import SymbolicMachine.Proofs.Targets.Verdicts
/-!
# One successor for each alternative

A successor assumes the guard of its alternative and what the alternative decides, and nothing
else.  Then it has the loaded value on its operand stack, and on record if the value was made for
it.  No alternative is lost on the way: if the value cannot be pushed or the program cannot go on,
the successor ends with an exception, under the same assumptions.
-/
namespace SymbolicMachine

open SymbolicMachine.Action

variable {ω τ : Type}

/-- The value that is loaded, unless the index is out of bounds. -/
def Decision.value? : Decision → Option Value
  | .loads v => some v
  | .null r => some (.reference (.symbolic r))
  | .aliases r _ => some (.reference (.symbolic r))
  | .expands r _ => some (.reference (.symbolic r))
  | .outOfRange => none

namespace Engine

/-- The clauses after a decision was assumed behind others.  A new object takes the next address.
If it is an array, whose length is a symbol with the next number, the settings may ask to assume
that the length is not negative, in the form that the oracle gives that condition. -/
inductive Assumes (e : Engine ω τ) (stack : ω → List Clause) (address id : Nat)
    (before : List Clause) : Decision → List Clause → Prop
  | loads {v : Value} : Assumes e stack address id before (.loads v) before
  | outOfRange : Assumes e stack address id before .outOfRange before
  | null {r : RefSymbol} : Assumes e stack address id before (.null r) (before ++ [.isNull r])
  | aliases {r : RefSymbol} {a : Nat} :
      Assumes e stack address id before (.aliases r a) (before ++ [.aliases r a])
  | expands {r : RefSymbol} {c : String}
      (h : (Descriptor.isArray c && e.config.assumeArrayLength) = false) :
      Assumes e stack address id before (.expands r c) (before ++ [.expands r address c])
  | array {r : RefSymbol} {c : String} {condition u : Term} (hc : Descriptor.isArray c = true)
      (hassume : e.config.assumeArrayLength = true)
      (hcondition : (Term.symbol ⟨id, .int, .length r⟩).mkGe (.ofInt 0) = .ok condition)
      (hu : e.oracle.Simplifies stack (before ++ [.expands r address c]) condition u) :
      Assumes e stack address id before (.expands r c)
        (before ++ [.expands r address c, .assume u])

section Assumes

variable {e : Engine ω τ} {stack : ω → List Clause} {address id : Nat} {before after : List Clause}
  {r : RefSymbol}

theorem Assumes.eq_of_null (h : Assumes e stack address id before (.null r) after) :
    after = before ++ [.isNull r] := by
  cases h
  rfl

theorem Assumes.eq_of_outOfRange (h : Assumes e stack address id before .outOfRange after) :
    after = before := by
  cases h
  rfl

theorem Assumes.exists_of_array {c : String}
    (h : Assumes e stack address id before (.expands r c) after)
    (harray : Descriptor.isArray c = true) (hassume : e.config.assumeArrayLength = true) :
    ∃ condition u, (Term.symbol ⟨id, .int, .length r⟩).mkGe (.ofInt 0) = .ok condition ∧
      e.oracle.Simplifies stack (before ++ [.expands r address c]) condition u ∧
      after = before ++ [.expands r address c, .assume u] := by
  cases h with
  | expands hno =>
    rw [harray, hassume] at hno
    cases hno
  | array _ _ hcondition hu => exact ⟨_, _, hcondition, hu, rfl⟩

end Assumes

/-- An alternative of a state was taken: its guard and its decision were assumed, and nothing has
changed in the old objects but that a new member is on record in its array. -/
structure Takes (e : Engine ω τ) (stack : ω → List Clause) (s : State) (a : Alternative)
    (t : State) : Prop where
  clauses : Assumes e stack s.heap.next s.nextSymbol (s.pathCondition.clauses ++ a.guardClauses)
    a.decision t.pathCondition.clauses
  recorded : ∀ access v, a.access = some access → access.fresh = true →
    a.decision.value? = some v → ∃ array, s.heap.get access.array = .ok (.array array) ∧
      t.heap.get access.array = .ok (.array (array.set access.index v))
  kept : ∀ address o, s.heap.get address = .ok o →
    (∀ access, a.access = some access → access.fresh = true → access.array ≠ address) →
      t.heap.get address = .ok o

/-- A successor took an alternative: it has the loaded value on its operand stack in its stack form,
unless it has come to an end, and if the index is out of bounds it threw an exception. -/
structure Reaches (e : Engine ω τ) (stack : ω → List Clause) (s : State) (a : Alternative)
    (t : State) : Prop extends Takes e stack s a t where
  loaded : ∀ v, a.decision.value? = some v → t.isStuck = false →
    ∃ w, v.widen = .ok w ∧ t.operands = w :: s.operands
  thrown : a.decision.value? = none → s.ThrowsNew t indexOutOfBounds

/-- Nothing is in the way of taking an alternative: its guard is a condition, its decision can be
realized, and the array is there in which a new member is recorded. -/
structure Workable (e : Engine ω τ) (s : State) (a : Alternative) : Prop where
  guard : ∀ access, a.access = some access → access.guard.type = .boolean
  decision : ∀ r, a.reference? = some r → Realizable e s a.decision
  member : ∀ access, a.access = some access → access.fresh = true →
    ∃ array, s.heap.get access.array = .ok (.array array)

section Successors

variable {e : Engine ω τ} {stack : ω → List Clause} {verdict : List Clause → Query → Bool}
  {s t u : State} {ses : Session ω τ} {a : Alternative} {offset : Nat}

theorem Takes.of_kept (h : Takes e stack s a t) (hpath : u.pathCondition = t.pathCondition)
    (hheap : t.heap.Kept u.heap) : Takes e stack s a u where
  clauses := hpath ▸ h.clauses
  recorded access v haccess hfresh hv := by
    obtain ⟨array, hold, hnew⟩ := h.recorded access v haccess hfresh hv
    exact ⟨array, hold, hheap _ _ hnew⟩
  kept address o ho hno := hheap _ _ (h.kept address o ho hno)

/-- Throwing an exception leaves it as it is what was assumed and recorded. -/
theorem Takes.throwNew (h : Takes e stack s a t) (hv : a.decision.value? ≠ none)
    (className : String) : Reaches e stack s a (t.throwNew className).2 where
  toTakes := h.of_kept rfl (t.heap.kept_allocate _)
  loaded _ _ hstuck := by cases hstuck
  thrown hnone := absurd hnone hv

/-! ## Assumptions -/

theorem Workable.guarded (h : Workable e s a) : Workable e (guarded s a) a where
  guard := h.guard
  decision r hr := by
    have hrealizable := h.decision r hr
    cases hd : a.decision <;> rw [hd] at hrealizable <;> exact hrealizable
  member := h.member

section Assuming

variable (hdecides : e.oracle.DecidesBy stack verdict)

include hdecides

/-- The length of a new array is simplified under all that the successor has assumed before. -/
theorem assumeLength_assumes {address id : Nat} {r : RefSymbol} {c : String} {held : List Clause}
    (harray : s.getArray address = .ok (.create c (some r) (.symbol ⟨id, .int, .length r⟩)))
    (hheld : s.pathCondition.clauses = held) :
    (e.assumeLength address).Meets (s, ses)
      (fun _ w => ∃ condition u,
        (Term.symbol ⟨id, .int, .length r⟩).mkGe (.ofInt 0) = .ok condition ∧
        e.oracle.Simplifies stack held condition u ∧
        w.1.pathCondition.clauses = held ++ [.assume u])
      fun fault _ => e.Disturbed fault := by
  subst hheld
  obtain ⟨condition, hcondition, hsays⟩ := Term.exists_compare (I := .zero) .ge rfl
    (⟨trivial, rfl⟩ : (Term.symbol ⟨id, .int, .length r⟩).IsInt) (Term.isInt_ofInt 0)
  have hnonnegative : (Term.symbol ⟨id, .int, .length r⟩).mkGe (.ofInt 0) = .ok condition :=
    hcondition
  rw [meets_assumeLength]
  unfold assumeLengthIn
  rw [harray, meets_bind, meets_ofExcept_mapError]
  constructor
  · rintro _ ⟨⟩
    rw [meets_bind, meets_ofExcept_mapError]
    refine ⟨fun condition' hcondition' => ?_, fun error herror => ?_⟩
    · obtain rfl : condition = condition' :=
        Except.ok.inj (hnonnegative.symm.trans hcondition')
      rw [meets_bind, meets_consulting]
      refine (sync_holds hdecides ses).mono (fun _ ses' hheld => ?_) fun _ _ h => ⟨⟨_, rfl⟩, h⟩
      rw [meets_bind, meets_consulting]
      refine (simplify_gives hdecides hsays.type_eq ses').mono ?_ fun _ _ h => ⟨⟨_, rfl⟩, h⟩
      rintro u ses'' ⟨htype, hu⟩
      rw [hheld] at hu
      rw [meets_updating, State.assume, if_pos htype]
      refine State.meets_assumeClause (fun p hp => ?_) ?_
      · exact ⟨condition, u, hnonnegative, hu, PathCondition.clauses_of_push hp⟩
      · rintro _ ⟨⟩
    · cases hnonnegative.symm.trans herror
  · rintro _ ⟨⟩

theorem expand_assumes {r : RefSymbol} {c : String} (h : Realizable e s (.expands r c)) :
    (e.expand r c).Meets (s, ses)
      (fun _ w => Assumes e stack s.heap.next s.nextSymbol s.pathCondition.clauses (.expands r c)
        w.1.pathCondition.clauses) fun fault _ => e.Disturbed fault := by
  obtain ⟨hfree, fields, hfields, hdenotes⟩ := h
  unfold expand
  rw [meets_bind, meets_linked, hfields]
  refine ⟨?_, nofun⟩
  rintro _ ⟨⟩
  rw [meets_bind, meets_updating]
  refine State.meets_assumeExpands (fun object n p _ hobject hp => ?_)
    (fun hresolved => absurd (hfree.symm.trans hresolved) nofun)
    fun hinstance f hf error m _ hprim herror => ?_
  · have hclauses : p.clauses = s.pathCondition.clauses ++ [.expands r s.heap.next c] :=
      PathCondition.clauses_of_push hp
    split
    · rename_i hassume
      obtain ⟨harray, hconfig⟩ := Bool.and_eq_true_iff.1 hassume
      cases hobject with
      | object hinstance _ => exact absurd (hinstance.symm.trans harray) nofun
      | array _ =>
        refine (assumeLength_assumes hdecides
          (Heap.getArray_eq_ok.2 (s.heap.get_allocate_self _)) hclauses).mono ?_ fun _ _ h => h
        rintro - w ⟨condition, u, hcondition, hu, hw⟩
        rw [hw, List.append_assoc]
        exact .array harray hconfig hcondition hu
    · rename_i hassume
      change Assumes e stack _ _ _ _ p.clauses
      rw [hclauses]
      exact .expands (Bool.eq_false_iff.2 hassume)
  · obtain ⟨staticType, hstatic⟩ := Descriptor.exists_staticType (hdenotes hinstance f hf) hprim
    rw [hstatic] at herror
    cases herror

/-- What is decided is assumed, and gives the value that is loaded. -/
theorem assumeDecision_assumes (ha : Workable e s a) :
    (e.assumeDecision a.decision).Meets (s, ses)
      (fun loaded w => loaded = a.decision.value? ∧ (loaded = none → w.1 = s) ∧
        Assumes e stack s.heap.next s.nextSymbol s.pathCondition.clauses a.decision
          w.1.pathCondition.clauses) fun fault _ => e.Disturbed fault := by
  have hpushed : ∀ {c : Clause} {p : PathCondition}, s.pathCondition.push c = .ok p →
      s.pathCondition.clauses ++ [c] = (s.withPath p).pathCondition.clauses :=
    fun hp => (PathCondition.clauses_of_push hp).symm
  cases hd : a.decision with
  | loads v => exact ⟨rfl, nofun, .loads⟩
  | outOfRange => exact ⟨rfl, fun _ => rfl, .outOfRange⟩
  | null r =>
    have hfree := ha.decision r (by rw [Alternative.reference?, hd])
    rw [hd] at hfree
    unfold assumeDecision
    rw [meets_bind, meets_updating]
    refine State.meets_assumeNull (fun p _ hp => ?_)
      fun hresolved => absurd (hresolved.symm.trans hfree) nofun
    exact ⟨rfl, nofun, hpushed hp ▸ .null⟩
  | aliases r address =>
    have hrealizable := ha.decision r (by rw [Alternative.reference?, hd])
    rw [hd] at hrealizable
    obtain ⟨hfree, o, ho⟩ := hrealizable
    unfold assumeDecision
    rw [meets_bind, meets_updating]
    refine State.meets_assumeAliases (fun p _ _ _ hp => ?_)
      (fun hresolved => absurd (hresolved.symm.trans hfree) nofun)
      fun error herror => absurd (herror.symm.trans ho) nofun
    exact ⟨rfl, nofun, hpushed hp ▸ .aliases⟩
  | expands r c =>
    have hrealizable := ha.decision r (by rw [Alternative.reference?, hd])
    rw [hd] at hrealizable
    unfold assumeDecision
    rw [meets_bind]
    exact (expand_assumes hdecides hrealizable).mono (fun _ _ hw => ⟨rfl, nofun, hw⟩)
      fun _ _ h => h

end Assuming

/-! ## Values -/

section Loading

variable {v : Value} (ha : Workable e s a) (hv : a.decision.value? = some v)
  (hclauses : Assumes e stack s.heap.next s.nextSymbol
    (s.pathCondition.clauses ++ a.guardClauses) a.decision t.pathCondition.clauses)

include ha hv hclauses

/-- Only a member that was made for the alternative is recorded, in its array. -/
theorem recordFresh_takes (hkept : s.heap.Kept t.heap)
    {bad : Fault → State × Session ω τ → Prop} :
    (recordFresh a v).Meets (t, ses)
      (fun _ w => Takes e stack s a w.1 ∧ w.1.frames = t.frames) bad := by
  have hstays : (∀ access, a.access = some access → access.fresh ≠ true) →
      Takes e stack s a t := fun hno =>
    { clauses := hclauses
      recorded := fun access _ haccess hfresh => absurd hfresh (hno access haccess)
      kept := fun address o ho _ => hkept address o ho }
  unfold recordFresh
  split
  · rename_i access haccess
    split
    · rename_i hfresh
      obtain ⟨array, harray⟩ := ha.member access haccess hfresh
      rw [meets_updating]
      refine State.meets_arraySet_of_get (hkept _ _ harray)
        ⟨⟨hclauses, fun access' v' haccess' _ hv' => ?_, fun address o ho hno => ?_⟩, rfl⟩
      · cases haccess.symm.trans haccess'
        cases hv.symm.trans hv'
        exact ⟨array, harray, Heap.get_insertAt_self _ _ _⟩
      · rw [← hkept address o ho]
        exact Heap.get_insertAt_of_ne _ (hno access haccess hfresh).symm _
    · rename_i hfresh
      refine ⟨hstays fun access' haccess' => ?_, rfl⟩
      cases haccess.symm.trans haccess'
      exact hfresh
  · rename_i haccess
    refine ⟨hstays fun access' haccess' => ?_, rfl⟩
    cases haccess.symm.trans haccess'

theorem load_reaches (htriggers : e.triggers = .absent τ) (hst : s.Progress 0 t) :
    (e.load a offset v).Meets (t, ses) (fun _ w => Reaches e stack s a w.1)
      fun fault w => fault.EndsPath ∧ Takes e stack s a w.1 := by
  have hframes : t.frames = s.frames := by rw [hst.frames, dropOperands_zero]
  unfold load
  rw [meets_bind]
  refine (recordFresh_takes ha hv hclauses hst.objects).mono ?_ fun _ _ h => h
  rintro - ⟨u, ses'⟩ ⟨hu, huframes⟩
  rw [meets_bind, meets_ofExcept_mapError]
  refine ⟨fun widened hwidened => ?_, fun _ _ => ⟨rfl, hu⟩⟩
  rw [meets_bind, meets_updating]
  refine State.meets_pushOperand (fun f rest hf _ => ?_) fun _ hmild => ⟨hmild, hu⟩
  rw [meets_bind, meets_triggering, htriggers]
  refine (meets_updating _).2 (State.meets_incPc (fun g below hg _ => ?_)
    fun _ hmild => ⟨hmild, hu.of_kept rfl (.refl _)⟩)
  cases hg
  refine { toTakes := hu.of_kept rfl (.refl _), loaded := fun v' hv' _ => ?_, thrown := ?_ }
  · cases hv.symm.trans hv'
    refine ⟨widened, hwidened, ?_⟩
    rw [State.operands_of_frames (hframes.symm.trans (huframes.symm.trans hf))]
    rfl
  · intro hnone
    cases hv.symm.trans hnone

end Loading

/-! ## Refining -/

theorem realizable_of_tries {r : RefSymbol} {tried : List (Query × Decision)}
    (h : Tries e.classes s r tried) (hclasses : e.classes.Expandable r.staticType)
    (hfree : s.isResolved r = false) : ∀ c ∈ tried, Realizable e s c.2 := by
  obtain ⟨objects, -, hobjects, rfl⟩ := h
  refine List.forall_mem_append.2 ⟨List.forall_mem_cons.2 ⟨hfree, fun c hc => ?_⟩, fun c hc => ?_⟩
  · obtain ⟨p, hp, rfl⟩ := List.mem_map.1 hc
    exact ⟨hfree, p.2, ((hobjects p.1 p.2).1 hp).1⟩
  · obtain ⟨name, hname, rfl⟩ := List.mem_map.1 hc
    exact ⟨hfree, exists_expandedFields hclasses hname⟩

/-- What is accepted of the targets of an undecided reference can be realized. -/
theorem workable_of_mem_acceptedOf {r : RefSymbol} {tried : List (Query × Decision)}
    {held : List Clause} {access : Option ArrayAccess} (htried : Tries e.classes s r tried)
    (hclasses : e.classes.Expandable r.staticType) (hfree : s.isResolved r = false)
    (haccess : ∀ access', access = some access' → access'.guard.type = .boolean ∧
      (access'.fresh = true → ∃ array, s.heap.get access'.array = .ok (.array array))) :
    ∀ a ∈ acceptedOf verdict held access tried, Workable e s a := by
  intro a ha
  obtain ⟨c, hc, rfl⟩ := List.mem_map.1 ha
  exact ⟨fun access' h => (haccess access' h).1,
    fun _ _ => realizable_of_tries htried hclasses hfree c (List.mem_filter.1 hc).1,
    fun access' h => (haccess access' h).2⟩

section Refining

variable (hdecides : e.oracle.DecidesBy stack verdict) (htriggers : e.triggers = .absent τ)

include hdecides htriggers

/-- Taking an alternative fails under all its assumptions, unless the engine is disturbed. -/
theorem apply_reaches (ha : Workable e s a) :
    (e.apply a offset).Meets (s, ses) (fun _ w => Reaches e stack s a w.1)
      fun fault w => e.Disturbed fault ∨
        fault.EndsPath ∧ Takes e stack s a w.1 ∧ a.decision.value? ≠ none := by
  have hprogress : s.Progress 0 (guarded s a) := State.progress_withPath s _
  unfold apply
  rw [meets_bind]
  refine (assumeGuard_guarded a s ses).mono ?_ fun _ _ ⟨access, haccess, hno⟩ =>
    absurd (ha.guard access haccess) hno
  rintro - _ rfl
  have hassumed := (assumeDecision_assumes hdecides ha.guarded).and
    (quiet_assumeDecision (e := e) a.decision (guarded s a, ses))
  rw [meets_bind]
  refine hassumed.mono ?_ fun _ _ h => .inl h.1
  rintro loaded ⟨t, ses'⟩ ⟨⟨hloaded, hsame, hclauses⟩, hquiet⟩
  have hst : s.Progress 0 t := hprogress.trans hquiet
  cases loaded with
  | none =>
    obtain rfl := hsame rfl
    have hno : ∀ {v}, a.decision.value? ≠ some v := fun hv => by cases hloaded.trans hv
    exact
      { clauses := hclauses
        recorded := fun _ _ _ _ hv => absurd hv hno
        kept := fun _ _ ho _ => Heap.get_allocate_of_get ho _
        loaded := fun _ hv => absurd hv hno
        thrown := fun _ => State.throwsNew_throwNew rfl _ }
  | some v =>
    refine (load_reaches ha hloaded.symm hclauses htriggers hst).mono (fun _ _ h => h) ?_
    exact fun fault w ⟨hends, htakes⟩ => .inr ⟨hends, htakes, hloaded ▸ Option.some_ne_none v⟩

theorem refineOne_reaches (ha : Workable e s a) (branching : Bool) (number : Nat) :
    (e.refineOne s branching offset number a).Meets ses (fun t _ => Reaches e stack s a t)
      fun _ _ => ¬e.Steady := by
  have hplaced : Workable e (successorOf s branching number) { a with branch := number } := by
    refine ⟨ha.guard, fun r hr => (ha.decision r hr).successorOf branching number, ?_⟩
    rw [successorOf_eq]
    exact ha.member
  have hreached : ∀ {t}, Reaches e stack (successorOf s branching number)
      { a with branch := number } t → Reaches e stack s a t := by
    intro t ht
    rw [successorOf_eq] at ht
    exact ⟨⟨ht.clauses, ht.recorded, ht.kept⟩, ht.loaded, ht.thrown⟩
  refine meets_refineOne ((apply_reaches hdecides htriggers hplaced).mono
    (fun _ _ h => hreached h) ?_)
  rintro fault w (⟨⟨cause, rfl⟩, hunsteady⟩ | ⟨hends, htakes, hv⟩)
  · exact ⟨nofun, fun _ _ => hunsteady⟩
  · obtain ⟨className, hsettle⟩ := hends.settle w.1
    rw [hsettle]
    refine ⟨?_, nofun⟩
    rintro _ ⟨⟩
    exact hreached (htakes.throwNew hv className)

/-- The successors are those of the alternatives, one for each of them and in their order. -/
theorem refineFrom_reaches {alternatives : List Alternative}
    (hall : ∀ a ∈ alternatives, Workable e s a) (branching : Bool) (number : Nat) :
    (e.refineFrom s branching offset number alternatives).Meets ses
      (fun successors _ => List.Forall₂ (Reaches e stack s) alternatives successors)
      fun _ _ => ¬e.Steady := by
  induction alternatives generalizing number ses with
  | nil => exact .nil
  | cons a rest ih =>
    obtain ⟨ha, hrest⟩ := List.forall_mem_cons.1 hall
    unfold refineFrom
    rw [meets_bind]
    refine (refineOne_reaches hdecides htriggers ha branching number).mono (fun t ses' ht => ?_)
      fun _ _ h => h
    rw [meets_bind, Session.meets_count, meets_bind]
    exact (ih hrest (number + 1)).mono (fun _ _ hothers => .cons ht hothers) fun _ _ h => h

end Refining

end Successors

end Engine

end SymbolicMachine
