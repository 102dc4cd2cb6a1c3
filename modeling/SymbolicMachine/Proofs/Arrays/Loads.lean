import SymbolicMachine.Proofs.Arrays.Typed
import SymbolicMachine.Proofs.Oracle.Satisfying
/-!
# Reading array members

Of the successors of an array load, an interpretation that satisfies the path condition satisfies
the path condition of exactly one.  That one throws if the index is out of bounds, and otherwise has
the member on its operand stack.
-/
namespace SymbolicMachine

open SymbolicMachine.Action

variable {ω τ ε α β : Type}

/-! ## Stack forms -/

/-- Every primitive has a form for the operand stack, which has the value of its conversion. -/
theorem Value.exists_widen {t : Term} (h : t.WellTyped) :
    ∃ w, (Value.primitive t).widen = .ok (.primitive w) ∧
      ∀ I, w.eval I = (t.eval I).cast t.type.stackType := by
  have hconvert : ∃ w, t.convert t.type.stackType = .ok w := by
    by_cases hnative : t.type = t.type.stackType
    · exact ⟨t, if_pos hnative⟩
    · apply Term.exists_convert_of_converts
      refine ⟨hnative, ?_⟩
      cases htype : t.type <;> rw [htype] at hnative <;>
        first | exact absurd rfl hnative | exact .inl ⟨rfl, rfl⟩ | exact .inr ⟨rfl, rfl⟩
  obtain ⟨w, hw⟩ := hconvert
  exact ⟨w, map_eq_ok.2 ⟨w, hw, rfl⟩, (Term.convert_spec h hw).2.2⟩

/-! ## Reads -/

/-- A new exception of a class was thrown on the way from one state to another. -/
def State.ThrowsNew (s t : State) (className : String) : Prop :=
  t.ending = some (.threw (.concrete s.heap.next)) ∧
    ∃ i, t.heap.get s.heap.next = .ok (.object i) ∧ i.className = className

theorem State.throwsNew_throwNew {s w : State} (h : w.heap = s.heap) (className : String) :
    s.ThrowsNew (w.throwNew className).2 className := by
  unfold ThrowsNew
  rw [← h]
  exact ⟨rfl, .create className none [], w.heap.get_allocate_self _, rfl⟩

/-- The conditions that a successor assumes for an outcome. -/
def AccessOutcome.assumed (o : AccessOutcome) : List Clause :=
  if o.guard.isTrue then [] else [.assume o.guard]

/-- A read of an array member: the frame that has the index and the array on its operand stack,
the frames and the operands below, and the array at its address. -/
structure MemberRead where
  frame : Frame
  rest : List Frame
  below : List Value
  index : Term
  reference : Reference
  address : Nat
  array : ArrayObject
  /-- The type of the members. -/
  type : PrimType

namespace MemberRead

/-- A state is about to read a member that is a primitive. -/
structure Pending (x : MemberRead) (s : State) : Prop where
  frames : s.frames = x.frame :: x.rest
  operands : x.frame.operands.operands =
    .primitive x.index :: .reference x.reference :: x.below
  index : x.index.type = .int
  target : s.deref x.reference = .ok (some x.address)
  array : s.heap.get x.address = .ok (.array x.array)
  type : Descriptor.primType? x.array.memberType = some x.type
  values : ∀ entry ∈ x.array.entries, ∃ u, entry.value = .primitive u

/-- There is code behind the instruction. -/
def CanAdvance (x : MemberRead) : Prop :=
  x.frame.pc + Instruction.arrayLoad.length < x.frame.code.length

/-- The frame without the index and the array. -/
def taken (x : MemberRead) : Frame :=
  { x.frame with operands := { x.frame.operands with operands := x.below } }

/-- The state without the index and the array on the operand stack. -/
def working (x : MemberRead) (s : State) : State := s.withFrames (x.taken :: x.rest)

/-- The frame after the read, with a member on the operand stack. -/
def loaded (x : MemberRead) (w : Term) : Frame :=
  { x.frame with
    pc := x.frame.pc + Instruction.arrayLoad.length
    operands := { x.frame.operands with operands := .primitive w :: x.below } }

/-- The symbol that is handed out for the member of an input. -/
def unknownMember (x : MemberRead) (container : RefSymbol) (id : Nat) : Term :=
  .symbol ⟨id, x.type, .member container x.index⟩

/-- A member was pushed in its stack form, and then the program went on. -/
structure Pushes (x : MemberRead) (s : State) (u : Term) (heap : Heap) (t : State) : Prop where
  ending : t.ending = s.ending
  heap_eq : t.heap = heap
  frames : ∃ w, (Value.primitive u).widen = .ok (.primitive w) ∧ t.frames = x.loaded w :: x.rest

/-- What an outcome does to a state if the program counter can advance. -/
inductive Effect (x : MemberRead) (s : State) : AccessOutcome → State → Prop
  | outOfRange {guard : Term} {t : State} (h : s.ThrowsNew t Engine.indexOutOfBounds) :
      Effect x s (.outOfRange guard) t
  | entry {guard u : Term} {t : State} (h : x.Pushes s u s.heap t) :
      Effect x s (.entry guard (.primitive u)) t
  | input {guard : Term} {container : RefSymbol} {id : Nat} {t : State}
      (horigin : x.array.origin = some container) (hid : s.nextSymbol ≤ id)
      (h : x.Pushes s (x.unknownMember container id)
        (s.heap.insertAt x.address
          (.array (x.array.set x.index (.primitive (x.unknownMember container id))))) t) :
      Effect x s (.unknown guard) t
  | default {guard : Term} {t : State} (horigin : x.array.origin = none)
      (h : x.Pushes s (.constant (.zero x.type)) s.heap t) : Effect x s (.unknown guard) t

/-- The value of the member: the latest record at the number of the index.  Without a record it is
a symbol that is handed out for the member of an input, and otherwise zero. -/
inductive Gives (x : MemberRead) (I : Interpretation) (s : State) : Term → Prop
  | recorded {u : Term} (h : x.array.recorded? I (x.index.number I) = some (.primitive u)) :
      Gives x I s u
  | input {container : RefSymbol} {id : Nat}
      (h : x.array.recorded? I (x.index.number I) = none)
      (horigin : x.array.origin = some container) (hid : s.nextSymbol ≤ id) :
      Gives x I s (x.unknownMember container id)
  | default (h : x.array.recorded? I (x.index.number I) = none)
      (horigin : x.array.origin = none) : Gives x I s (.constant (.zero x.type))

/-- Nothing has changed in a heap but that an input has the member on record. -/
structure Keeps (x : MemberRead) (I : Interpretation) (s : State) (u : Term) (heap : Heap) :
    Prop where
  next : heap.next = s.heap.next
  array : ∃ b : ArrayObject, heap.get x.address = .ok (.array b) ∧
    b.className = x.array.className ∧ b.origin = x.array.origin ∧ b.length = x.array.length ∧
    ∀ n, b.recorded? I n =
      if x.array.isInput = true ∧ x.index.number I = n then some (.primitive u)
      else x.array.recorded? I n
  others : ∀ address, address ≠ x.address → heap.get address = s.heap.get address

/-- A member was read: its value is on the operand stack in its stack form. -/
structure Yields (x : MemberRead) (I : Interpretation) (s t : State) (u : Term) : Prop where
  member : x.Gives I s u
  ending : t.ending = s.ending
  pushed : ∃ w, t.frames = x.loaded w :: x.rest ∧ w.eval I = (u.eval I).cast u.type.stackType
  heap : x.Keeps I s u t.heap

/-- What a read comes to: an exception if the index is out of bounds, and otherwise the member. -/
def Outcome (x : MemberRead) (I : Interpretation) (s t : State) : Prop :=
  x.CanAdvance →
    (s.ThrowsNew t Engine.indexOutOfBounds ↔ ¬x.array.Within I (x.index.number I)) ∧
      (x.array.Within I (x.index.number I) → ∃ u, x.Yields I s t u)

/-- A successor is what an outcome leads to. -/
structure LeadsTo (x : MemberRead) (s : State) (o : AccessOutcome) (t : State) : Prop where
  clauses : t.pathCondition.clauses = s.pathCondition.clauses ++ o.assumed
  effect : x.CanAdvance → x.Effect s o t

end MemberRead

theorem AccessOutcome.satisfies_assumed {I : Interpretation} {clauses : List Clause}
    {o : AccessOutcome} (h : I.Satisfies clauses) :
    I.Satisfies (clauses ++ o.assumed) ↔ o.Happens I := by
  unfold assumed
  split
  · rename_i htrue
    rw [List.append_nil]
    exact iff_of_true h (Term.eval_of_isTrue htrue)
  · rw [Interpretation.satisfies_append_assume]
    exact and_iff_right h

namespace Engine

variable {e : Engine ω τ} {s : State} {ses : Session ω τ} {x : MemberRead} {I : Interpretation}

/-! ## Alternatives -/

/-- An alternative is the one of an outcome; a fresh symbol has a number from a first one on. -/
inductive Offers (x : MemberRead) (first : Nat) : AccessOutcome → Alternative → Prop
  | outOfRange {guard : Term} :
      Offers x first (.outOfRange guard)
        (.create .outOfRange (some ⟨guard, x.address, x.index, false⟩))
  | entry {guard u : Term} :
      Offers x first (.entry guard (.primitive u))
        (.create (.loads (.primitive u)) (some ⟨guard, x.address, x.index, false⟩))
  | input {guard : Term} {container : RefSymbol} {id : Nat}
      (horigin : x.array.origin = some container) (hid : first ≤ id) :
      Offers x first (.unknown guard)
        (.create (.loads (.primitive (x.unknownMember container id)))
          (some ⟨guard, x.address, x.index, true⟩))
  | default {guard : Term} (horigin : x.array.origin = none) :
      Offers x first (.unknown guard)
        (.create (.loads (.primitive (.constant (.zero x.type))))
          (some ⟨guard, x.address, x.index, false⟩))

theorem Offers.mono {first first' : Nat} {o : AccessOutcome} {a : Alternative}
    (h : Offers x first' o a) (hle : first ≤ first') : Offers x first o a := by
  cases h with
  | outOfRange => exact .outOfRange
  | entry => exact .entry
  | input horigin hid => exact .input horigin (Nat.le_trans hle hid)
  | default horigin => exact .default horigin

/-- A feasible outcome has one alternative. -/
theorem outcomeAlternatives_offers (htype : Descriptor.primType? x.array.memberType = some x.type)
    {o : AccessOutcome} (ho : ∀ guard v, o = .entry guard v → ∃ u, v = .primitive u)
    {bad : Fault → Session ω τ → Prop} :
    (e.outcomeAlternatives s x.address x.array x.index o).Meets ses
      (fun result ses' => ses' = ses ∧ ∃ n, s.nextSymbol ≤ n ∧ result.1 = s.withSymbols n ∧
        ∃ a, result.2 = [a] ∧ Offers x s.nextSymbol o a) bad := by
  cases o with
  | outOfRange guard => exact ⟨rfl, s.nextSymbol, Nat.le_refl _, rfl, _, rfl, .outOfRange⟩
  | entry guard v =>
    obtain ⟨u, rfl⟩ := ho guard v rfl
    exact ⟨rfl, s.nextSymbol, Nat.le_refl _, rfl, _, rfl, .entry⟩
  | unknown guard =>
    unfold outcomeAlternatives unrecordedMember
    cases horigin : x.array.origin with
    | some container =>
      simp only [State.createSymbol, htype]
      exact ⟨rfl, s.nextSymbol + 1, Nat.le_succ _, rfl, _, rfl, .input horigin (Nat.le_refl _)⟩
    | none =>
      have hdefault : x.array.defaultMember = .ok (.primitive (.constant (.zero x.type))) := by
        simp only [ArrayObject.defaultMember, Value.default, htype]
        rfl
      simp only [hdefault]
      exact ⟨rfl, s.nextSymbol, Nat.le_refl _, rfl, _, rfl, .default horigin⟩

/-- The alternatives are those of the outcomes, but for some that do not happen. -/
theorem decideOutcomes_sifted (hrejects : e.oracle.NeverRejects s.pathCondition.clauses)
    (hsat : I.Satisfies s.pathCondition.clauses)
    (htype : Descriptor.primType? x.array.memberType = some x.type)
    {outcomes : List AccessOutcome}
    (houtcomes : ∀ o ∈ outcomes, ∀ guard v, o = .entry guard v → ∃ u, v = .primitive u) :
    (e.decideOutcomes x.address x.array x.index s outcomes).Meets ses
      (fun result _ => ∃ n, s.nextSymbol ≤ n ∧ result.1 = s.withSymbols n ∧
        Sifted (AccessOutcome.Happens I) (Offers x s.nextSymbol) outcomes result.2)
      fun fault _ => e.Disturbed fault := by
  -- The state is generalized since the symbols of earlier outcomes are taken from it.
  induction outcomes generalizing s ses with
  | nil => exact ⟨s.nextSymbol, Nat.le_refl _, rfl, .nil⟩
  | cons o rest ih =>
    have hrest : ∀ o ∈ rest, ∀ guard v, o = .entry guard v → ∃ u, v = .primitive u :=
      fun o' ho' => houtcomes o' (List.mem_cons_of_mem _ ho')
    unfold decideOutcomes
    rw [meets_bind]
    refine meets_sync_unless fun ses' hholds => ?_
    rw [meets_bind]
    refine meets_sat_unless hrejects hholds fun verdict ses'' _ hverdict => ?_
    cases verdict with
    | true =>
      rw [if_pos rfl, meets_bind]
      refine (outcomeAlternatives_offers htype (houtcomes o List.mem_cons_self)).mono ?_
        fun _ _ h => h
      rintro ⟨_, _⟩ ses₃ ⟨rfl, n, hn, rfl, a, rfl, ha⟩
      rw [meets_bind]
      refine (ih (s := s.withSymbols n) hrejects hsat hrest).mono ?_ fun _ _ h => h
      rintro ⟨_, others⟩ ses₄ ⟨m, hm, rfl, hothers⟩
      exact ⟨m, Nat.le_trans hn hm, rfl, .keep ha (hothers.mono fun _ _ h => h.mono hn)⟩
    | false =>
      rw [if_neg Bool.false_ne_true]
      refine (ih hrejects hsat hrest).mono ?_ fun _ _ h => h
      rintro result ses₃ ⟨n, hn, hresult, hothers⟩
      exact ⟨n, hn, hresult, .drop (hverdict rfl I hsat) hothers⟩

/-! ## Successors -/

/-- A successor from which the index and the array were taken, on the way to the member. -/
structure Reading (x : MemberRead) (s : State) (heap : Heap) (clauses : List Clause) (w : State) :
    Prop where
  frames : w.frames = x.taken :: x.rest
  ending : w.ending = s.ending
  heap_eq : w.heap = heap
  clauses_eq : w.pathCondition.clauses = clauses

section Successors

variable {w : State} {clauses : List Clause} {a : Alternative} {access : ArrayAccess}

theorem recordFresh_reading (hx : x.Pending s) (hw : Reading x s s.heap clauses w)
    (haccess : a.access = some access) (haddress : access.array = x.address)
    (hindex : access.index = x.index) (v : Value)
    {bad : Fault → State × Session ω τ → Prop} :
    (recordFresh a v).Meets (w, ses)
      (fun _ z => Reading x s
        (if access.fresh then s.heap.insertAt x.address (.array (x.array.set x.index v))
          else s.heap) clauses z.1) bad := by
  simp only [recordFresh, haccess]
  split
  · rw [meets_updating, haddress, hindex]
    have harray : w.heap.get x.address = .ok (.array x.array) := by rw [hw.heap_eq, hx.array]
    refine State.meets_arraySet_of_get harray ?_
    rw [hw.heap_eq]
    exact { hw with heap_eq := rfl }
  · exact hw

/-- A member that is loaded is pushed, and only the end of the code keeps the program from going
on. -/
theorem load_pushes (htriggers : e.triggers = .absent τ) (hx : x.Pending s)
    (hw : Reading x s s.heap clauses w)
    (hroom : x.below.length + 1 ≤ x.frame.operands.maxDepth) {u : Term} (hu : u.WellTyped)
    (haccess : a.access = some access) (haddress : access.array = x.address)
    (hindex : access.index = x.index) :
    (e.load a Instruction.arrayLoad.length (.primitive u)).Meets (w, ses)
      (fun _ z => z.1.pathCondition.clauses = clauses ∧
        x.Pushes s u (if access.fresh then
          s.heap.insertAt x.address (.array (x.array.set x.index (.primitive u))) else s.heap) z.1)
      fun fault z => z.1.pathCondition.clauses = clauses ∧ ¬x.CanAdvance ∧ fault.EndsPath := by
  obtain ⟨form, hform, -⟩ := Value.exists_widen hu
  unfold load
  rw [meets_bind]
  refine (recordFresh_reading hx hw haccess haddress hindex _).mono ?_ fun _ _ h => h
  rintro - ⟨w', ses'⟩ hw'
  rw [meets_bind, meets_ofExcept_mapError, hform]
  refine ⟨?_, nofun⟩
  rintro _ ⟨⟩
  rw [meets_bind, meets_updating, State.meets_pushOperand_cons hw'.frames hroom, meets_bind,
    meets_triggering, htriggers]
  change Meets (updating (State.incPc _)) _ _ _
  rw [meets_updating]
  refine State.meets_incPc_cons rfl (fun _ => ⟨hw'.clauses_eq, ?_⟩) fun error houtside hmild => ?_
  · exact ⟨hw'.ending, hw'.heap_eq, form, hform, rfl⟩
  · exact ⟨hw'.clauses_eq, houtside, hmild⟩

theorem assumeGuard_reading (hw : Reading x s s.heap clauses w) {o : AccessOutcome}
    (ho : o.Guarded) (haccess : a.access = some access) (hguard : access.guard = o.guard)
    {bad : Fault → State × Session ω τ → Prop} :
    (assumeGuard a).Meets (w, ses)
      (fun _ z => Reading x s s.heap (clauses ++ o.assumed) z.1) bad := by
  simp only [assumeGuard, haccess, hguard, AccessOutcome.assumed]
  split
  · rw [List.append_nil]
    exact hw
  · rw [meets_updating]
    unfold State.assume
    rw [if_pos ho.type_eq]
    refine State.meets_assumeClause (fun p hp => ?_) nofun
    exact { hw with
      clauses_eq := by
        change p.clauses = _
        rw [PathCondition.clauses_of_push hp, hw.clauses_eq] }

theorem reading_successorOf (hw : Reading x s s.heap clauses w) (branching : Bool) (number : Nat) :
    Reading x s s.heap clauses (successorOf w branching number) := by
  unfold successorOf
  split
  · exact { hw with }
  · exact { hw with }

/-- Taking an alternative leads to what its outcome says. -/
theorem apply_leadsTo (htriggers : e.triggers = .absent τ) (hx : x.Pending s)
    (hw : Reading x s s.heap s.pathCondition.clauses w)
    (hroom : x.below.length + 1 ≤ x.frame.operands.maxDepth) {o : AccessOutcome} (ho : o.Guarded)
    (hmembers : ∀ guard u, o = .entry guard (.primitive u) → u.WellTyped)
    (ha : Offers x s.nextSymbol o a) (number : Nat) :
    (e.apply { a with branch := number } Instruction.arrayLoad.length).Meets (w, ses)
      (fun _ z => x.LeadsTo s o z.1)
      fun fault z => fault.EndsPath ∧ ¬x.CanAdvance ∧
        z.1.pathCondition.clauses = s.pathCondition.clauses ++ o.assumed := by
  have hload : ∀ {a : Alternative} {access : ArrayAccess} {u : Term}, u.WellTyped →
      a.access = some access → access.array = x.address → access.index = x.index →
      access.guard = o.guard → a.decision = .loads (.primitive u) →
      (∀ {t}, x.Pushes s u (if access.fresh then s.heap.insertAt x.address
        (.array (x.array.set x.index (.primitive u))) else s.heap) t → x.Effect s o t) →
      (e.apply a Instruction.arrayLoad.length).Meets (w, ses) (fun _ z => x.LeadsTo s o z.1)
        fun fault z => fault.EndsPath ∧ ¬x.CanAdvance ∧
          z.1.pathCondition.clauses = s.pathCondition.clauses ++ o.assumed := by
    intro a access u hu haccess haddress hindex hguard hdecision heffect
    unfold apply
    rw [meets_bind]
    refine (assumeGuard_reading hw ho haccess hguard).mono ?_ fun _ _ h => h
    rintro - ⟨w', ses'⟩ hw'
    rw [hdecision]
    change Meets (e.load a _ _) _ _ _
    refine (load_pushes htriggers hx hw' hroom hu haccess haddress hindex).mono ?_ ?_
    · exact fun _ z ⟨hclauses, hpushes⟩ => ⟨hclauses, fun _ => heffect hpushes⟩
    · exact fun _ z ⟨hclauses, houtside, hfault⟩ => ⟨hfault, houtside, hclauses⟩
  cases ha with
  | outOfRange =>
    unfold apply
    rw [meets_bind]
    refine (assumeGuard_reading hw ho rfl rfl).mono ?_ fun _ _ h => h
    rintro - ⟨w', ses'⟩ hw'
    exact ⟨hw'.clauses_eq, fun _ => .outOfRange (State.throwsNew_throwNew hw'.heap_eq _)⟩
  | @entry guard u => exact hload (hmembers guard u rfl) rfl rfl rfl rfl rfl .entry
  | input horigin hid =>
    exact hload (u := .symbol _) trivial rfl rfl rfl rfl rfl (.input horigin hid)
  | default horigin =>
    exact hload (u := .constant _) trivial rfl rfl rfl rfl rfl (.default horigin)

theorem refineOne_leadsTo (htriggers : e.triggers = .absent τ) (hx : x.Pending s)
    (hw : Reading x s s.heap s.pathCondition.clauses w)
    (hroom : x.below.length + 1 ≤ x.frame.operands.maxDepth) {o : AccessOutcome} (ho : o.Guarded)
    (hmembers : ∀ guard u, o = .entry guard (.primitive u) → u.WellTyped)
    (ha : Offers x s.nextSymbol o a) (branching : Bool) (number : Nat) :
    (e.refineOne w branching Instruction.arrayLoad.length number a).Meets ses
      (fun t _ => x.LeadsTo s o t) fun _ _ => False := by
  refine meets_refineOne ((apply_leadsTo htriggers hx (reading_successorOf hw branching number)
    hroom ho hmembers ha number).mono (fun _ _ h => h) ?_)
  rintro fault ⟨t, ses'⟩ ⟨hfault, houtside, hclauses⟩
  obtain ⟨className, hsettle⟩ := hfault.settle t
  rw [hsettle]
  refine ⟨?_, nofun⟩
  rintro _ ⟨⟩
  exact ⟨hclauses, fun hadvance => absurd hadvance houtside⟩

/-- The successors are those of the outcomes, but for some that do not happen. -/
theorem refineFrom_sifted (htriggers : e.triggers = .absent τ) (hx : x.Pending s)
    (hw : Reading x s s.heap s.pathCondition.clauses w)
    (hroom : x.below.length + 1 ≤ x.frame.operands.maxDepth) {outcomes : List AccessOutcome}
    (houtcomes : ∀ o ∈ outcomes,
      o.Guarded ∧ ∀ guard u, o = .entry guard (.primitive u) → u.WellTyped)
    {alternatives : List Alternative}
    (h : Sifted (AccessOutcome.Happens I) (Offers x s.nextSymbol) outcomes alternatives)
    (branching : Bool) (number : Nat) :
    (e.refineFrom w branching Instruction.arrayLoad.length number alternatives).Meets ses
      (fun successors _ => Sifted (AccessOutcome.Happens I) (x.LeadsTo s) outcomes successors)
      fun _ _ => False := by
  induction h generalizing number ses with
  | nil => exact .nil
  | @keep o a rest others ha hrest ih =>
    obtain ⟨⟨hguarded, hmembers⟩, hlater⟩ := List.forall_mem_cons.1 houtcomes
    unfold refineFrom
    rw [meets_bind]
    refine (refineOne_leadsTo htriggers hx hw hroom hguarded hmembers ha branching number).mono ?_
      fun _ _ h => h
    intro t ses' ht
    rw [meets_bind, Session.meets_count, meets_bind]
    exact (ih hlater (number + 1)).mono (fun _ _ hsifted => .keep ht hsifted) fun _ _ h => h
  | drop hno _ ih =>
    exact (ih (List.forall_mem_cons.1 houtcomes).2 number).mono
      (fun _ _ hsifted => .drop hno hsifted) fun _ _ h => h

end Successors

/-! ## Steps -/

theorem Typed.isInt_of_pending {known : Symbol → Prop} (h : Typed known s [])
    (hx : x.Pending s) :
    x.index.IsInt ∧ x.array.length.IsInt ∧ ∀ entry ∈ x.array.entries, entry.index.IsInt := by
  have hf := h.frames x.frame (hx.frames ▸ List.mem_cons_self)
  have hindex : (Value.primitive x.index).Over known :=
    hf.operands _ (hx.operands ▸ List.mem_cons_self)
  have harray := h.heap hx.array
  have hlength := harray.length _ rfl
  refine ⟨⟨hindex.wellTyped, hx.index⟩, ⟨hlength.wellTyped, hlength.type_eq⟩, ?_⟩
  intro entry hentry
  have hentry' := harray.indices _ rfl entry hentry
  exact ⟨hentry'.wellTyped, hentry'.type_eq⟩

/-- An array load gives the successors of its outcomes, but for some that do not happen. -/
theorem arrayLoad_sifted (htriggers : e.triggers = .absent τ)
    (hrejects : e.oracle.NeverRejects s.pathCondition.clauses) {known : Symbol → Prop}
    (htyped : Typed known s []) (hx : x.Pending s)
    (hsat : I.Satisfies s.pathCondition.clauses) {outcomes : List AccessOutcome}
    (hget : x.array.get x.index = .ok outcomes) (hguarded : ∀ o ∈ outcomes, o.Guarded) :
    (e.step .arrayLoad s).Meets ses
      (fun successors _ => Sifted (AccessOutcome.Happens I) (x.LeadsTo s) outcomes successors)
      fun _ _ => ¬e.Steady := by
  have hf := htyped.frames x.frame (hx.frames ▸ List.mem_cons_self)
  have hroom : x.below.length + 1 ≤ x.frame.operands.maxDepth := by
    have hdepth := hf.depth
    rw [hx.operands] at hdepth
    exact Nat.le_of_succ_le hdepth
  have hentries : ∀ o ∈ outcomes, ∀ guard v, o = .entry guard v → ∃ u, v = .primitive u := by
    rintro _ ho guard v rfl
    obtain ⟨entry, hentry, rfl⟩ := contains_of_mem_get hget ho
    exact hx.values entry hentry
  have hmembers : ∀ o ∈ outcomes, ∀ guard u, o = .entry guard (.primitive u) → u.WellTyped := by
    rintro _ ho guard u rfl
    exact Term.Over.wellTyped ((htyped.heap hx.array).contents _ (contains_of_mem_get hget ho))
  refine meets_execute ?_
  change Meets (e.arrayLoad s) _ _ _
  unfold arrayLoad
  rw [meets_bind, meets_popInt_cons hx.frames hx.operands hx.index, meets_bind]
  refine (meets_popTarget_cons (s := popped s x.frame _ x.rest) rfl rfl hx.target).2 ?_
  change Meets (fetched (s.heap.get x.address) >>= fun object => _) _ _ _
  rw [hx.array, meets_bind, meets_fetched_ok, meets_bind]
  unfold decideArrayLoad
  rw [meets_bind, Session.meets_count, meets_bind]
  change Meets (ofExcept ((s.heap.getArray x.address).mapError _)) _ _ _
  rw [Heap.getArray_eq_ok.2 hx.array, meets_ofExcept_mapError]
  refine ⟨?_, nofun⟩
  rintro _ ⟨⟩
  rw [hget, meets_bind, meets_ofExcept_mapError]
  refine ⟨?_, nofun⟩
  rintro _ ⟨⟩
  refine (decideOutcomes_sifted (s := x.working s) hrejects hsat hx.type hentries).mono ?_
    fun _ _ h => h.conclude
  rintro ⟨working, alternatives⟩ ses' ⟨n, hn, rfl, halternatives⟩
  have hworking : Reading x s s.heap s.pathCondition.clauses ((x.working s).withSymbols n) :=
    ⟨rfl, rfl, rfl, rfl⟩
  refine (refineFrom_sifted htriggers hx hworking hroom
    (fun o ho => ⟨hguarded o ho, hmembers o ho⟩) halternatives _ _).mono (fun _ _ h => h) ?_
  exact fun _ _ h => h.elim

/-! ## Members -/

theorem keeps_heap (hx : x.Pending s) {u : Term}
    (hu : x.array.isInput = true → x.array.recorded? I (x.index.number I) = some (.primitive u)) :
    x.Keeps I s u s.heap where
  next := rfl
  array := by
    refine ⟨x.array, hx.array, rfl, rfl, rfl, fun n => ?_⟩
    split
    · rename_i hn
      rw [← hn.2, hu hn.1]
    · rfl
  others _ _ := rfl

theorem keeps_recorded {known : Symbol → Prop} (htyped : Typed known s []) (hx : x.Pending s)
    (hinput : x.array.isInput = true) (u : Term) :
    x.Keeps I s u (s.heap.insertAt x.address (.array (x.array.set x.index (.primitive u)))) where
  next := Heap.next_insertAt_of_get hx.array _
  array := by
    have hindex : (Value.primitive x.index).Over known :=
      (htyped.frames x.frame (hx.frames ▸ List.mem_cons_self)).operands _
        (hx.operands ▸ List.mem_cons_self)
    -- An entry that gives way looks like the index, and in a typed state it is the index.
    have hsame : ∀ e ∈ x.array.entries, (e.index == x.index) = true →
        e.index.number I = x.index.number I := by
      intro e he hequal
      have hentry := (htyped.heap hx.array).indices _ rfl e he
      rw [Term.eq_of_same htyped.numbering hentry.known hindex.known hequal]
    refine ⟨x.array.set x.index (.primitive u), Heap.get_insertAt_self _ _ _, rfl, rfl, rfl,
      fun n => ?_⟩
    simp only [ArrayObject.recorded?_set _ hsame, hinput, true_and]
  others _ haddress := Heap.get_insertAt_of_ne _ haddress _

/-- A member that was pushed is read, and nothing is thrown. -/
theorem yields_of_pushes {u : Term} {heap : Heap} {t : State} (hpushes : x.Pushes s u heap t)
    (hu : u.WellTyped) (hmember : x.Gives I s u) (hkeeps : x.Keeps I s u heap) :
    ¬s.ThrowsNew t indexOutOfBounds ∧ x.Yields I s t u := by
  obtain ⟨w, hw, hframes⟩ := hpushes.frames
  obtain ⟨w', hw', heval⟩ := Value.exists_widen hu
  cases hw.symm.trans hw'
  have hheap := hpushes.heap_eq
  subst hheap
  refine ⟨?_, hmember, hpushes.ending, ⟨w, hframes, heval I⟩, hkeeps⟩
  -- An exception would be at the next address, and the heap has not grown.
  rintro ⟨-, i, hi, -⟩
  have hlt := Heap.lt_next_of_get hi
  rw [hkeeps.next] at hlt
  exact Nat.lt_irrefl _ hlt

/-- What an outcome does that is as the array is. -/
theorem yields_of_effect {known : Symbol → Prop} (htyped : Typed known s []) (hx : x.Pending s)
    {o : AccessOutcome} {t : State} (heffect : x.Effect s o t)
    (hdescribes : o.Describes I x.array (x.index.number I)) :
    (s.ThrowsNew t indexOutOfBounds ↔ ¬x.array.Within I (x.index.number I)) ∧
      (x.array.Within I (x.index.number I) → ∃ u, x.Yields I s t u) := by
  have hread : ∀ {u}, x.array.Within I (x.index.number I) →
      ¬s.ThrowsNew t indexOutOfBounds ∧ x.Yields I s t u →
        (s.ThrowsNew t indexOutOfBounds ↔ ¬x.array.Within I (x.index.number I)) ∧
          (x.array.Within I (x.index.number I) → ∃ u, x.Yields I s t u) :=
    fun hin ⟨hno, hyields⟩ => ⟨iff_of_false hno (not_not_intro hin), fun _ => ⟨_, hyields⟩⟩
  cases heffect with
  | outOfRange hthrows => exact ⟨iff_of_true hthrows hdescribes, fun hin => absurd hin hdescribes⟩
  | @entry guard u _ hpushes =>
    obtain ⟨hin, hrecorded⟩ := hdescribes
    obtain ⟨entry, hentry, hvalue⟩ := ArrayObject.exists_mem_of_recordedIn hrecorded
    have hu : (Value.primitive u).Over known :=
      (htyped.heap hx.array).contents _ ⟨entry, hentry, hvalue⟩
    have hkeeps := keeps_heap hx fun _ => hrecorded
    exact hread hin (yields_of_pushes hpushes hu.wellTyped (.recorded hrecorded) hkeeps)
  | @input guard container id _ horigin hid hpushes =>
    obtain ⟨hin, hnone⟩ := hdescribes
    have hinput : x.array.isInput = true := by
      rw [ArrayObject.isInput, horigin]
      rfl
    have hkeeps := keeps_recorded (I := I) htyped hx hinput (x.unknownMember container id)
    exact hread hin (yields_of_pushes hpushes trivial (.input hnone horigin hid) hkeeps)
  | default horigin hpushes =>
    obtain ⟨hin, hnone⟩ := hdescribes
    have hinput : x.array.isInput ≠ true := by
      rw [ArrayObject.isInput, horigin]
      exact Bool.false_ne_true
    have hkeeps := keeps_heap (I := I) (u := .constant (.zero x.type)) hx fun h => absurd h hinput
    exact hread hin (yields_of_pushes hpushes trivial (.default hnone horigin) hkeeps)

/-- Of the successors of an array load, an interpretation that satisfies the path condition
satisfies exactly one, and that one is as the array is under the interpretation. -/
theorem arrayLoad_selects (htriggers : e.triggers = .absent τ)
    (hrejects : e.oracle.NeverRejects s.pathCondition.clauses) {known : Symbol → Prop}
    (htyped : Typed known s []) (hx : x.Pending s)
    (hsat : I.Satisfies s.pathCondition.clauses) :
    (e.step .arrayLoad s).Meets ses
      (fun successors _ => I.Selects successors (x.Outcome I s)) fun _ _ => ¬e.Steady := by
  obtain ⟨hindex, hlength, hentries⟩ := htyped.isInt_of_pending hx
  obtain ⟨outcomes, hget, hguarded, hone, hdescribes⟩ :=
    ArrayObject.get_spec I hlength hentries hindex
  refine (arrayLoad_sifted htriggers hrejects htyped hx hsat hget hguarded).mono ?_ fun _ _ h => h
  intro successors _ hsifted
  have hsatisfies : ∀ o t, x.LeadsTo s o t →
      (o.Happens I ↔ I.Satisfies t.pathCondition.clauses) := by
    intro o t ht
    rw [ht.clauses, AccessOutcome.satisfies_assumed hsat]
  refine ⟨hsifted.exactlyOne hsatisfies hone, fun t ht hsatt hadvance => ?_⟩
  obtain ⟨o, ho, hleads⟩ := hsifted.exists_left ht
  have hhappens := (hsatisfies o t hleads).2 hsatt
  exact yields_of_effect htyped hx (hleads.effect hadvance) (hdescribes o ho hhappens)

end Engine

end SymbolicMachine
