import SymbolicMachine.Proofs.State.Growth
/-!
# What the operations on a state do

One rule for each operation, which says in which state a success leaves it and which errors it
can have.  Only deciding a reference a second time, or using an address at which there is no
fitting object, is a fault of the machine; every other error is about the analysed program.
-/
namespace SymbolicMachine

open SymbolicMachine.Action

variable {α β : Type}

/-- The symbols with a number that stand for an unknown value of the described type. -/
inductive Stands (descriptor : String) (origin : Origin) (id : Nat) : Value → Prop
  | primitive {t : PrimType} (h : Descriptor.primType? descriptor = some t) :
      Stands descriptor origin id (.primitive (.symbol ⟨id, t, origin⟩))
  | reference {c : String} (h : Descriptor.primType? descriptor = none)
      (hc : Descriptor.staticType descriptor = .ok c) :
      Stands descriptor origin id (.reference (.symbolic ⟨id, c, origin⟩))

/-- The symbols that stand for the fields of what a reference denotes, numbered from a first
number up to a last one. -/
inductive FieldsStand (r : RefSymbol) : List FieldInfo → Nat → List (String × Value) → Nat → Prop
  | nil {id : Nat} : FieldsStand r [] id [] id
  | cons {f : FieldInfo} {fields : List FieldInfo} {id n : Nat} {v : Value}
      {values : List (String × Value)} (hv : Stands f.descriptor (.field r f.name) id v)
      (hvalues : FieldsStand r fields (id + 1) values n) :
      FieldsStand r (f :: fields) id ((f.name, v) :: values) n

theorem FieldsStand.le {r : RefSymbol} {fields : List FieldInfo} {id n : Nat}
    {values : List (String × Value)} (h : FieldsStand r fields id values n) : id ≤ n := by
  induction h with
  | nil => exact Nat.le_refl _
  | cons _ _ ih => exact Nat.le_of_succ_le ih

/-- The object that a reference is bound to. -/
inductive Expansion (r : RefSymbol) (className : String) (fields : List FieldInfo) (id : Nat) :
    HeapObject → Nat → Prop
  | array (h : Descriptor.isArray className = true) :
      Expansion r className fields id
        (.array (.create className (some r) (.symbol ⟨id, .int, .length r⟩))) (id + 1)
  | object {values : List (String × Value)} {n : Nat}
      (h : Descriptor.isArray className = false) (hvalues : FieldsStand r fields id values n) :
      Expansion r className fields id (.object (.create className (some r) values)) n

theorem Expansion.le {r : RefSymbol} {className : String} {fields : List FieldInfo} {id n : Nat}
    {object : HeapObject} (h : Expansion r className fields id object n) : id ≤ n := by
  cases h with
  | array _ => exact Nat.le_succ id
  | object _ hvalues => exact hvalues.le

theorem Expansion.className_eq {r : RefSymbol} {className : String} {fields : List FieldInfo}
    {id n : Nat} {object : HeapObject} (h : Expansion r className fields id object n) :
    object.className = className := by
  cases h <;> rfl

theorem Expansion.origin_eq {r : RefSymbol} {className : String} {fields : List FieldInfo}
    {id n : Nat} {object : HeapObject} (h : Expansion r className fields id object n) :
    object.origin = some r := by
  cases h <;> rfl

namespace State

variable {s : State} {good : α → State → Prop} {bad : MemoryError → State → Prop}

/-! ## Frames -/

theorem meets_popOperand {good : Value → State → Prop}
    (hgood : ∀ f rest v below, s.frames = f :: rest → f.operands.operands = v :: below →
      good v (s.withFrames ({ f with operands := { f.operands with operands := below } } :: rest)))
    (hbad : ∀ e : MemoryError, e.isEngineFault = false → bad e s) :
    popOperand.Meets s good bad := by
  refine meets_onFrame (fun f rest v g hf hpop => ?_) (fun _ => hbad _ rfl)
    fun f rest e hf hpop => ?_
  · obtain ⟨⟨v', operands⟩, hv, heq⟩ := bind_eq_ok.1 hpop
    cases heq
    unfold OperandStack.pop at hv
    split at hv
    · rename_i v below hoperands
      cases hv
      exact hgood f rest v below hf hoperands
    · cases hv
  · rcases bind_eq_error.1 hpop with hpop | ⟨a, -, ha⟩
    · unfold OperandStack.pop at hpop
      split at hpop
      · cases hpop
      · cases hpop
        exact hbad _ rfl
    · cases ha

theorem meets_pushOperand {v : Value} {good : Unit → State → Prop}
    (hgood : ∀ f rest, s.frames = f :: rest → f.operands.size + 1 ≤ f.operands.maxDepth →
      good () (s.withFrames
        ({ f with operands := { f.operands with operands := v :: f.operands.operands } } :: rest)))
    (hbad : ∀ e : MemoryError, e.isEngineFault = false → bad e s) :
    (pushOperand v).Meets s good bad := by
  refine meets_onFrame (fun f rest a g hf hpush => ?_) (fun _ => hbad _ rfl)
    fun f rest e hf hpush => ?_
  · cases hg : f.push v with
    | error e =>
      rw [hg] at hpush
      cases hpush
    | ok g' =>
      rw [hg] at hpush
      cases hpush
      obtain ⟨operands, hoperands, heq⟩ := bind_eq_ok.1 hg
      cases heq
      unfold OperandStack.push at hoperands
      split at hoperands
      · cases hoperands
      · rename_i hroom
        cases hoperands
        exact hgood f rest hf (Nat.not_lt.1 hroom)
  · cases hg : f.push v with
    | ok g =>
      rw [hg] at hpush
      cases hpush
    | error e' =>
      rw [hg] at hpush
      cases hpush
      rcases bind_eq_error.1 hg with he | ⟨_, -, he⟩
      · unfold OperandStack.push at he
        split at he
        · cases he
          exact hbad _ rfl
        · cases he
      · cases he

/-- The program counter moves on inside the code. -/
theorem meets_incPc {offset : Nat} {good : Unit → State → Prop}
    (hgood : ∀ f rest, s.frames = f :: rest → f.pc + offset < f.code.length →
      good () (s.withFrames ({ f with pc := f.pc + offset } :: rest)))
    (hbad : ∀ e : MemoryError, e.isEngineFault = false → bad e s) :
    (incPc offset).Meets s good bad := by
  refine meets_onFrame (fun f rest a g hf hpc => ?_) (fun _ => hbad _ rfl) fun f rest e hf hpc => ?_
  · unfold Frame.incPc Frame.setPc at hpc
    split at hpc
    · rename_i hinside
      have hpc' : ((f.pc : Int) + offset).toNat = f.pc + offset := by omega
      cases hpc
      rw [hpc']
      exact hgood f rest hf (by omega)
    · cases hpc
  · unfold Frame.incPc Frame.setPc at hpc
    split at hpc
    · cases hpc
    · cases hpc
      exact hbad _ rfl

theorem exists_frame_of_getLocal {slot : Nat} {v : Value} (h : s.getLocal slot = .ok v) :
    ∃ f ∈ s.frames, some v ∈ f.locals.slots := by
  obtain ⟨f, hf, hv⟩ := bind_eq_ok.1 h
  refine ⟨f, ?_, ?_⟩
  · unfold currentFrame at hf
    split at hf
    · rename_i g rest hframes
      cases hf
      exact hframes ▸ List.mem_cons_self
    · cases hf
  · unfold Locals.get at hv
    split at hv
    · cases hv
    · cases hv
    · rename_i w hw
      cases hv
      exact List.mem_of_getElem? hw

/-! ## Frames that are there -/

section Present

variable {f : Frame} {rest : List Frame} {change : Frame → Except MemoryError (α × Frame)}

theorem meets_onFrame_ok (hframes : s.frames = f :: rest) {a : α} {g : Frame}
    (hchange : change f = .ok (a, g)) :
    (onFrame change).Meets s good bad ↔ good a (s.withFrames (g :: rest)) := by
  have hcurrent : s.currentFrame = .ok f := by rw [currentFrame, hframes]
  have hreplace : s.replaceFrame g = s.withFrames (g :: rest) := by
    rw [replaceFrame, hframes]
    rfl
  unfold onFrame
  simp only [meets_bind, meets_read, meets_ofExcept, meets_write, meets_pure, hcurrent]
  simp [hchange, hreplace]

theorem meets_onFrame_error (hframes : s.frames = f :: rest) {error : MemoryError}
    (hchange : change f = .error error) : (onFrame change).Meets s good bad ↔ bad error s := by
  have hcurrent : s.currentFrame = .ok f := by rw [currentFrame, hframes]
  unfold onFrame
  simp [meets_ofExcept, hcurrent, hchange]

theorem meets_popOperand_cons {v : Value} {below : List Value} (hframes : s.frames = f :: rest)
    (hoperands : f.operands.operands = v :: below) {good : Value → State → Prop} :
    popOperand.Meets s good bad ↔
      good v (s.withFrames
        ({ f with operands := { f.operands with operands := below } } :: rest)) := by
  refine meets_onFrame_ok hframes ?_
  simp [Frame.pop, OperandStack.pop, hoperands, bind, Except.bind]

theorem meets_pushOperand_cons {v : Value} (hframes : s.frames = f :: rest)
    (hroom : f.operands.operands.length + 1 ≤ f.operands.maxDepth) {good : Unit → State → Prop} :
    (pushOperand v).Meets s good bad ↔
      good () (s.withFrames
        ({ f with operands := { f.operands with operands := v :: f.operands.operands } } ::
          rest)) := by
  refine meets_onFrame_ok hframes ?_
  have hfits : ¬f.operands.size + 1 > f.operands.maxDepth := Nat.not_lt.2 hroom
  simp only [Frame.push, OperandStack.push, if_neg hfits]
  rfl

theorem meets_incPc_cons {offset : Nat} (hframes : s.frames = f :: rest)
    {good : Unit → State → Prop}
    (hgood : f.pc + offset < f.code.length →
      good () (s.withFrames ({ f with pc := f.pc + offset } :: rest)))
    (hbad : ∀ error : MemoryError, ¬f.pc + offset < f.code.length → error.isEngineFault = false →
      bad error s) : (incPc offset).Meets s good bad := by
  by_cases hinside : f.pc + offset < f.code.length
  · refine (meets_onFrame_ok hframes ?_).2 (hgood hinside)
    have hinside' : 0 ≤ (f.pc : Int) + offset ∧ (f.pc : Int) + offset < f.code.length := by omega
    have hpc : ((f.pc : Int) + offset).toNat = f.pc + offset := by omega
    simp only [Frame.incPc, Frame.setPc, if_pos hinside', hpc]
    rfl
  · have hmild := hbad (.invalidProgramCounter (f.pc + offset : Int) f.code.length) hinside rfl
    refine (meets_onFrame_error hframes ?_).2 hmild
    have houtside : ¬(0 ≤ (f.pc : Int) + offset ∧ (f.pc : Int) + offset < f.code.length) := by
      omega
    simp only [Frame.incPc, Frame.setPc, if_neg houtside]
    rfl

end Present

/-! ## Arrays -/

section Arrays

variable {address : Nat} {index : Term} {v : Value} {good : Unit → State → Prop}

theorem meets_arraySet
    (hgood : ∀ k, s.heap.arraySet address index v = .ok k → good () (s.withHeap k))
    (hbad : ∀ e, s.heap.arraySet address index v = .error e → bad e s) :
    (arraySet address index v).Meets s good bad := by
  unfold arraySet onHeap
  simp only [meets_bind, meets_read, meets_ofExcept, meets_write]
  exact ⟨hgood, hbad⟩

/-- A write to an array that is there succeeds. -/
theorem meets_arraySet_of_get {a : ArrayObject} (ha : s.heap.get address = .ok (.array a))
    (hgood : good () (s.withHeap (s.heap.insertAt address (.array (a.set index v))))) :
    (arraySet address index v).Meets s good bad := by
  have hset : s.heap.arraySet address index v =
      .ok (s.heap.insertAt address (.array (a.set index v))) :=
    bind_eq_ok.2 ⟨a, Heap.getArray_eq_ok.2 ha, rfl⟩
  refine meets_arraySet (fun k hk => ?_) fun e he => ?_
  · cases hset.symm.trans hk
    exact hgood
  · cases hset.symm.trans he

end Arrays

/-! ## Symbols and objects -/

theorem meets_createSymbol {descriptor : String} {origin : Origin} {good : Value → State → Prop}
    (hgood : ∀ v, Stands descriptor origin s.nextSymbol v →
      good v (s.withSymbols (s.nextSymbol + 1)))
    (hbad : ∀ e, Descriptor.primType? descriptor = none →
      Descriptor.staticType descriptor = .error e → bad (.value e) s) :
    (createSymbol descriptor origin).Meets s good bad := by
  unfold createSymbol
  split
  · rename_i t ht
    exact hgood _ (.primitive ht)
  · rename_i hnone
    simp only [meets_bind, meets_ofExcept, mapError_eq_ok, mapError_eq_error]
    refine ⟨fun c hc => hgood _ (.reference hnone hc), ?_⟩
    rintro e ⟨cause, hcause, rfl⟩
    exact hbad cause hnone hcause

theorem meets_createFields {r : RefSymbol} {fields : List FieldInfo}
    {good : List (String × Value) → State → Prop}
    (hgood : ∀ values n, FieldsStand r fields s.nextSymbol values n →
      good values (s.withSymbols n))
    (hbad : ∀ f ∈ fields, ∀ e n, s.nextSymbol ≤ n → Descriptor.primType? f.descriptor = none →
      Descriptor.staticType f.descriptor = .error e → bad (.value e) (s.withSymbols n)) :
    (createFields r fields).Meets s good bad := by
  induction fields generalizing s good with
  | nil => exact hgood [] s.nextSymbol .nil
  | cons f rest ih =>
    unfold createFields
    rw [meets_bind]
    refine meets_createSymbol (fun v hv => ?_) fun e hnone he =>
      hbad f List.mem_cons_self e s.nextSymbol (Nat.le_refl _) hnone he
    rw [meets_bind]
    refine ih (fun values n hvalues => ?_) fun g hg e n hn => ?_
    · exact hgood _ n (.cons hv hvalues)
    · exact hbad g (List.mem_cons_of_mem _ hg) e n (Nat.le_of_succ_le hn)

theorem meets_createInput {r : RefSymbol} {className : String} {fields : List FieldInfo}
    {good : HeapObject → State → Prop}
    (hgood : ∀ object n, Expansion r className fields s.nextSymbol object n →
      good object (s.withSymbols n))
    (hbad : Descriptor.isArray className = false → ∀ f ∈ fields, ∀ e n, s.nextSymbol ≤ n →
      Descriptor.primType? f.descriptor = none →
        Descriptor.staticType f.descriptor = .error e → bad (.value e) (s.withSymbols n)) :
    (createInput r className fields).Meets s good bad := by
  unfold createInput
  split
  · rename_i harray
    exact hgood _ _ (.array harray)
  · rename_i harray
    have harray' : Descriptor.isArray className = false := Bool.eq_false_iff.2 harray
    rw [meets_bind]
    refine meets_createFields (fun values n hvalues => ?_) (hbad harray')
    exact hgood _ n (.object harray' hvalues)

/-! ## Assumptions -/

theorem meets_assumeClause {c : Clause} {good : Unit → State → Prop}
    (hgood : ∀ p, s.pathCondition.push c = .ok p → good () (s.withPath p))
    (hbad : ∀ r, c.reference? = some r → s.isResolved r = true → bad (.alreadyResolved r.id) s) :
    (assumeClause c).Meets s good bad := by
  unfold assumeClause PathCondition.pushing
  simp only [meets_onPart, meets_bind, meets_read, meets_ofExcept, meets_write]
  refine ⟨hgood, fun e he => ?_⟩
  obtain ⟨r, hr, hresolved, rfl⟩ := PathCondition.push_eq_error_iff.1 he
  exact hbad r hr hresolved

theorem meets_assume {condition : Term} {good : Unit → State → Prop}
    (hgood : condition.type = .boolean → good () (s.withPath
      (s.pathCondition.append [.assume condition] (Clause.decided?_assume condition))))
    (hbad : ∀ e : MemoryError, e.isEngineFault = false → bad e s) :
    (assume condition).Meets s good bad := by
  unfold assume
  split
  · rename_i hboolean
    refine meets_assumeClause (fun p hp => ?_) nofun
    cases hp
    exact hgood hboolean
  · exact hbad _ rfl

theorem meets_ensureUnresolved {r : RefSymbol} {good : Unit → State → Prop}
    (hgood : s.isResolved r = false → good () s)
    (hbad : s.isResolved r = true → bad (.alreadyResolved r.id) s) :
    (ensureUnresolved r).Meets s good bad := by
  unfold ensureUnresolved
  rw [meets_bind, meets_read]
  split
  · rename_i h
    exact hbad h
  · rename_i h
    exact hgood (Bool.eq_false_iff.2 h)

theorem meets_assumeExpands {r : RefSymbol} {className : String} {fields : List FieldInfo}
    {good : Nat → State → Prop}
    (hgood : ∀ object n p, s.isResolved r = false →
      Expansion r className fields s.nextSymbol object n →
      s.pathCondition.push (.expands r s.heap.next className) = .ok p →
      good s.heap.next (((s.withSymbols n).withInput object).withPath p))
    (hresolved : s.isResolved r = true → bad (.alreadyResolved r.id) s)
    (hbad : Descriptor.isArray className = false → ∀ f ∈ fields, ∀ e n, s.nextSymbol ≤ n →
      Descriptor.primType? f.descriptor = none →
        Descriptor.staticType f.descriptor = .error e → bad (.value e) (s.withSymbols n)) :
    (assumeExpands r className fields).Meets s good bad := by
  unfold assumeExpands
  rw [meets_bind]
  refine meets_ensureUnresolved (fun hfree => ?_) hresolved
  rw [meets_bind]
  refine meets_createInput (fun object n hobject => ?_) hbad
  simp only [meets_bind, allocateInput, allocate, meets_read, meets_write, meets_update, meets_pure]
  refine meets_assumeClause (fun p hp => ?_) fun r' hr' htaken => ?_
  · exact hgood object n p hfree hobject hp
  · cases hr'
    change s.isResolved r = true at htaken
    rw [hfree] at htaken
    cases htaken

theorem meets_assumeAliases {r : RefSymbol} {address : Nat} {good : Unit → State → Prop}
    (hgood : ∀ p o, s.isResolved r = false → s.initialHeap.get address = .ok o →
      s.pathCondition.push (.aliases r address) = .ok p → good () (s.withPath p))
    (hresolved : s.isResolved r = true → bad (.alreadyResolved r.id) s)
    (hbad : ∀ e, s.initialHeap.get address = .error e → bad e s) :
    (assumeAliases r address).Meets s good bad := by
  unfold assumeAliases
  rw [meets_bind]
  refine meets_ensureUnresolved (fun hfree => ?_) hresolved
  simp only [meets_bind, meets_read, meets_ofExcept, getInitialObject]
  refine ⟨fun o ho => ?_, hbad⟩
  refine meets_assumeClause (fun p hp => hgood p o hfree ho hp) fun r' hr' htaken => ?_
  cases hr'
  rw [hfree] at htaken
  cases htaken

theorem meets_assumeNull {r : RefSymbol} {good : Unit → State → Prop}
    (hgood : ∀ p, s.isResolved r = false → s.pathCondition.push (.isNull r) = .ok p →
      good () (s.withPath p))
    (hresolved : s.isResolved r = true → bad (.alreadyResolved r.id) s) :
    (assumeNull r).Meets s good bad := by
  cases h : s.isResolved r with
  | true =>
    refine meets_assumeClause (fun p hp => ?_) fun r' hr' _ => ?_
    · have hfree : s.isResolved r = false := PathCondition.isResolved_eq_false_of_push hp rfl
      rw [h] at hfree
      cases hfree
    · cases hr'
      exact hresolved h
  | false =>
    refine meets_assumeClause (fun p hp => hgood p h hp) fun r' hr' htaken => ?_
    cases hr'
    rw [h] at htaken
    cases htaken

end State

end SymbolicMachine
