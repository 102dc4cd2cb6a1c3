import SymbolicMachine.Proofs.Explore.Rules
/-!
# What an instruction may touch

On the way to its successors an instruction takes operands off, makes symbols and objects, and
assumes things.  `Progress` says that it did nothing else to a state.  Whatever it does after that
is one of two things: it pushes its result and moves on, which is `Executed`, or it stops with an
exception, which is `Failed`.  At most one object changes, and only by the record of the member
that was read out of an input array.
-/
namespace SymbolicMachine

open SymbolicMachine.Action

variable {ω τ ε α β : Type}

/-! ## Objects -/

namespace Heap

/-- Every object is still there as it was. -/
def Kept (h k : Heap) : Prop := ∀ a o, h.get a = .ok o → k.get a = .ok o

/-- Every object is still there as it was, except that a value may have been recorded in an input
array, at an address and an index at which that is allowed. -/
def KeptBut (allowed : Nat → Term → Prop) (v : Value) (h k : Heap) : Prop :=
  ∀ a o, h.get a = .ok o → k.get a = .ok o ∨
    ∃ array index, allowed a index ∧ o = .array array ∧ array.origin.isSome = true ∧
      k.get a = .ok (.array (array.set index v))

theorem Kept.refl (h : Heap) : h.Kept h := fun _ _ ho => ho

theorem Kept.trans {h k l : Heap} (hk : h.Kept k) (kl : k.Kept l) : h.Kept l :=
  fun a o ho => kl a o (hk a o ho)

theorem kept_allocate (h : Heap) (o : HeapObject) : h.Kept (h.allocate o).2 :=
  fun _ _ hp => get_allocate_of_get hp o

variable {allowed : Nat → Term → Prop} {v : Value}

theorem Kept.keptBut {h k : Heap} (hk : h.Kept k) : h.KeptBut allowed v k :=
  fun a o ho => .inl (hk a o ho)

theorem KeptBut.trans {h k l : Heap} (hk : h.KeptBut allowed v k) (kl : k.Kept l) :
    h.KeptBut allowed v l := by
  intro a o ho
  rcases hk a o ho with hsame | ⟨array, index, hallowed, heq, horigin, hset⟩
  · exact .inl (kl a o hsame)
  · exact .inr ⟨array, index, hallowed, heq, horigin, kl a _ hset⟩

/-- Recording a value in an input array changes that array only. -/
theorem keptBut_arraySet {h k l : Heap} {address : Nat} {array : ArrayObject} {index : Term}
    (hallowed : allowed address index) (harray : h.get address = .ok (.array array))
    (horigin : array.origin.isSome = true) (hk : h.Kept k)
    (hset : k.arraySet address index v = .ok l) : h.KeptBut allowed v l := by
  obtain ⟨found, hfound, heq⟩ := bind_eq_ok.1 hset
  cases heq
  cases (hk _ _ harray).symm.trans (getArray_eq_ok.1 hfound)
  intro a o ho
  by_cases ha : a = address
  · subst ha
    cases harray.symm.trans ho
    exact .inr ⟨array, index, hallowed, rfl, horigin, k.get_insertAt_self _ _⟩
  · left
    rw [k.get_insertAt_of_ne ha]
    exact hk a o ho

end Heap

/-! ## Frames and places -/

/-- The frames without the topmost operands of the current one. -/
def dropOperands (count : Nat) : List Frame → List Frame
  | [] => []
  | f :: rest =>
    { f with operands := { f.operands with operands := f.operands.operands.drop count } } :: rest

theorem dropOperands_zero (frames : List Frame) : dropOperands 0 frames = frames := by
  cases frames <;> rfl

theorem dropOperands_add (m n : Nat) (frames : List Frame) :
    dropOperands n (dropOperands m frames) = dropOperands (m + n) frames := by
  cases frames with
  | nil => rfl
  | cons f rest => simp only [dropOperands, List.drop_drop]

/-- The frames are the same but for the operands of the current one. -/
def Paused (frames frames' : List Frame) : Prop :=
  frames' = frames ∨
    ∃ f rest operands, frames = f :: rest ∧ frames' = { f with operands := operands } :: rest

theorem paused_dropOperands (count : Nat) (frames : List Frame) :
    Paused frames (dropOperands count frames) := by
  cases frames with
  | nil => exact .inl rfl
  | cons f rest => exact .inr ⟨f, rest, _, rfl, rfl⟩

/-- A frame after an instruction took operands off, pushed values, topmost first, and moved on. -/
def Frame.executed (f : Frame) (length count : Nat) (pushed : List Value) : Frame :=
  { f with
    pc := f.pc + length
    operands := { f.operands with operands := pushed ++ f.operands.operands.drop count } }

/-- The branches of a state and its number on the last one. -/
def State.place (s : State) : List Nat × Nat := (s.branches, s.sequence)

def State.withPlace (s : State) (place : List Nat × Nat) : State :=
  { s with branches := place.1, sequence := place.2 }

/-- A value as it stands on an operand stack. -/
def Value.IsOperand : Value → Prop
  | .primitive t => t.type.isStackNative = true
  | .reference _ => True

theorem Term.type_convert {t u : Term} {target : PrimType} (h : t.convert target = .ok u) :
    u.type = target := by
  unfold convert at h
  split at h
  · rename_i hsame
    cases h
    exact hsame
  · split at h
    · obtain ⟨d, hd, rfl⟩ := map_eq_ok.1 h
      exact Constant.type_convert hd
    · split at h
      · cases h
        rfl
      · split at h
        · cases h
          rfl
        · cases h

theorem Value.isOperand_widen {v w : Value} (h : v.widen = .ok w) : w.IsOperand := by
  cases v with
  | reference r =>
    cases h
    trivial
  | primitive t =>
    obtain ⟨u, hu, rfl⟩ := map_eq_ok.1 h
    change u.type.isStackNative = true
    rw [Term.type_convert hu]
    exact t.type.isStackNative_stackType

/-! ## Progress -/

/-- A number of operands was taken off, and symbols, objects and assumptions may have been made. -/
structure State.Progress (count : Nat) (s t : State) : Prop where
  frames : t.frames = dropOperands count s.frames
  enough : ∀ f rest, s.frames = f :: rest → count ≤ f.operands.operands.length
  objects : s.heap.Kept t.heap
  next : s.heap.next ≤ t.heap.next
  place : t.place = s.place
  ending : t.ending = s.ending

namespace State

variable {s t u : State} {m n : Nat}

theorem Progress.of_eq (hframes : t.frames = s.frames) (hobjects : s.heap.Kept t.heap)
    (hnext : s.heap.next ≤ t.heap.next) (hplace : t.place = s.place)
    (hending : t.ending = s.ending) : Progress 0 s t :=
  ⟨by rw [dropOperands_zero, hframes], fun _ _ _ => Nat.zero_le _, hobjects, hnext, hplace,
    hending⟩

theorem Progress.refl (s : State) : Progress 0 s s := .of_eq rfl (.refl _) (Nat.le_refl _) rfl rfl

theorem Progress.trans (h : Progress m s t) (h' : Progress n t u) : Progress (m + n) s u where
  frames := by rw [h'.frames, h.frames, dropOperands_add]
  enough f rest hf := by
    have hm := h.enough f rest hf
    have hn := h'.enough _ rest (h.frames.trans (congrArg (dropOperands m) hf))
    rw [List.length_drop] at hn
    omega
  objects := h.objects.trans h'.objects
  next := Nat.le_trans h.next h'.next
  place := h'.place.trans h.place
  ending := h'.ending.trans h.ending

theorem Progress.withPlace (h : Progress n s t) (place : List Nat × Nat) :
    Progress n (s.withPlace place) (t.withPlace place) :=
  ⟨h.frames, h.enough, h.objects, h.next, rfl, h.ending⟩

theorem progress_withSymbols (s : State) (n : Nat) : Progress 0 s (s.withSymbols n) :=
  .of_eq rfl (.refl _) (Nat.le_refl _) rfl rfl

theorem progress_withPath (s : State) (p : PathCondition) : Progress 0 s (s.withPath p) :=
  .of_eq rfl (.refl _) (Nat.le_refl _) rfl rfl

theorem progress_withHeap_allocate (s : State) (o : HeapObject) :
    Progress 0 s (s.withHeap (s.heap.allocate o).2) :=
  .of_eq rfl (Heap.kept_allocate _ _)
    (by rw [withHeap, Heap.next_allocate]; exact Nat.le_succ _) rfl rfl

theorem progress_withInput (s : State) (o : HeapObject) : Progress 0 s (s.withInput o) :=
  .of_eq rfl (Heap.kept_allocate _ _)
    (by rw [withInput, Heap.next_allocate]; exact Nat.le_succ _) rfl rfl

/-- An update makes progress without taking operands off, also where it fails. -/
def Quiet (m : Update α) : Prop := ∀ s, m.Meets s (fun _ => Progress 0 s) fun _ => Progress 0 s

theorem quiet_assumeClause (c : Clause) : Quiet (assumeClause c) := fun s =>
  meets_assumeClause (fun p _ => s.progress_withPath p) fun _ _ _ => .refl s

theorem quiet_assume (condition : Term) : Quiet (assume condition) := fun s =>
  meets_assume (fun _ => s.progress_withPath _) fun _ _ => .refl s

theorem quiet_assumeAliases (r : RefSymbol) (address : Nat) : Quiet (assumeAliases r address) :=
  fun s => meets_assumeAliases (fun p _ _ _ _ => s.progress_withPath p) (fun _ => .refl s)
    fun _ _ => .refl s

theorem quiet_assumeExpands (r : RefSymbol) (className : String) (fields : List FieldInfo) :
    Quiet (assumeExpands r className fields) := fun s =>
  meets_assumeExpands
    (fun object n p _ _ _ => ((s.progress_withSymbols n).trans
      ((s.withSymbols n).progress_withInput object)).trans (progress_withPath _ p))
    (fun _ => .refl s) fun _ _ _ _ n _ _ _ => s.progress_withSymbols n

theorem quiet_createInstance (className : String) (fields : List FieldInfo) :
    Quiet (createInstance className fields) := by
  intro s
  unfold createInstance
  rw [meets_bind, meets_ofExcept_mapError]
  exact ⟨fun _ _ => s.progress_withHeap_allocate _, fun _ _ => .refl s⟩

theorem quiet_createArray (className : String) (length : Term) :
    Quiet (createArray className length) := fun s => s.progress_withHeap_allocate _

theorem progress_popped {f : Frame} {rest : List Frame} {v : Value} {below : List Value}
    (hframes : s.frames = f :: rest) (hoperands : f.operands.operands = v :: below) :
    Progress 1 s (Engine.popped s f below rest) where
  frames := by
    rw [hframes, dropOperands, hoperands]
    rfl
  enough g rest' hg := by
    cases hframes.symm.trans hg
    rw [hoperands, List.length_cons]
    exact Nat.le_add_left 1 _
  objects := .refl _
  next := Nat.le_refl _
  place := rfl
  ending := rfl

/-- Taking operands off leaves the rest of the state alone. -/
theorem meets_popDownward (count : Nat) (s : State) :
    (popDownward count).Meets s (fun values t => Progress count s t ∧ values.length = count)
      fun _ _ => True := by
  induction count generalizing s with
  | zero => exact ⟨.refl s, rfl⟩
  | succ count ih =>
    unfold popDownward
    rw [meets_bind]
    refine meets_popOperand (fun f rest v below hf hv => ?_) fun _ _ => trivial
    rw [meets_bind]
    refine (ih _).mono (fun values t ⟨ht, hlength⟩ => ?_) fun _ _ _ => trivial
    refine ⟨?_, congrArg (· + 1) hlength⟩
    have hall := (progress_popped hf hv).trans ht
    rwa [Nat.add_comm] at hall

theorem meets_popOperands (count : Nat) (s : State) :
    (popOperands count).Meets s (fun _ t => Progress count s t) fun _ _ => True := by
  unfold popOperands
  rw [meets_bind]
  exact (meets_popDownward count s).mono (fun _ _ h => h.1) fun _ _ _ => trivial

end State

/-! ## Instructions -/

namespace Instruction

/-- The number of operands that an instruction takes off, if its method descriptor can be read. -/
def consumes : Instruction → Option Nat
  | .loadLocal _ _ => some 0
  | .getField _ => some 1
  | .arrayLoad => some 2
  | .newInstance _ => some 0
  | .newArray _ => some 1
  | .invokeNative method isStatic _ =>
    (Descriptor.parameterTypes method.descriptor).toOption.map fun parameters =>
      parameters.length + if isStatic then 0 else 1
  | .invokeIsExplored => some 0

/-- The number of values that an instruction pushes: none for a native method without a result. -/
def results : Instruction → Nat
  | .invokeNative method _ _ =>
    match Descriptor.returnType method.descriptor with
    | .ok result => if Descriptor.isVoid result then 0 else 1
    | .error _ => 1
  | _ => 1

/-- The address and the index at which an instruction reads a member of an array. -/
def Loads (i : Instruction) (s : State) (address : Nat) (index : Term) : Prop :=
  i = .arrayLoad ∧ ∃ f rest r below, s.frames = f :: rest ∧
    f.operands.operands = .primitive index :: .reference r :: below ∧
      s.deref r = .ok (some address)

/-- The instruction was executed: it took its operands off, pushed its result and moved on inside
the code.  What `arrayLoad` pushes is the stack form of the value that it read. -/
structure Executed (i : Instruction) (s : State) (read : Value) (t : State) : Prop where
  ending : t.ending = s.ending
  frames : ∃ f rest count pushed, s.frames = f :: rest ∧
    i.consumes = some count ∧ count ≤ f.operands.operands.length ∧
    pushed.length = i.results ∧ (∀ v ∈ pushed, v.IsOperand) ∧
    (i = .arrayLoad → ∃ w, read.widen = .ok w ∧ pushed = [w]) ∧
    f.pc + i.length < f.code.length ∧
      t.frames = f.executed i.length count pushed :: rest

end Instruction

/-- The path ended with a new exception, while the program counter was where it is. -/
structure State.Failed (s t : State) : Prop where
  frames : Paused s.frames t.frames
  ending : ∃ className ∈ thrownClasses, ∃ address, s.heap.next ≤ address ∧
    t.heap.get address = .ok (.object (.create className none [])) ∧
      t.ending = some (.threw (.concrete address))

namespace Instruction

/-- What an instruction does to a state before its successors are numbered. -/
structure Effect (i : Instruction) (s t : State) : Prop where
  place : t.place = s.place
  change : ∃ read, s.heap.KeptBut (i.Loads s) read t.heap ∧ (i.Executed s read t ∨ s.Failed t)

/-- What an instruction has done to a state wherever it stops half-way. -/
structure Partway (i : Instruction) (s t : State) : Prop where
  place : t.place = s.place
  frames : Paused s.frames t.frames
  objects : ∃ read, s.heap.KeptBut (i.Loads s) read t.heap
  next : s.heap.next ≤ t.heap.next

/-- An instruction took its operands off and may have recorded what it read. -/
structure Ready (i : Instruction) (s : State) (read : Value) (t : State) : Prop where
  frames : ∃ count, i.consumes = some count ∧ t.frames = dropOperands count s.frames ∧
    ∀ f rest, s.frames = f :: rest → count ≤ f.operands.operands.length
  objects : s.heap.KeptBut (i.Loads s) read t.heap
  next : s.heap.next ≤ t.heap.next
  place : t.place = s.place
  ending : t.ending = s.ending

section Effects

variable {i : Instruction} {s t : State} {n : Nat} {read : Value}

theorem Partway.throw (h : i.Partway s t) {className : String}
    (hclass : className ∈ thrownClasses) :
    i.Effect s (t.throwNew className).2 where
  place := h.place
  change := by
    obtain ⟨read, hobjects⟩ := h.objects
    refine ⟨read, hobjects.trans (Heap.kept_allocate _ _), .inr ⟨h.frames, className, hclass, ?_⟩⟩
    exact ⟨t.heap.next, h.next, Heap.get_allocate_self _ _, rfl⟩

theorem Partway.settle (h : i.Partway s t) {fault : Fault} {u : State}
    (hu : fault.settle t = .ok u) : i.Effect s u := by
  obtain ⟨className, hclass, rfl⟩ := Fault.exists_throwNew_of_settle hu
  exact h.throw hclass

theorem Partway.of_progress (h : State.Progress n s t) : i.Partway s t where
  place := h.place
  frames := h.frames ▸ paused_dropOperands n s.frames
  objects := ⟨.reference .null, h.objects.keptBut⟩
  next := h.next

theorem Ready.of_progress (h : State.Progress n s t) (hn : i.consumes = some n) :
    i.Ready s read t :=
  ⟨⟨n, hn, h.frames, h.enough⟩, h.objects.keptBut, h.next, h.place, h.ending⟩

theorem Ready.partway (h : i.Ready s read t) : i.Partway s t where
  place := h.place
  frames := by
    obtain ⟨count, -, hframes, -⟩ := h.frames
    rw [hframes]
    exact paused_dropOperands count s.frames
  objects := ⟨read, h.objects⟩
  next := h.next

/-- The frame of an instruction that took its operands off. -/
theorem Ready.exists_frame (h : i.Ready s read t) {g : Frame} {rest : List Frame}
    (hg : t.frames = g :: rest) : ∃ f count, s.frames = f :: rest ∧ i.consumes = some count ∧
      count ≤ f.operands.operands.length ∧
        g = { f with operands :=
          { f.operands with operands := f.operands.operands.drop count } } := by
  obtain ⟨count, hcount, hframes, henough⟩ := h.frames
  rw [hg] at hframes
  cases hs : s.frames with
  | nil =>
    rw [hs] at hframes
    cases hframes
  | cons f rest' =>
    rw [hs] at hframes
    cases hframes
    exact ⟨f, count, rfl, hcount, henough f rest hs, rfl⟩

/-- Moving on without a result finishes an instruction. -/
theorem Ready.meets_incPc (h : i.Ready s read t) (hresults : i.results = 0)
    (hload : i ≠ .arrayLoad) :
    (State.incPc i.length).Meets t (fun _ => i.Effect s) fun _ => i.Partway s := by
  refine State.meets_incPc (fun g rest hg hpc => ?_) fun _ _ => h.partway
  obtain ⟨f, count, hf, hcount, henough, rfl⟩ := h.exists_frame hg
  refine ⟨h.place, read, h.objects, .inl ⟨h.ending, f, rest, count, [], hf, hcount, henough,
    hresults.symm, nofun, fun hi => absurd hi hload, hpc, rfl⟩⟩

/-- Pushing the result and moving on finishes an instruction. -/
theorem Ready.meets_push (h : i.Ready s read t) (hresults : i.results = 1) {w : Value}
    (hw : w.IsOperand) (hload : i = .arrayLoad → read.widen = .ok w) :
    (State.pushOperand w).Meets t
      (fun _ u => (State.incPc i.length).Meets u (fun _ => i.Effect s) fun _ => i.Partway s)
      fun _ => i.Partway s := by
  refine State.meets_pushOperand (fun g rest hg _ => ?_) fun _ _ => h.partway
  obtain ⟨f, count, hf, hcount, henough, rfl⟩ := h.exists_frame hg
  refine State.meets_incPc (fun g' rest' hg' hpc => ?_) fun _ _ => ?_
  · cases hg'
    refine ⟨h.place, read, h.objects, .inl ⟨h.ending, f, rest, count, [w], hf, hcount, henough,
      hresults.symm, fun v hv => ?_, fun hi => ⟨w, hload hi, rfl⟩, hpc, rfl⟩⟩
    cases List.mem_singleton.1 hv
    exact hw
  · exact ⟨h.place, .inr ⟨f, rest, _, hf, rfl⟩, ⟨read, h.objects⟩, h.next⟩

end Effects

end Instruction

end SymbolicMachine
