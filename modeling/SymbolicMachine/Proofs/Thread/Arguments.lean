import SymbolicMachine.Proofs.Explore.Rules
import SymbolicMachine.Proofs.Thread.Locals
import SymbolicMachine.Proofs.Types.Parameters
/-!
# The arguments of a method

The exploration of a method starts in a state with one frame, in whose local variables the
arguments stand one behind the other, the receiver first.  The slot of an argument is counted
twice, once for its name and once for its place, and both counts are the widths of the arguments
before it.  The intervals of the arguments have no slot in common, so that all of them are there in
the end.
-/
namespace SymbolicMachine

open SymbolicMachine.Action

variable {ω τ : Type} {d : String} {ds : List String} {origin : Origin} {id slot : Nat}
  {v w : Value} {vs : List Value} {table : List LocalVariable} {name : String}

/-! ## Widths -/

namespace Descriptor

/-- The number of slots that a value of the described type fills. -/
def width (d : String) : Nat :=
  match primType? d with
  | some t => t.slots
  | none => 1

def widths : List String → Nat
  | [] => 0
  | d :: ds => width d + widths ds

end Descriptor

theorem Stands.slots_eq (h : Stands d origin id v) : v.slots = Descriptor.width d := by
  unfold Descriptor.width
  cases h with
  | primitive htype =>
    rw [htype]
    rfl
  | reference hnone _ =>
    rw [hnone]
    rfl

theorem Stands.unique (h : Stands d origin id v) (h' : Stands d origin id w) : v = w := by
  cases h with
  | primitive htype =>
    cases h' with
    | primitive htype' =>
      cases htype.symm.trans htype'
      rfl
    | reference hnone _ => cases htype.symm.trans hnone
  | reference hnone hclass =>
    cases h' with
    | primitive htype => cases hnone.symm.trans htype
    | reference _ hclass' =>
      cases hclass.symm.trans hclass'
      rfl

theorem exists_stands (h : Descriptor.Denotes d) (origin : Origin) (id : Nat) :
    ∃ v, Stands d origin id v := by
  obtain ⟨v, -, hv⟩ := Descriptor.exists_createSymbol h (State.root.withSymbols id) origin
  exact ⟨v, hv⟩

/-! ## Values one behind the other -/

theorem argumentWrites_cons (slot : Nat) (v : Value) (vs : List Value) :
    argumentWrites slot (v :: vs) = ⟨slot, 0, v⟩ :: argumentWrites (slot + v.slots) vs := rfl

theorem slot_le_of_mem_argumentWrites {u : LocalWrite} (h : u ∈ argumentWrites slot vs) :
    slot ≤ u.slot := by
  induction vs generalizing slot with
  | nil => cases h
  | cons v vs ih =>
    rcases List.mem_cons.1 h with rfl | h
    · exact Nat.le_refl slot
    · exact Nat.le_trans (Nat.le_add_right ..) (ih h)

/-- No argument takes another one away. -/
theorem argumentWrites_apart (slot : Nat) (vs : List Value) :
    (argumentWrites slot vs).Pairwise fun u w => ¬w.Meets u := by
  induction vs generalizing slot with
  | nil => exact .nil
  | cons v vs ih =>
    refine List.pairwise_cons.2 ⟨fun w hw hmeets => ?_, ih _⟩
    have hbehind := slot_le_of_mem_argumentWrites hw
    have hbefore := (LocalWrite.meets_iff.1 hmeets).1
    exact absurd hbehind (Nat.not_le.2 hbefore)

theorem LocalWrite.remains_of_apart {writes : List LocalWrite} {w : LocalWrite}
    (h : writes.Pairwise fun u w => ¬w.Meets u) (hw : w ∈ writes) : Remains writes w := by
  obtain ⟨before, after, rfl⟩ := List.append_of_mem hw
  have hafter := (List.pairwise_cons.1 (List.pairwise_append.1 h).2.1).1
  exact ⟨before, after, rfl, fun u hu hslot => hafter u hu (meets_of_slot_eq hslot), hafter⟩

/-- The first slot behind values that stand one behind the other from a slot on. -/
def argumentsStop (slot : Nat) : List Value → Nat
  | [] => slot
  | v :: rest => argumentsStop (slot + v.slots) rest

theorem le_argumentsStop (slot : Nat) (vs : List Value) : slot ≤ argumentsStop slot vs := by
  induction vs generalizing slot with
  | nil => exact Nat.le_refl slot
  | cons v vs ih => exact Nat.le_trans (Nat.le_add_right ..) (ih _)

/-- The intervals of the arguments are inside an area just if the last one ends there. -/
theorem argumentWrites_stop_le_iff {size : Nat} (hslot : slot ≤ size) :
    (∀ w ∈ argumentWrites slot vs, w.stop ≤ size) ↔ argumentsStop slot vs ≤ size := by
  induction vs generalizing slot with
  | nil => simpa [argumentWrites, argumentsStop] using hslot
  | cons v vs ih =>
    rw [argumentWrites_cons, List.forall_mem_cons]
    constructor
    · rintro ⟨hhead, htail⟩
      exact (ih hhead).1 htail
    · intro h
      have hhead : slot + v.slots ≤ size := Nat.le_trans (le_argumentsStop _ vs) h
      exact ⟨hhead, (ih hhead).2 h⟩

theorem pc_of_mem_argumentWrites {u : LocalWrite} (h : u ∈ argumentWrites slot vs) : u.pc = 0 := by
  induction vs generalizing slot with
  | nil => cases h
  | cons v vs ih =>
    rcases List.mem_cons.1 h with rfl | h
    · rfl
    · exact ih h

/-- All arguments can be written just if there is room for them and the table lets each of them be
written in its place. -/
theorem argumentWrites_allowed_iff {size : Nat} :
    (∀ w ∈ argumentWrites 0 vs, w.Allowed size table) ↔
      argumentsStop 0 vs ≤ size ∧
        ∀ place v, ⟨place, 0, v⟩ ∈ argumentWrites 0 vs → (LocalWrite.mk place 0 v).Typed table := by
  rw [← argumentWrites_stop_le_iff (Nat.zero_le size)]
  constructor
  · exact fun h => ⟨fun w hw => (h w hw).1, fun place v hmem => (h _ hmem).2⟩
  · rintro ⟨hstop, htyped⟩ ⟨place, pc, v⟩ hw
    cases pc_of_mem_argumentWrites hw
    exact ⟨hstop _ hw, htyped place v hw⟩

/-- When the arguments are written, they are what there is in the area. -/
theorem Locals.holds_arguments {size : Nat} {l : Locals}
    (h : (Locals.create size table).setArgs vs = (.ok (), l)) :
    (∀ place v, l.get place = .ok v ↔ ⟨place, 0, v⟩ ∈ argumentWrites 0 vs) ∧
      ∀ place < size, (¬∃ v, l.get place = .ok v) →
        l.get place = .error (.invalidSlot place .notWritten) := by
  obtain ⟨hrecords, hall⟩ := records_setArgs size table vs
  rw [h] at hrecords hall
  have hwrites : allowedWrites size table (argumentWrites 0 vs) = argumentWrites 0 vs :=
    List.takeWhile_eq_self_iff.2 fun w hw => decide_eq_true (hall.1 rfl w hw)
  rw [hwrites] at hrecords
  refine ⟨fun place v => ?_, fun place => hrecords.notWritten⟩
  rw [hrecords.held]
  constructor
  · rintro ⟨⟨place, pc, v⟩, hw, rfl, rfl⟩
    cases pc_of_mem_argumentWrites hw.mem
    exact hw.mem
  · intro hmem
    exact ⟨_, LocalWrite.remains_of_apart (argumentWrites_apart 0 vs) hmem, rfl, rfl⟩

/-! ## Names -/

/-- The name of the input in a slot: that of the first row with this very slot at the start of the
code, or one made from the number of the slot if there is no such row. -/
inductive NamesInput (table : List LocalVariable) (slot : Nat) : String → Prop
  | row {before behind : List LocalVariable} {row : LocalVariable}
      (htable : table = before ++ row :: behind) (hrow : row.slot = slot ∧ row.startPc = 0)
      (hbefore : ∀ other ∈ before, ¬(other.slot = slot ∧ other.startPc = 0)) :
      NamesInput table slot row.name
  | number (htable : ∀ row ∈ table, ¬(row.slot = slot ∧ row.startPc = 0)) :
      NamesInput table slot s!"arg{slot}"

theorem namesInput_inputName (table : List LocalVariable) (slot : Nat) :
    NamesInput table slot (Engine.inputName table slot) := by
  unfold Engine.inputName
  split
  · rename_i row hfind
    obtain ⟨hrow, before, behind, htable, hbefore⟩ := List.find?_eq_some_iff_append.1 hfind
    refine .row htable (by simpa using hrow) fun other hother hsame => ?_
    simpa [hsame.1, hsame.2] using hbefore other hother
  · rename_i hfind
    refine .number fun row hrow => ?_
    simpa using List.find?_eq_none.1 hfind row hrow

theorem NamesInput.eq_inputName (h : NamesInput table slot name) :
    name = Engine.inputName table slot := by
  unfold Engine.inputName
  cases h with
  | @row before behind row htable hrow hbefore =>
    have hfind : table.find? (fun row => row.slot == slot && row.startPc == 0) = some row := by
      refine List.find?_eq_some_iff_append.2 ⟨by simpa using hrow, before, behind, htable, ?_⟩
      intro other hother
      simpa using not_and_or.1 (hbefore other hother)
    rw [hfind]
  | number htable =>
    have hfind : table.find? (fun row => row.slot == slot && row.startPc == 0) = none := by
      refine List.find?_eq_none.2 fun row hrow => ?_
      simpa using htable row hrow
    rw [hfind]

/-! ## The parameters -/

/-- Values for parameters from a slot on, symbols numbered from a first number on. -/
inductive ParametersStand (table : List LocalVariable) :
    Nat → Nat → List String → List Value → Prop
  | nil (slot id : Nat) : ParametersStand table slot id [] []
  | cons {slot id : Nat} {d : String} {ds : List String} {v : Value} {vs : List Value}
      (hv : Stands d (.root (Engine.inputName table slot)) id v)
      (hvs : ParametersStand table (slot + Descriptor.width d) (id + 1) ds vs) :
      ParametersStand table slot id (d :: ds) (v :: vs)

/-- Each parameter has a symbol, in a place behind the parameters before it. -/
theorem ParametersStand.mem_iff (h : ParametersStand table slot id ds vs) {place : Nat} :
    ⟨place, 0, v⟩ ∈ argumentWrites slot vs ↔
      ∃ i d, ds[i]? = some d ∧ place = slot + Descriptor.widths (ds.take i) ∧
        Stands d (.root (Engine.inputName table place)) (id + i) v := by
  induction h with
  | nil slot id => simp [argumentWrites]
  | @cons slot id d ds w ws hw hws ih =>
    rw [argumentWrites_cons, List.mem_cons, hw.slots_eq, ih]
    constructor
    · rintro (heq | ⟨i, d', hd, rfl, hv⟩)
      · cases heq
        exact ⟨0, d, rfl, rfl, hw⟩
      · refine ⟨i + 1, d', hd, ?_, ?_⟩
        · simp [Descriptor.widths, Nat.add_assoc]
        · rwa [Nat.add_right_comm id] at hv
    · rintro ⟨i, d', hd, rfl, hv⟩
      cases i with
      | zero =>
        cases hd
        exact .inl (congrArg (LocalWrite.mk slot 0) (hv.unique hw))
      | succ i =>
        refine .inr ⟨i, d', hd, ?_, ?_⟩
        · simp [Descriptor.widths, Nat.add_assoc]
        · rwa [Nat.add_right_comm id]

theorem ParametersStand.stop_eq (h : ParametersStand table slot id ds vs) :
    argumentsStop slot vs = slot + Descriptor.widths ds := by
  induction h with
  | nil => rfl
  | cons hv _ ih => rw [argumentsStop, hv.slots_eq, ih, Descriptor.widths, Nat.add_assoc]

theorem exists_createArguments (h : ∀ d ∈ ds, Descriptor.IsField d) (table : List LocalVariable)
    (slot : Nat) (s : State) :
    ∃ vs, (Engine.createArguments table slot ds).run s =
        (.ok vs, s.withSymbols (s.nextSymbol + ds.length)) ∧
      ParametersStand table slot s.nextSymbol ds vs := by
  induction ds generalizing slot s with
  | nil => exact ⟨[], rfl, .nil _ _⟩
  | cons d ds ih =>
    obtain ⟨hhead, htail⟩ := List.forall_mem_cons.1 h
    obtain ⟨v, hrun, hv⟩ := Descriptor.exists_createSymbol hhead.denotes s
      (.root (Engine.inputName table slot))
    obtain ⟨vs, hrest, hvs⟩ := ih htail (slot + v.slots) (s.withSymbols (s.nextSymbol + 1))
    refine ⟨v :: vs, ?_, .cons hv (hv.slots_eq ▸ hvs)⟩
    unfold Engine.createArguments
    rw [run_bind_ok hrun, run_bind_ok hrest, List.length_cons, Nat.add_comm ds.length,
      ← Nat.add_assoc]
    rfl

/-! ## The receiver -/

namespace Engine

section Entry

variable {e : Engine ω τ} {className result : String} {isStatic : Bool} {first : Nat} {s : State}

/-- The symbol of the receiver, which is the first one that is made. -/
def receiver (className name : String) : RefSymbol := ⟨0, className, .root name⟩

/-- What a state says about the receiver, when the symbols of the parameters are numbered from a
first number on: nothing for a method without one, and otherwise that it denotes a new object. -/
inductive ReceiverIn (e : Engine ω τ) (className : String) (table : List LocalVariable)
    (s : State) : Bool → Nat → Prop
  | none (hpath : s.pathCondition.clauses = []) : ReceiverIn e className table s true 0
  | expands {name : String} {address first : Nat} {object : HeapObject}
      (hname : NamesInput table 0 name)
      (hpath : s.pathCondition.clauses = [.expands (receiver className name) address className])
      (hobject : Expansion (receiver className name) className
        ((e.classes.instanceFields className).toOption.getD []) 1 object first)
      (hheap : s.heap.get address = .ok object)
      (hinitial : s.initialHeap.get address = .ok object) :
      ReceiverIn e className table s false first

/-- The fields of the receiver describe locations. -/
def FormedFields (e : Engine ω τ) (className : String) : Prop :=
  ∀ fields, e.classes.instanceFields className = .ok fields →
    ∀ f ∈ fields, Descriptor.Denotes f.descriptor

theorem FormedFields.denotes (h : e.FormedFields className) :
    ∀ f ∈ (e.classes.instanceFields className).toOption.getD [],
      Descriptor.Denotes f.descriptor := by
  cases hfields : e.classes.instanceFields className with
  | ok fields => exact h fields hfields
  | error error => exact nofun

theorem createReceiver_meets (hfields : e.FormedFields className)
    (hname : NamesInput table 0 name) :
    (e.createReceiver className name).Meets .root
      (fun v t => v = .reference (.symbolic (receiver className name)) ∧ t.frames = [] ∧
        ReceiverIn e className table t false t.nextSymbol)
      fun _ _ => False := by
  unfold createReceiver
  rw [meets_bind]
  change Meets _ (State.root.withSymbols 1) _ _
  rw [meets_bind]
  refine State.meets_assumeExpands (fun object n p _ hobject hp => ?_) nofun
    fun _ f hf error n _ hprim herror => ?_
  · exact ⟨rfl, rfl, .expands hname (PathCondition.clauses_of_push hp) hobject
      (Heap.get_allocate_self _ object) (Heap.get_insertAt_self _ _ object)⟩
  · obtain ⟨c, hc⟩ := Descriptor.exists_staticType (hfields.denotes f hf) hprim
    exact nomatch herror.symm.trans hc

/-! ## The root state -/

/-- The slot of a parameter: the widths of the arguments before it. -/
def parameterSlot (isStatic : Bool) (ds : List String) (i : Nat) : Nat :=
  (if isStatic then 0 else 1) + Descriptor.widths (ds.take i)

/-- An argument and its slot.  The parameters are symbols of their declared types, numbered from a
first number on. -/
inductive IsArgument (className : String) (isStatic : Bool) (ds : List String)
    (table : List LocalVariable) (first : Nat) : Nat → Value → Prop
  | receiver {name : String} (hstatic : isStatic = false) (hname : NamesInput table 0 name) :
      IsArgument className isStatic ds table first 0
        (.reference (.symbolic (receiver className name)))
  | parameter {i : Nat} {d name : String} {v : Value} (hd : ds[i]? = some d)
      (hname : NamesInput table (parameterSlot isStatic ds i) name)
      (hv : Stands d (.root name) (first + i) v) :
      IsArgument className isStatic ds table first (parameterSlot isStatic ds i) v

theorem isArgument_iff {place : Nat} :
    IsArgument className isStatic ds table first place v ↔
      (isStatic = false ∧ place = 0 ∧
        v = .reference (.symbolic (receiver className (inputName table 0)))) ∨
      ∃ i d, ds[i]? = some d ∧ place = parameterSlot isStatic ds i ∧
        Stands d (.root (inputName table place)) (first + i) v := by
  constructor
  · rintro (⟨hstatic, hname⟩ | ⟨hd, hname, hv⟩)
    · exact .inl ⟨hstatic, rfl, by rw [hname.eq_inputName]⟩
    · rw [hname.eq_inputName] at hv
      exact .inr ⟨_, _, hd, rfl, hv⟩
  · rintro (⟨hstatic, rfl, rfl⟩ | ⟨i, d, hd, rfl, hv⟩)
    · exact .receiver hstatic (namesInput_inputName table 0)
    · exact .parameter hd (namesInput_inputName table _) hv

theorem exists_createInputs (hds : ∀ d ∈ ds, Descriptor.IsField d)
    (hfields : isStatic = false → e.FormedFields className) (name result : String)
    (table : List LocalVariable) :
    ∃ args t first,
      (e.createInputs ⟨className, name, "(" ++ String.join ds ++ ")" ++ result⟩ isStatic table).run
          .root = (.ok args, t) ∧
        t.frames = [] ∧ t.nextSymbol = first + ds.length ∧
        ReceiverIn e className table t isStatic first ∧
        argumentsStop 0 args = parameterSlot isStatic ds ds.length ∧
        ∀ place v, ⟨place, 0, v⟩ ∈ argumentWrites 0 args ↔
          IsArgument className isStatic ds table first place v := by
  have hparameters := Descriptor.parameterTypes_eq_ok_iff.2 ⟨hds, result, rfl⟩
  simp only [createInputs, hparameters, isArgument_iff, parameterSlot, List.take_length]
  cases isStatic with
  | true =>
    obtain ⟨vs, hrun, hvs⟩ := exists_createArguments hds table 0 .root
    refine ⟨vs, _, State.root.nextSymbol, hrun, rfl, rfl, .none rfl, ?_, fun place v => ?_⟩
    · exact hvs.stop_eq
    · rw [hvs.mem_iff]
      simp
  | false =>
    have hreceiver := createReceiver_meets (hfields rfl) (namesInput_inputName table 0)
    let r := receiver className (inputName table 0)
    rcases hrun : (e.createReceiver className (inputName table 0)).run .root with ⟨error | v, t⟩
    · exact (hreceiver.of_error hrun).elim
    · obtain ⟨rfl, hframes, hin⟩ := hreceiver.of_ok hrun
      obtain ⟨vs, hrest, hvs⟩ := exists_createArguments hds table 1 t
      refine ⟨.reference (.symbolic r) :: vs, t.withSymbols (t.nextSymbol + ds.length),
        t.nextSymbol, ?_, hframes, rfl, ?_, ?_, fun place v => ?_⟩
      · rw [if_neg Bool.false_ne_true, run_bind_ok hrun]
        change (createArguments table 1 ds >>= _).run t = _
        rw [run_bind_ok hrest]
        rfl
      · cases hin with
        | expands hname hpath hobject hheap hinitial =>
          exact .expands hname hpath hobject hheap hinitial
      · exact hvs.stop_eq
      · have hslots : (Value.reference (.symbolic r)).slots = 1 := rfl
        rw [argumentWrites_cons, hslots, List.mem_cons, LocalWrite.mk.injEq, hvs.mem_iff]
        simp [r]

theorem initialState_eq_ok_iff {method : MethodSignature} {args : List Value} {t : State}
    {code : List UInt8} {maxLocals maxStack : Nat}
    (hrun : (e.createInputs method isStatic table).run .root = (.ok args, t)) :
    e.initialState method isStatic code maxLocals table maxStack = .ok s ↔
      ∃ locals, (Locals.create maxLocals table).setArgs args = (.ok (), locals) ∧
        t.pushFrame (e.frame method code locals maxStack) = s := by
  unfold initialState
  rw [hrun]
  dsimp only
  rcases (Locals.create maxLocals table).setArgs args with ⟨error | ⟨⟩, locals⟩ <;> simp

/-- The arguments stand where their names say.  The root state can be made just if the widths of
the arguments fit into the area and each of them fits one of the rows that cover its slot at the
start of the code, if there are any.  Then it has one frame, at the start of the code and without
operands, in whose local variables there are the arguments and nothing else.  A parameter is a
fresh symbol of its declared type, in the slot behind the arguments before it and with the name of
that slot.  The path condition says that the receiver denotes a new object, and nothing for a
method without one. -/
theorem arguments_stand_in_named_slots (e : Engine ω τ) (className name result : String)
    (isStatic : Bool) (table : List LocalVariable) (hds : ∀ d ∈ ds, Descriptor.IsField d)
    (hfields : isStatic = false → e.FormedFields className) (code : List UInt8)
    (maxLocals maxStack : Nat) :
    let method : MethodSignature := ⟨className, name, "(" ++ String.join ds ++ ")" ++ result⟩
    let start := e.initialState method isStatic code maxLocals table maxStack
    ∃ first,
      (∀ i < ds.length, ∃ v,
        IsArgument className isStatic ds table first (parameterSlot isStatic ds i) v) ∧
      ((∃ s, start = .ok s) ↔ parameterSlot isStatic ds ds.length ≤ maxLocals ∧
        ∀ slot v, IsArgument className isStatic ds table first slot v →
          (LocalWrite.mk slot 0 v).Typed table) ∧
      ∀ s, start = .ok s →
        (∃ locals, s.frames =
            [⟨method, code, 0, .empty (min maxStack e.config.maxOperandDepth), locals⟩] ∧
          (∀ slot v, locals.get slot = .ok v ↔
            IsArgument className isStatic ds table first slot v) ∧
          ∀ slot < maxLocals, (¬∃ v, IsArgument className isStatic ds table first slot v) →
            locals.get slot = .error (.invalidSlot slot .notWritten)) ∧
        ReceiverIn e className table s isStatic first ∧ s.nextSymbol = first + ds.length := by
  intro method start
  obtain ⟨args, t, first, hrun, hframes, hnext, hreceiver, hwidths, hargs⟩ :=
    exists_createInputs hds hfields name result table
  have hstart : ∀ s, start = .ok s ↔ ∃ locals,
      (Locals.create maxLocals table).setArgs args = (.ok (), locals) ∧
        t.pushFrame (e.frame method code locals maxStack) = s :=
    fun s => initialState_eq_ok_iff hrun
  refine ⟨first, fun i hi => ?_, ?_, fun s hs => ?_⟩
  · obtain ⟨v, hv⟩ := exists_stands (hds _ (List.getElem_mem hi)).denotes
      (.root (inputName table (parameterSlot isStatic ds i))) (first + i)
    exact ⟨v, .parameter (List.getElem?_eq_getElem hi) (namesInput_inputName table _) hv⟩
  · simp only [← hwidths, ← hargs]
    rw [← argumentWrites_allowed_iff, ← (Locals.records_setArgs maxLocals table args).2]
    simp only [hstart]
    constructor
    · rintro ⟨s, locals, hset, -⟩
      rw [hset]
    · intro hok
      exact ⟨_, _, Prod.ext hok rfl, rfl⟩
  · obtain ⟨locals, hset, rfl⟩ := (hstart s).1 hs
    obtain ⟨hheld, hrest⟩ := Locals.holds_arguments hset
    simp only [hargs] at hheld
    simp only [hheld] at hrest
    refine ⟨⟨locals, ?_, hheld, hrest⟩, ?_, hnext⟩
    · rw [State.pushFrame, hframes]
      rfl
    · cases hreceiver with
      | none hpath => exact .none hpath
      | expands hname hpath hobject hheap hinitial =>
        exact .expands hname hpath hobject hheap hinitial

end Entry

/-- A wide parameter moves the next one by two slots.  A row that begins to count later does not
name it. -/
theorem wide_parameter_moves_next :
    let e := permissive ClassTable.redeclaring
    let table : List LocalVariable := [⟨1, 0, 4, "J", "big"⟩, ⟨3, 2, 2, "Z", "later"⟩]
    let method : MethodSignature := ⟨"Derived", "run", "(JI)V"⟩
    e.FormedFields "Derived" ∧
      ∃ s first locals, e.initialState method false [0] 4 table 2 = .ok s ∧
        s.frames = [⟨method, [0], 0, .empty 2, locals⟩] ∧
        locals.get 1 = .ok (.primitive (.symbol ⟨first, .long, .root "big"⟩)) ∧
        locals.get 2 = .error (.invalidSlot 2 .notWritten) ∧
        locals.get 3 = .ok (.primitive (.symbol ⟨first + 1, .int, .root "arg3"⟩)) := by
  intro e table method
  have hds : ∀ d ∈ ["J", "I"], Descriptor.IsField d :=
    List.forall_mem_cons.2 ⟨.primitive .long, List.forall_mem_singleton.2 (.primitive .int)⟩
  have hfields : e.FormedFields "Derived" := by
    intro fields hfields f hf
    cases ClassTable.redeclaring_instanceFields.symm.trans hfields
    rcases List.mem_cons.1 hf with rfl | hf
    · exact .inl (by decide)
    · cases List.mem_singleton.1 hf
      exact .inl (by decide)
  have htext : "(" ++ String.join ["J", "I"] ++ ")" ++ "V" = "(JI)V" := by decide
  obtain ⟨first, -, hstart, hroot⟩ := arguments_stand_in_named_slots e "Derived" "run" "V" false
    table hds (fun _ => hfields) [0] 4 2
  rw [htext] at hstart hroot
  have hslot : parameterSlot false ["J", "I"] 0 = 1 := by decide
  have hslot' : parameterSlot false ["J", "I"] 1 = 3 := by decide
  have hname : inputName table 1 = "big" := by decide
  have hname' : inputName table 3 = "arg3" := by decide
  have hcases : ∀ {slot v}, IsArgument "Derived" false ["J", "I"] table first slot v →
      slot = 0 ∨ slot = 1 ∧ v.conformsTo "J" = true ∨ slot = 3 := by
    intro slot v h
    rcases isArgument_iff.1 h with ⟨-, rfl, -⟩ | ⟨i, d, hd, rfl, hv⟩
    · exact .inl rfl
    · match i with
      | 0 =>
        cases hd
        exact .inr (.inl ⟨hslot, hv.conformsTo⟩)
      | 1 => exact .inr (.inr hslot')
  have htyped : ∀ slot v, IsArgument "Derived" false ["J", "I"] table first slot v →
      (LocalWrite.mk slot 0 v).Typed table := by
    intro slot v h
    rintro ⟨row, hrow, rfl, hcovers⟩
    simp only [table, List.mem_cons, List.not_mem_nil, or_false] at hrow
    rcases hrow with rfl | rfl
    · rcases hcases h with h | ⟨-, hfits⟩ | h
      · cases h
      · exact ⟨_, List.mem_cons_self, rfl, hcovers, hfits⟩
      · cases h
    · cases hcovers
  obtain ⟨s, hs⟩ := hstart.2 ⟨by decide, htyped⟩
  obtain ⟨⟨locals, hframes, hheld, hrest⟩, -, -⟩ := hroot s hs
  refine ⟨hfields, s, first, locals, hs, hframes, ?_, ?_, ?_⟩
  · refine (hheld 1 _).2 (isArgument_iff.2 (.inr ⟨0, "J", rfl, hslot.symm, ?_⟩))
    rw [hname]
    exact .primitive (by decide)
  · refine hrest 2 (by decide) fun ⟨v, hv⟩ => ?_
    rcases hcases hv with h | ⟨h, -⟩ | h <;> cases h
  · refine (hheld 3 _).2 (isArgument_iff.2 (.inr ⟨1, "I", rfl, hslot'.symm, ?_⟩))
    rw [hname']
    exact .primitive (by decide)

end Engine

end SymbolicMachine
