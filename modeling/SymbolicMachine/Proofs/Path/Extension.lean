import SymbolicMachine.Proofs.Explore.Calls
import SymbolicMachine.Proofs.Path.Consistency
/-!
# States further along a path

A state that lies further along a path has the clauses of the earlier one first, gives every
decided reference the same target, and has every input object unchanged.  An address that is in
use stays in use, for an object of the same class and origin, and a new address was not in use
before.  This holds of all that the operations on states do, and so of all that a step does.
-/
namespace SymbolicMachine

open SymbolicMachine.Action

variable {ω τ α β : Type}

/-- The second heap has all objects of the first, and at addresses that it handed out only. -/
structure Heap.ExtendedBy (h k : Heap) : Prop where
  objects : h.Grows k
  addresses : ∀ {a o}, k.get a = .ok o → (∃ p, h.get a = .ok p) ∨ h.next ≤ a
  next : h.next ≤ k.next

namespace Heap

variable {h k l : Heap}

theorem ExtendedBy.refl (h : Heap) : h.ExtendedBy h :=
  ⟨.refl h, fun {_ o} ho => .inl ⟨o, ho⟩, Nat.le_refl _⟩

theorem ExtendedBy.trans (hk : h.ExtendedBy k) (kl : k.ExtendedBy l) : h.ExtendedBy l where
  objects := hk.objects.trans kl.objects
  addresses ho := by
    rcases kl.addresses ho with ⟨p, hp⟩ | hle
    · exact hk.addresses hp
    · exact .inr (Nat.le_trans hk.next hle)
  next := Nat.le_trans hk.next kl.next

theorem extendedBy_allocate (h : Heap) (object : HeapObject) :
    h.ExtendedBy (h.allocate object).2 where
  objects := h.grows_allocate object
  addresses ho := by
    rcases State.get_insertAt_cases ho with ⟨rfl, -⟩ | ho
    · exact .inr (Nat.le_refl _)
    · exact .inl ⟨_, ho⟩
  next := Nat.le_of_lt (by rw [next_allocate]; omega)

/-- An object that gives way to one that resembles it. -/
theorem extendedBy_insertAt {a : Nat} {o p : HeapObject} (ho : h.get a = .ok o)
    (hop : o.Resembles p) : h.ExtendedBy (h.insertAt a p) where
  objects := grows_insertAt ho hop
  addresses hq := by
    rcases State.get_insertAt_cases hq with ⟨rfl, -⟩ | hq
    · exact .inl ⟨o, ho⟩
    · exact .inl ⟨_, hq⟩
  next := Nat.le_of_eq (next_insertAt_of_get ho p).symm

theorem extendedBy_arraySet {address : Nat} {index : Term} {v : Value}
    (hk : h.arraySet address index v = .ok k) : h.ExtendedBy k := by
  obtain ⟨a, ha, heq⟩ := bind_eq_ok.1 hk
  cases heq
  exact extendedBy_insertAt (getArray_eq_ok.1 ha) ⟨rfl, rfl, rfl⟩

theorem extendedBy_setField {address : Nat} {name : String} {v : Value}
    (hk : h.setField address name v = .ok k) : h.ExtendedBy k := by
  obtain ⟨i, hi, rfl⟩ := setField_eq_ok hk
  exact extendedBy_insertAt hi ⟨rfl, rfl, rfl⟩

end Heap

namespace State

/-- What holds between two states of one path. -/
structure ExtendedBy (s t : State) : Prop where
  clauses : s.pathCondition.clauses <+: t.pathCondition.clauses
  deref : ∀ {r target}, s.deref r = .ok target → t.deref r = .ok target
  inputs : ∀ {a o}, s.initialHeap.get a = .ok o → t.initialHeap.get a = .ok o
  newInputs : ∀ {a o}, t.initialHeap.get a = .ok o →
    (∃ p, s.initialHeap.get a = .ok p) ∨ (s.heap.next ≤ a ∧ t.InUse a)
  heap : s.heap.ExtendedBy t.heap
  symbols : s.nextSymbol ≤ t.nextSymbol

/-- The addresses of the input objects are not handed out any more. -/
def Separate (s : State) : Prop := ∀ {a o}, s.initialHeap.get a = .ok o → a < s.heap.next

variable {s t u : State}

theorem ExtendedBy.refl (s : State) : s.ExtendedBy s where
  clauses := List.prefix_refl _
  deref h := h
  inputs h := h
  newInputs {_ o} h := .inl ⟨o, h⟩
  heap := .refl _
  symbols := Nat.le_refl _

theorem InUse.extend {a : Nat} (h : s.InUse a) (hst : s.heap.ExtendedBy t.heap) : t.InUse a := by
  obtain ⟨o, ho⟩ := h
  obtain ⟨p, hp, -⟩ := hst.objects a o ho
  exact ⟨p, hp⟩

theorem ExtendedBy.trans (h : s.ExtendedBy t) (h' : t.ExtendedBy u) : s.ExtendedBy u where
  clauses := h.clauses.trans h'.clauses
  deref hr := h'.deref (h.deref hr)
  inputs ho := h'.inputs (h.inputs ho)
  newInputs ho := by
    rcases h'.newInputs ho with ⟨p, hp⟩ | ⟨hle, huse⟩
    · exact (h.newInputs hp).imp_right fun ⟨hle, huse⟩ => ⟨hle, huse.extend h'.heap⟩
    · exact .inr ⟨Nat.le_trans h.heap.next hle, huse⟩
  heap := h.heap.trans h'.heap
  symbols := Nat.le_trans h.symbols h'.symbols

theorem ExtendedBy.separate (h : s.ExtendedBy t) (hs : s.Separate) : t.Separate := by
  intro a o ho
  rcases h.newInputs ho with ⟨p, hp⟩ | ⟨-, q, hq⟩
  · exact Nat.lt_of_lt_of_le (hs hp) h.heap.next
  · exact Heap.lt_next_of_get hq

theorem separate_root : root.Separate := nofun

/-! ## Changed states -/

theorem extendedBy_of_eq (hpath : t.pathCondition = s.pathCondition) (hheap : t.heap = s.heap)
    (hinitial : t.initialHeap = s.initialHeap) (hsymbols : s.nextSymbol ≤ t.nextSymbol) :
    s.ExtendedBy t where
  clauses := by simp only [hpath, List.prefix_refl]
  deref {r target} hr := by
    unfold State.deref resolution? at *
    rwa [hpath]
  inputs ho := by rwa [hinitial]
  newInputs {_ o} ho := .inl ⟨o, by rwa [hinitial] at ho⟩
  heap := by rw [hheap]; exact .refl _
  symbols := hsymbols

theorem extendedBy_withHeap {k : Heap} (hk : s.heap.ExtendedBy k) :
    s.ExtendedBy (s.withHeap k) where
  clauses := List.prefix_refl _
  deref h := h
  inputs h := h
  newInputs {_ o} h := .inl ⟨o, h⟩
  heap := hk
  symbols := Nat.le_refl _

/-- A new object goes to an address at which there is no input object. -/
theorem extendedBy_withInput (hs : s.Separate) (object : HeapObject) :
    s.ExtendedBy (s.withInput object) where
  clauses := List.prefix_refl _
  deref h := h
  inputs {a o} ho := by
    have hlt := hs ho
    rw [← ho]
    exact Heap.get_insertAt_of_ne _ (Nat.ne_of_lt hlt) object
  newInputs {a o} ho := by
    rcases get_insertAt_cases ho with ⟨rfl, rfl⟩ | ho
    · exact .inr ⟨Nat.le_refl _, o, s.heap.get_allocate_self o⟩
    · exact .inl ⟨o, ho⟩
  heap := s.heap.extendedBy_allocate object
  symbols := Nat.le_refl _

theorem extendedBy_withPath {p : PathCondition} {c : Clause}
    (hp : s.pathCondition.push c = .ok p) : s.ExtendedBy (s.withPath p) where
  clauses := (grows_withPath hp).clauses
  deref {r target} hr := by
    unfold State.deref at *
    split at hr
    · exact hr
    · exact hr
    · split at hr
      · rename_i d hd
        have hd' := (grows_withPath hp).resolution hd
        simp only [hd', hr]
      · cases hr
  inputs h := h
  newInputs {_ o} h := .inl ⟨o, h⟩
  heap := .refl _
  symbols := Nat.le_refl _

theorem extendedBy_throwNew (s : State) (className : String) :
    s.ExtendedBy (s.throwNew className).2 :=
  (extendedBy_withHeap (s.heap.extendedBy_allocate _)).trans
    (extendedBy_of_eq rfl rfl rfl (Nat.le_refl _))

/-! ## Operations -/

/-- The operations that a state has. -/
inductive Operation : {α : Type} → Update α → Prop
  | addBranch (number : Nat) : Operation (Action.update (·.addBranch number))
  | incSequence : Operation (Action.update State.incSequence)
  | pushFrame (f : Frame) : Operation (Action.update (·.pushFrame f))
  | throwNew (className : String) : Operation (Action.update fun s => (s.throwNew className).2)
  | endReturned (result : Option Value) : Operation (Action.update (·.endReturned result))
  | popFrame : Operation State.popFrame
  | onFrame {α : Type} (change : Frame → Except MemoryError (α × Frame)) :
      Operation (State.onFrame change)
  | popOperands (count : Nat) : Operation (State.popOperands count)
  | createPrimitive (type : PrimType) (origin : Origin) :
      Operation (State.createPrimitive type origin)
  | createReference (staticType : String) (origin : Origin) :
      Operation (State.createReference staticType origin)
  | createSymbol (descriptor : String) (origin : Origin) :
      Operation (State.createSymbol descriptor origin)
  | createInstance (className : String) (fields : List FieldInfo) :
      Operation (State.createInstance className fields)
  | createArray (className : String) (length : Term) :
      Operation (State.createArray className length)
  | arraySet (address : Nat) (index : Term) (v : Value) : Operation (State.arraySet address index v)
  | setField (address : Nat) (name : String) (v : Value) :
      Operation (State.setField address name v)
  | assume (condition : Term) : Operation (State.assume condition)
  | assumeExpands (r : RefSymbol) (className : String) (fields : List FieldInfo) :
      Operation (State.assumeExpands r className fields)
  | assumeAliases (r : RefSymbol) (address : Nat) : Operation (State.assumeAliases r address)
  | assumeNull (r : RefSymbol) : Operation (State.assumeNull r)
  | assumeInitialized (className : String) : Operation (State.assumeInitialized className)
  | assumeNotInitialized (className : String) : Operation (State.assumeNotInitialized className)

/-- The call of an operation on a state comes back.  If it failed, it left the state as far as it
got. -/
inductive Operates (s t : State) : Prop
  | call {α : Type} {m : Update α} {result : Except (CallError MemoryError) α} (hm : Operation m)
      (hrun : (State.call m).run s = (result, t)) (hback : result ≠ .error .lost)

/-- A state that was made from the root by operations. -/
inductive Built : State → Prop
  | root : Built root
  | operate {s t : State} (h : Built s) (hop : s.Operates t) : Built t

/-- An update that leads to a state further along the path, whether it fails or not. -/
def Extending (m : Update α) : Prop :=
  ∀ s : State, s.Separate → m.Meets s (fun _ t => s.ExtendedBy t) fun _ t => s.ExtendedBy t

theorem extending_pure (a : α) : Extending (pure a) := fun s _ => .refl s

theorem extending_ofExcept (r : Except MemoryError α) : Extending (ofExcept r) :=
  fun s _ => meets_ofExcept.2 ⟨fun _ _ => .refl s, fun _ _ => .refl s⟩

theorem Extending.bind {m : Update α} {k : α → Update β} (hm : Extending m)
    (hk : ∀ a, Extending (k a)) : Extending (m >>= k) := by
  intro s hs
  rw [meets_bind]
  refine (hm s hs).mono (fun a t hst => ?_) fun _ _ h => h
  exact (hk a t (hst.separate hs)).mono (fun _ _ htu => hst.trans htu) fun _ _ htu => hst.trans htu

theorem extending_onFrame (change : Frame → Except MemoryError (α × Frame)) :
    Extending (onFrame change) := fun s _ =>
  meets_onFrame (fun _ _ _ _ _ _ => extendedBy_of_eq rfl rfl rfl (Nat.le_refl _))
    (fun _ => .refl s) fun _ _ _ _ _ => .refl s

theorem extending_popDownward (count : Nat) : Extending (popDownward count) := by
  induction count with
  | zero => exact extending_pure []
  | succ count ih => exact (extending_onFrame _).bind fun v => ih.bind fun _ => extending_pure _

theorem extending_popFrame : Extending State.popFrame := by
  intro s _
  unfold State.popFrame
  rw [meets_bind, meets_read]
  split
  · exact extendedBy_of_eq rfl rfl rfl (Nat.le_refl _)
  · exact .refl s

theorem extendedBy_withSymbols {n : Nat} (h : s.nextSymbol ≤ n) : s.ExtendedBy (s.withSymbols n) :=
  extendedBy_of_eq rfl rfl rfl h

theorem extending_onHeap {change : Heap → Except MemoryError Heap}
    (h : ∀ {h k}, change h = .ok k → h.ExtendedBy k) : Extending (onHeap change) := by
  intro s _
  unfold onHeap
  simp only [meets_bind, meets_read, meets_ofExcept, meets_write]
  exact ⟨fun k hk => extendedBy_withHeap (h hk), fun _ _ => .refl s⟩

theorem extending_allocate (object : HeapObject) : Extending (allocate object) :=
  fun s _ => extendedBy_withHeap (s.heap.extendedBy_allocate object)

theorem extending_assumeClause (c : Clause) : Extending (assumeClause c) := fun s _ =>
  meets_assumeClause (fun _ hp => extendedBy_withPath hp) fun _ _ _ => .refl s

/-- A fresh input object, and the clause for it. -/
theorem extendedBy_expand (hs : s.Separate) {object : HeapObject} {n : Nat} {p : PathCondition}
    {c : Clause} (hn : s.nextSymbol ≤ n) (hp : s.pathCondition.push c = .ok p) :
    s.ExtendedBy (((s.withSymbols n).withInput object).withPath p) := by
  have hsymbols : s.ExtendedBy (s.withSymbols n) := extendedBy_withSymbols hn
  have hinput := extendedBy_withInput (hsymbols.separate hs) object
  have hclause : ((s.withSymbols n).withInput object).pathCondition.push c = .ok p := hp
  exact (hsymbols.trans hinput).trans (extendedBy_withPath hclause)

theorem Operation.extending {m : Update α} (hm : Operation m) : Extending m := by
  cases hm with
  | addBranch _ | incSequence | pushFrame _ | endReturned _ =>
    exact fun s _ => extendedBy_of_eq rfl rfl rfl (Nat.le_refl _)
  | throwNew className => exact fun s _ => extendedBy_throwNew s className
  | popFrame => exact extending_popFrame
  | onFrame change => exact extending_onFrame change
  | popOperands count => exact (extending_popDownward count).bind fun _ => extending_pure _
  | createPrimitive _ _ => exact fun s _ => extendedBy_withSymbols (Nat.le_succ _)
  | createReference _ _ => exact fun s _ => extendedBy_withSymbols (Nat.le_succ _)
  | createSymbol descriptor origin =>
    exact fun s _ => meets_createSymbol (fun _ _ => extendedBy_withSymbols (Nat.le_succ _))
      fun _ _ _ => .refl s
  | createInstance _ _ => exact (extending_ofExcept _).bind fun _ => extending_allocate _
  | createArray _ _ => exact extending_allocate _
  | arraySet _ _ _ => exact extending_onHeap Heap.extendedBy_arraySet
  | setField _ _ _ => exact extending_onHeap Heap.extendedBy_setField
  | assume condition =>
    exact fun s _ => meets_assume (fun _ => extendedBy_withPath (c := .assume condition) rfl)
      fun _ _ => .refl s
  | assumeExpands _ _ _ =>
    exact fun s hs => meets_assumeExpands
      (fun _ _ _ _ hobject hp => extendedBy_expand hs hobject.le hp) (fun _ => .refl s)
      fun _ _ _ _ _ hn _ _ => extendedBy_withSymbols hn
  | assumeAliases _ _ =>
    exact fun s _ => meets_assumeAliases (fun _ _ _ _ hp => extendedBy_withPath hp)
      (fun _ => .refl s) fun _ _ => .refl s
  | assumeNull _ | assumeInitialized _ | assumeNotInitialized _ => exact extending_assumeClause _

theorem Operates.extendedBy (h : s.Operates t) (hs : s.Separate) : s.ExtendedBy t := by
  obtain ⟨hm, hrun, hback⟩ := h
  obtain ⟨-, inner, hrun⟩ := inRange_of_call hrun hback
  exact (hm.extending s hs).of_run hrun

theorem Operates.inRange (h : s.Operates t) : t.InRange := by
  obtain ⟨-, hrun, hback⟩ := h
  exact (inRange_of_call hrun hback).1

theorem Built.inRange (h : s.Built) : s.InRange := by
  cases h with
  | root => decide
  | operate _ hop => exact hop.inRange

theorem Built.separate (h : s.Built) : s.Separate := by
  -- Being separate is what an extension needs, and what it keeps.
  induction h with
  | root => exact separate_root
  | operate _ hop ih => exact (hop.extendedBy ih).separate ih

end State

/-! ## Acts -/

namespace Engine

variable {e : Engine ω τ} {s t : State} {hand hand' : List Value}

theorem Act.extendedBy (hact : Act e s hand t hand') (hs : s.Separate) : s.ExtendedBy t := by
  cases hact with
  | take _ | make _ | widen _ _ | apply _ => exact .refl s
  | drop _ _ | push _ _ _ | jump _ _ | enter _ _ | place _ _ =>
    exact State.extendedBy_of_eq rfl rfl rfl (Nat.le_refl _)
  | namePrimitive _ | nameReference _ => exact State.extendedBy_withSymbols (Nat.le_succ _)
  | skip hn => exact State.extendedBy_withSymbols hn
  | allocate _ => exact State.extendedBy_withHeap (s.heap.extendedBy_allocate _)
  | record _ _ _ hset => exact State.extendedBy_withHeap (Heap.extendedBy_arraySet hset)
  | throw className => exact State.extendedBy_throwNew s className
  | assume _ _ hp | isNull _ hp | aliases _ _ _ hp | initialized _ _ hp =>
    exact State.extendedBy_withPath hp
  | expands _ _ _ hobject hp => exact State.extendedBy_expand hs hobject.le hp

theorem Descends.extendedBy (htriggers : e.triggers = .absent τ) (hs : s.Separate)
    (h : e.Descends State.Operates s t) : s.ExtendedBy t := by
  refine h.keeps htriggers (P := fun t => s.ExtendedBy t) ?_ ?_ (.refl s)
  · exact fun hst hact => hst.trans (hact.extendedBy (hst.separate hs))
  · exact fun hst hop => hst.trans (hop.extendedBy (hst.separate hs))

end Engine

end SymbolicMachine
