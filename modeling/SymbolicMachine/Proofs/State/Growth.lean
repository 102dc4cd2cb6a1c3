import SymbolicMachine.Proofs.Actions
import SymbolicMachine.State
/-!
# What a path keeps

A path only grows.  Along it clauses are added at the end, what a reference was decided to be
stays decided, and no address goes out of use or changes between instance and array.  Every
operation on states is shown to grow the state, also where it fails half-way.
-/
namespace SymbolicMachine

open SymbolicMachine.Action

variable {α β : Type}

/-- Two objects of one class, made for the same reference, both or neither of them arrays. -/
structure HeapObject.Resembles (o p : HeapObject) : Prop where
  className : p.className = o.className
  origin : p.origin = o.origin
  array : p.array?.isSome = o.array?.isSome

theorem HeapObject.Resembles.refl (o : HeapObject) : o.Resembles o := ⟨rfl, rfl, rfl⟩

theorem HeapObject.Resembles.trans {o p q : HeapObject} (h : o.Resembles p) (h' : p.Resembles q) :
    o.Resembles q :=
  ⟨h'.className.trans h.className, h'.origin.trans h.origin, h'.array.trans h.array⟩

namespace Heap

/-- Every object is still there, up to its contents. -/
def Grows (h k : Heap) : Prop :=
  ∀ a o, h.get a = .ok o → ∃ p, k.get a = .ok p ∧ o.Resembles p

theorem Grows.refl (h : Heap) : h.Grows h := fun _ o ho => ⟨o, ho, .refl o⟩

theorem Grows.trans {h k l : Heap} (hk : h.Grows k) (kl : k.Grows l) : h.Grows l := by
  intro a o ho
  obtain ⟨p, hp, hop⟩ := hk a o ho
  obtain ⟨q, hq, hpq⟩ := kl a p hp
  exact ⟨q, hq, hop.trans hpq⟩

theorem grows_allocate (h : Heap) (o : HeapObject) : h.Grows (h.allocate o).2 :=
  fun _ p hp => ⟨p, get_allocate_of_get hp o, .refl p⟩

/-- Replacing an object by one that resembles it keeps every object. -/
theorem grows_insertAt {h : Heap} {a : Nat} {o p : HeapObject} (ho : h.get a = .ok o)
    (hop : o.Resembles p) : h.Grows (h.insertAt a p) := by
  intro b q hq
  by_cases hb : b = a
  · subst hb
    rw [ho] at hq
    cases hq
    exact ⟨p, h.get_insertAt_self b p, hop⟩
  · exact ⟨q, by rw [h.get_insertAt_of_ne hb, hq], .refl q⟩

theorem getArray_eq_ok {h : Heap} {address : Nat} {a : ArrayObject} :
    h.getArray address = .ok a ↔ h.get address = .ok (.array a) := by
  unfold getArray
  rw [bind_eq_ok]
  constructor
  · rintro ⟨o, ho, ha⟩
    cases o with
    | object i => cases ha
    | array b =>
      cases ha
      exact ho
  · intro h
    exact ⟨.array a, h, rfl⟩

theorem getArray_of_grows {h k : Heap} (hk : h.Grows k) {address : Nat} {a : ArrayObject}
    (ha : h.getArray address = .ok a) : ∃ b, k.getArray address = .ok b := by
  obtain ⟨p, hp, hresembles⟩ := hk _ _ (getArray_eq_ok.1 ha)
  cases p with
  | object i => cases hresembles.array
  | array b => exact ⟨b, getArray_eq_ok.2 hp⟩

theorem grows_arraySet {h k : Heap} {address : Nat} {index : Term} {v : Value}
    (hk : h.arraySet address index v = .ok k) : h.Grows k := by
  obtain ⟨a, ha, heq⟩ := bind_eq_ok.1 hk
  cases heq
  exact grows_insertAt (getArray_eq_ok.1 ha) ⟨rfl, rfl, rfl⟩

theorem setField_eq_ok {h k : Heap} {address : Nat} {name : String} {v : Value}
    (hk : h.setField address name v = .ok k) :
    ∃ i : Instance, h.get address = .ok (.object i) ∧
      k = h.insertAt address (.object { i with fields := i.fields.insert name v }) := by
  obtain ⟨o, ho, hset⟩ := bind_eq_ok.1 hk
  cases o with
  | array a => cases hset
  | object i =>
    obtain ⟨changed, hchanged, heq⟩ := bind_eq_ok.1 hset
    cases heq
    unfold Instance.setField at hchanged
    split at hchanged
    · cases hchanged
      exact ⟨i, ho, rfl⟩
    · cases hchanged

theorem grows_setField {h k : Heap} {address : Nat} {name : String} {v : Value}
    (hk : h.setField address name v = .ok k) : h.Grows k := by
  obtain ⟨i, hi, rfl⟩ := setField_eq_ok hk
  exact grows_insertAt hi ⟨rfl, rfl, rfl⟩

theorem mem_toList_iff {h : Heap} {a : Nat} {o : HeapObject} :
    (a, o) ∈ h.toList ↔ h.get a = .ok o := by
  unfold toList get
  rw [OrderedMap.mem_entries_iff]
  cases h.objects.get? a <;> simp

end Heap

namespace State

/-! ## Changed states -/

def withPath (s : State) (p : PathCondition) : State := { s with pathCondition := p }

/-- The state in which the symbols below a number are taken. -/
def withSymbols (s : State) (n : Nat) : State := { s with nextSymbol := n }

def withHeap (s : State) (h : Heap) : State := { s with heap := h }

def withFrames (s : State) (frames : List Frame) : State := { s with frames := frames }

/-- The state with one more object, in both heaps. -/
def withInput (s : State) (object : HeapObject) : State :=
  { s with
    heap := (s.heap.allocate object).2
    initialHeap := s.initialHeap.insertAt s.heap.next object }

/-- What stays along a path. -/
structure Grows (s t : State) : Prop where
  clauses : s.pathCondition.clauses <+: t.pathCondition.clauses
  resolution : ∀ {r c}, s.resolution? r = some c → t.resolution? r = some c
  heap : s.heap.Grows t.heap
  initialHeap : ∀ {a o}, s.initialHeap.get a = .ok o → ∃ p, t.initialHeap.get a = .ok p

theorem Grows.refl (s : State) : s.Grows s :=
  ⟨List.prefix_refl _, fun h => h, .refl _, fun {_ o} h => ⟨o, h⟩⟩

theorem Grows.trans {s t u : State} (h : s.Grows t) (h' : t.Grows u) : s.Grows u where
  clauses := h.clauses.trans h'.clauses
  resolution hr := h'.resolution (h.resolution hr)
  heap := h.heap.trans h'.heap
  initialHeap ho := by
    obtain ⟨p, hp⟩ := h.initialHeap ho
    exact h'.initialHeap hp

theorem Grows.isResolved {s t : State} (h : s.Grows t) {r : RefSymbol}
    (hr : s.isResolved r = true) : t.isResolved r = true := by
  obtain ⟨c, hc⟩ := PathCondition.isResolved_iff.1 hr
  have := h.resolution hc
  exact PathCondition.isResolved_iff.2 ⟨c, this⟩

theorem Grows.of_eq {s t : State} (hpath : t.pathCondition = s.pathCondition)
    (hheap : t.heap = s.heap) (hinitial : t.initialHeap = s.initialHeap) : s.Grows t where
  clauses := by simp only [hpath, List.prefix_refl]
  resolution h := by unfold resolution? at *; rwa [hpath]
  heap := by rw [hheap]; exact .refl _
  initialHeap {_ o} h := ⟨o, by rwa [hinitial]⟩

theorem grows_withHeap {s : State} {h : Heap} (hh : s.heap.Grows h) : s.Grows (s.withHeap h) :=
  { clauses := List.prefix_refl _
    resolution := fun h => h
    heap := hh
    initialHeap := fun {_ o} h => ⟨o, h⟩ }

theorem grows_withInput (s : State) (object : HeapObject) : s.Grows (s.withInput object) where
  clauses := List.prefix_refl _
  resolution h := h
  heap := s.heap.grows_allocate object
  initialHeap {a o} ho := by
    by_cases ha : a = s.heap.next
    · subst ha
      exact ⟨object, Heap.get_insertAt_self _ _ _⟩
    · exact ⟨o, by rw [← ho]; exact Heap.get_insertAt_of_ne _ ha _⟩

theorem resolution?_of_push {p q : PathCondition} {c : Clause} (h : p.push c = .ok q)
    {r : RefSymbol} {d : Clause} (hr : p.resolution? r = some d) : q.resolution? r = some d := by
  rw [PathCondition.resolution?_eq_some_iff] at hr ⊢
  rw [PathCondition.clauses_of_push h]
  exact ⟨List.mem_append_left _ hr.1, hr.2⟩

theorem grows_withPath {s : State} {p : PathCondition} {c : Clause}
    (hp : s.pathCondition.push c = .ok p) : s.Grows (s.withPath p) where
  clauses := by
    change _ <+: p.clauses
    rw [PathCondition.clauses_of_push hp]
    exact List.prefix_append _ _
  resolution := resolution?_of_push hp
  heap := .refl _
  initialHeap {_ o} h := ⟨o, h⟩

theorem grows_throwNew (s : State) (className : String) : s.Grows (s.throwNew className).2 :=
  { clauses := List.prefix_refl _
    resolution := fun h => h
    heap := s.heap.grows_allocate _
    initialHeap := fun {_ o} h => ⟨o, h⟩ }

/-- An update that grows every state, whether it fails or not. -/
def Growing (m : Update α) : Prop := ∀ s, m.Meets s (fun _ t => s.Grows t) fun _ t => s.Grows t

theorem growing_pure (a : α) : Growing (pure a) := fun s => .refl s

theorem growing_ofExcept (r : Except MemoryError α) : Growing (ofExcept r) :=
  fun s => meets_ofExcept.2 ⟨fun _ _ => .refl s, fun _ _ => .refl s⟩

theorem Growing.bind {m : Update α} {k : α → Update β} (hm : Growing m)
    (hk : ∀ a, Growing (k a)) : Growing (m >>= k) := by
  intro s
  rw [meets_bind]
  refine (hm s).mono (fun a t hst => ?_) fun _ _ h => h
  exact (hk a t).mono (fun _ _ htu => hst.trans htu) fun _ _ htu => hst.trans htu

/-! ## Frames -/

theorem meets_onFrame {change : Frame → Except MemoryError (α × Frame)} {s : State}
    {good : α → State → Prop} {bad : MemoryError → State → Prop}
    (hgood : ∀ f rest a g, s.frames = f :: rest → change f = .ok (a, g) →
      good a { s with frames := g :: rest })
    (hempty : s.frames = [] → bad .threadStackEmpty s)
    (hbad : ∀ f rest e, s.frames = f :: rest → change f = .error e → bad e s) :
    (onFrame change).Meets s good bad := by
  unfold onFrame
  simp only [meets_bind, meets_read, meets_ofExcept, meets_write, meets_pure, currentFrame]
  cases hframes : s.frames with
  | nil =>
    refine ⟨fun f hf => ?_, fun e he => ?_⟩
    · cases hf
    · cases he
      exact hempty hframes
  | cons f rest =>
    refine ⟨fun f' hf' => ?_, fun e he => ?_⟩
    · cases hf'
      refine ⟨fun result hchange => ?_, fun e he => hbad f rest e hframes he⟩
      obtain ⟨a, g⟩ := result
      have hreplaced := hgood f rest a g hframes hchange
      simpa only [replaceFrame, hframes, List.tail_cons] using hreplaced
    · cases he

theorem growing_onFrame (change : Frame → Except MemoryError (α × Frame)) :
    Growing (onFrame change) := fun s =>
  meets_onFrame (fun _ _ _ _ _ _ => .of_eq rfl rfl rfl) (fun _ => .refl s) fun _ _ _ _ _ => .refl s

/-! ## Symbols and objects -/

theorem growing_createPrimitive (type : PrimType) (origin : Origin) :
    Growing (createPrimitive type origin) := fun _ => .of_eq rfl rfl rfl

theorem growing_createReference (staticType : String) (origin : Origin) :
    Growing (createReference staticType origin) := fun _ => .of_eq rfl rfl rfl

theorem growing_createSymbol (descriptor : String) (origin : Origin) :
    Growing (createSymbol descriptor origin) := by
  unfold createSymbol
  split
  · exact (growing_createPrimitive _ _).bind fun _ => growing_pure _
  · exact (growing_ofExcept _).bind fun _ =>
      (growing_createReference _ _).bind fun _ => growing_pure _

theorem growing_onHeap {change : Heap → Except MemoryError Heap}
    (h : ∀ {h k}, change h = .ok k → h.Grows k) : Growing (onHeap change) := by
  intro s
  unfold onHeap
  simp only [meets_bind, meets_read, meets_ofExcept, meets_write]
  exact ⟨fun k hk => grows_withHeap (h hk), fun _ _ => .refl s⟩

theorem growing_arraySet (address : Nat) (index : Term) (value : Value) :
    Growing (arraySet address index value) := growing_onHeap Heap.grows_arraySet

/-! ## Assumptions -/

theorem growing_assumeClause (c : Clause) : Growing (assumeClause c) := by
  intro s
  unfold assumeClause PathCondition.pushing
  simp only [meets_onPart, meets_bind, meets_read, meets_ofExcept, meets_write]
  exact ⟨fun p hp => grows_withPath hp, fun _ _ => .refl s⟩

theorem growing_assume (condition : Term) : Growing (assume condition) := by
  unfold assume
  split
  · exact growing_assumeClause _
  · exact fun s => .refl s

theorem growing_ensureUnresolved (r : RefSymbol) : Growing (ensureUnresolved r) := by
  intro s
  unfold ensureUnresolved
  rw [meets_bind, meets_read]
  split <;> exact .refl s

theorem growing_createFields (r : RefSymbol) (fields : List FieldInfo) :
    Growing (createFields r fields) := by
  induction fields with
  | nil => exact growing_pure []
  | cons f rest ih =>
    exact (growing_createSymbol _ _).bind fun v => ih.bind fun _ => growing_pure _

theorem growing_createInput (r : RefSymbol) (className : String) (fields : List FieldInfo) :
    Growing (createInput r className fields) := by
  unfold createInput
  split
  · exact (growing_createPrimitive _ _).bind fun _ => growing_pure _
  · exact (growing_createFields _ _).bind fun _ => growing_pure _

theorem growing_allocateInput (object : HeapObject) : Growing (allocateInput object) :=
  fun s => grows_withInput s object

theorem growing_assumeExpands (r : RefSymbol) (className : String) (fields : List FieldInfo) :
    Growing (assumeExpands r className fields) := by
  refine (growing_ensureUnresolved r).bind fun _ => ?_
  refine (growing_createInput r className fields).bind fun object => ?_
  refine (growing_allocateInput object).bind fun address => ?_
  exact (growing_assumeClause _).bind fun _ => growing_pure _

theorem growing_assumeAliases (r : RefSymbol) (address : Nat) :
    Growing (assumeAliases r address) := by
  refine (growing_ensureUnresolved r).bind fun _ => ?_
  intro s
  rw [meets_bind, meets_read]
  exact ((growing_ofExcept _).bind fun _ => growing_assumeClause _) s

end State

end SymbolicMachine
