import SymbolicMachine.Proofs.Acts.Roots
/-!
# Consistent states

The path condition and the two heaps of a state are written by different operations, and describe
the same objects.  In a consistent state they agree: each input object is there because one clause
expands a reference to it, an alias names an object that an earlier clause expanded, and no target
and no initialization is decided twice.  Every state that an exploration gets to is consistent.
-/
namespace SymbolicMachine

open SymbolicMachine.Action

variable {ω τ : Type}

/-- The origin, address and class of the input object that a clause is about, if it expands a
reference. -/
def Clause.input? : Clause → Option (Option RefSymbol × Nat × String)
  | .expands r a c => some (some r, a, c)
  | _ => none

/-- The origin, address and class of an object at an address. -/
def HeapObject.described (b : Nat × HeapObject) : Option RefSymbol × Nat × String :=
  (b.2.origin, b.1, b.2.className)

/-- What a path condition is along every path. -/
structure PathCondition.Orderly (classes : ClassTable) (p : PathCondition) : Prop where
  /-- Every target that a clause decides is found in the index. -/
  indexed : ∀ c ∈ p.clauses, ∀ r, c.reference? = some r → p.isResolved r = true
  resolved_once : p.clauses.Pairwise fun c d =>
    ∀ r r', c.reference? = some r → d.reference? = some r' → r.id ≠ r'.id
  initialized_once : p.clauses.Pairwise fun c d => ∀ className before,
    State.initializationIn className c = some before → State.initializationIn className d = none
  /-- An alias names an object that was expanded before, and that fits the reference. -/
  aliased : ∀ {before r a after}, p.clauses = before ++ .aliases r a :: after →
    ∃ r' c, .expands r' a c ∈ before ∧ classes.isAssignable c r.staticType = true
  boolean : ∀ {t}, .assume t ∈ p.clauses → t.type = .boolean

/-- The path condition and the two heaps agree. -/
structure State.Consistent (classes : ClassTable) (s : State) : Prop where
  path : s.pathCondition.Orderly classes
  /-- The clauses that expand references are, in order, the input objects by their addresses. -/
  inputs : s.pathCondition.clauses.filterMap Clause.input? =
    s.initialHeap.toList.map HeapObject.described
  /-- Input objects are in the current heap as well. -/
  current : ∀ {a o}, s.initialHeap.get a = .ok o →
    ∃ p, s.heap.get a = .ok p ∧ p.className = o.className ∧ p.origin = o.origin

/-! ## Path conditions -/

section Paths

variable {classes : ClassTable} {p q : PathCondition} {c : Clause}

theorem Clause.input?_eq_some {x : Option RefSymbol × Nat × String} :
    c.input? = some x ↔ ∃ r, x.1 = some r ∧ c = .expands r x.2.1 x.2.2 := by
  obtain ⟨origin, a, n⟩ := x
  cases c with
  | expands r' a' n' =>
    constructor
    · rintro ⟨⟩
      exact ⟨r', rfl, rfl⟩
    · rintro ⟨r, rfl, ⟨⟩⟩
      rfl
  | assume _ | aliases _ _ | isNull _ | initialized _ | notInitialized _ => simp [Clause.input?]

namespace PathCondition

theorem isResolved_of_id_eq {r r' : RefSymbol} (h : r.id = r'.id) :
    p.isResolved r = p.isResolved r' := by
  simp only [isResolved, h]

theorem orderly_empty : empty.Orderly classes where
  indexed := nofun
  resolved_once := .nil
  initialized_once := .nil
  aliased h := by simp [empty] at h
  boolean := nofun

/-- Clauses stay in order if the new one decides no initialization a second time, aliases what was
expanded, and assumes a boolean. -/
theorem Orderly.push (h : p.Orderly classes) (hpush : p.push c = .ok q)
    (hinitializes : ∀ className before, State.initializationIn className c = some before →
      p.clauses.findSome? (State.initializationIn className) = none)
    (haliases : ∀ r a, c = .aliases r a →
      ∃ r' n, .expands r' a n ∈ p.clauses ∧ classes.isAssignable n r.staticType = true)
    (hassumes : ∀ t, c = .assume t → t.type = .boolean) : q.Orderly classes := by
  have hclauses := clauses_of_push hpush
  constructor
  · intro d hd r hr
    rw [hclauses] at hd
    rcases List.mem_append.1 hd with hd | hd
    · obtain ⟨d', hd'⟩ := isResolved_iff.1 (h.indexed d hd r hr)
      exact isResolved_iff.2 ⟨d', State.resolution?_of_push hpush hd'⟩
    · cases List.mem_singleton.1 hd
      exact isResolved_iff.2 ⟨c, resolution?_of_push_self hpush hr⟩
  · rw [hclauses]
    refine List.pairwise_append.2 ⟨h.resolved_once, List.pairwise_singleton _ _, ?_⟩
    intro d hd c' hc' r r' hr hr' heq
    cases List.mem_singleton.1 hc'
    -- The number would be in the index already, and then the clause was not accepted.
    have hopen := isResolved_eq_false_of_push hpush hr'
    rw [← isResolved_of_id_eq heq, h.indexed d hd r hr] at hopen
    cases hopen
  · rw [hclauses]
    refine List.pairwise_append.2 ⟨h.initialized_once, List.pairwise_singleton _ _, ?_⟩
    intro d hd c' hc' className before hbefore
    cases List.mem_singleton.1 hc'
    -- An earlier clause that decides the class contradicts that none did when this one came.
    refine Option.eq_none_iff_forall_ne_some.2 fun again hagain => ?_
    have hnone := hinitializes className again hagain
    rw [List.findSome?_eq_none_iff.1 hnone d hd] at hbefore
    cases hbefore
  · intro before r a after heq
    rw [hclauses] at heq
    rcases after.eq_nil_or_concat with rfl | ⟨init, d, rfl⟩
    · obtain ⟨hbefore, hlast⟩ := List.append_inj' heq rfl
      exact hbefore ▸ haliases r a (List.singleton_inj.1 hlast)
    · rw [List.concat_eq_append, ← List.cons_append, ← List.append_assoc] at heq
      obtain ⟨hbefore, -⟩ := List.append_inj' heq rfl
      exact h.aliased hbefore
  · intro t ht
    rw [hclauses] at ht
    rcases List.mem_append.1 ht with ht | ht
    · exact h.boolean ht
    · cases List.mem_singleton.1 ht
      exact hassumes t rfl

end PathCondition

end Paths

/-! ## Heaps -/

namespace OrderedMap

variable {υ : Type}

/-- A greater key than all others goes to the end. -/
theorem place_of_lt {bindings : List (Nat × υ)} {k : Nat} (h : ∀ b ∈ bindings, b.1 < k) (v : υ) :
    place k v bindings = bindings ++ [(k, v)] := by
  induction bindings with
  | nil => rfl
  | cons b rest ih =>
    have hb : b.1 < k := h b List.mem_cons_self
    have hrest := ih fun c hc => h c (List.mem_cons_of_mem _ hc)
    simp only [place, Nat.ne_of_gt hb, Nat.lt_asymm hb, if_false, List.cons_append, hrest]

end OrderedMap

namespace State

variable {classes : ClassTable} {s : State}

theorem consistent_root : root.Consistent classes where
  path := PathCondition.orderly_empty
  inputs := rfl
  current := nofun

namespace Consistent

/-- An input object is there because of a clause. -/
theorem covered (h : s.Consistent classes) {a : Nat} {o : HeapObject}
    (ho : s.initialHeap.get a = .ok o) :
    ∃ r, o.origin = some r ∧ .expands r a o.className ∈ s.pathCondition.clauses := by
  have hmem : HeapObject.described (a, o) ∈ s.initialHeap.toList.map HeapObject.described :=
    List.mem_map_of_mem (Heap.mem_toList_iff.2 ho)
  rw [← h.inputs] at hmem
  obtain ⟨c, hc, hinput⟩ := List.mem_filterMap.1 hmem
  obtain ⟨r, horigin, rfl⟩ := Clause.input?_eq_some.1 hinput
  exact ⟨r, horigin, hc⟩

/-- A clause that expands a reference is why there is an input object. -/
theorem bound (h : s.Consistent classes) {r : RefSymbol} {a : Nat} {c : String}
    (hc : .expands r a c ∈ s.pathCondition.clauses) :
    ∃ o, s.initialHeap.get a = .ok o ∧ o.className = c ∧ o.origin = some r := by
  have hmem : (some r, a, c) ∈ s.pathCondition.clauses.filterMap Clause.input? :=
    List.mem_filterMap.2 ⟨_, hc, rfl⟩
  rw [h.inputs] at hmem
  obtain ⟨⟨a', o⟩, ho, heq⟩ := List.mem_map.1 hmem
  obtain ⟨horigin, heq⟩ := Prod.mk.inj heq
  obtain ⟨rfl, hclass⟩ := Prod.mk.inj heq
  exact ⟨o, Heap.mem_toList_iff.1 ho, hclass, horigin⟩

/-- The addresses of the input objects ascend along the path condition. -/
theorem ascending (h : s.Consistent classes) :
    (s.pathCondition.clauses.filterMap Clause.input?).Pairwise fun x y => x.2.1 < y.2.1 := by
  rw [h.inputs]
  exact List.pairwise_map.2 s.initialHeap.objects.sorted

theorem lt_next (h : s.Consistent classes) {a : Nat} {o : HeapObject}
    (ho : s.initialHeap.get a = .ok o) : a < s.heap.next := by
  obtain ⟨p, hp, -⟩ := h.current ho
  exact Heap.lt_next_of_get hp

theorem of_eq {t : State} (h : s.Consistent classes) (hpath : t.pathCondition = s.pathCondition)
    (hheap : t.heap = s.heap) (hinitial : t.initialHeap = s.initialHeap) :
    t.Consistent classes where
  path := hpath ▸ h.path
  inputs := by rw [hpath, hinitial, h.inputs]
  current := by
    rw [hheap, hinitial]
    exact h.current

theorem grow {t : State} (h : s.Consistent classes) (hpath : t.pathCondition = s.pathCondition)
    (hheap : s.heap.Grows t.heap) (hinitial : t.initialHeap = s.initialHeap) :
    t.Consistent classes where
  path := hpath ▸ h.path
  inputs := by rw [hpath, hinitial, h.inputs]
  current := by
    intro a o ho
    rw [hinitial] at ho
    obtain ⟨p, hp, hclass, horigin⟩ := h.current ho
    obtain ⟨q, hq, hpq⟩ := hheap a p hp
    exact ⟨q, hq, hpq.className.trans hclass, hpq.origin.trans horigin⟩

/-- One more clause that expands no reference. -/
theorem push (h : s.Consistent classes) {p : PathCondition} {c : Clause}
    (hpush : s.pathCondition.push c = .ok p) (hinput : c.input? = none)
    (hpath : p.Orderly classes) : (s.withPath p).Consistent classes where
  path := hpath
  inputs := by
    change p.clauses.filterMap Clause.input? = _
    rw [PathCondition.clauses_of_push hpush, List.filterMap_append, List.filterMap_cons_none hinput,
      List.filterMap_nil, List.append_nil]
    exact h.inputs
  current := h.current

/-- One more input object, and the clause for it. -/
theorem expand (h : s.Consistent classes) {p : PathCondition} {r : RefSymbol} {c : String}
    {object : HeapObject} (hclass : object.className = c) (horigin : object.origin = some r)
    (hpush : s.pathCondition.push (.expands r s.heap.next c) = .ok p) :
    ((s.withInput object).withPath p).Consistent classes where
  path := h.path.push hpush nofun nofun nofun
  inputs := by
    change p.clauses.filterMap Clause.input? =
      (s.initialHeap.insertAt s.heap.next object).toList.map HeapObject.described
    have hlast : (s.initialHeap.insertAt s.heap.next object).toList =
        s.initialHeap.toList ++ [(s.heap.next, object)] :=
      OrderedMap.place_of_lt (fun b hb => h.lt_next (Heap.mem_toList_iff.1 hb)) object
    rw [PathCondition.clauses_of_push hpush, hlast, List.filterMap_append, List.map_append,
      h.inputs]
    simp [Clause.input?, HeapObject.described, hclass, horigin]
  current := by
    intro a o ho
    change ∃ q, (s.heap.allocate object).2.get a = .ok q ∧ _
    rcases get_insertAt_cases ho with ⟨rfl, rfl⟩ | ho
    · exact ⟨o, s.heap.get_allocate_self o, rfl, rfl⟩
    · obtain ⟨q, hq, hsame⟩ := h.current ho
      exact ⟨q, Heap.get_allocate_of_get hq object, hsame⟩

end Consistent

/-! ## Stores of the embedding program -/

/-- A store that an embedding program makes, or tries to make. -/
inductive Store (s : State) : State → Prop
  | setField {address : Nat} {name : String} {v : Value} {result : Except MemoryError Unit}
      {t : State} (h : (State.setField address name v).run s = (result, t)) : Store s t
  | arraySet {address : Nat} {index : Term} {v : Value} {result : Except MemoryError Unit}
      {t : State} (h : (State.arraySet address index v).run s = (result, t)) : Store s t
  | setLocal {slot : Nat} {v : Value} {result : Except MemoryError Unit} {t : State}
      (h : (State.setLocal slot v).run s = (result, t)) : Store s t

theorem run_onHeap {change : Heap → Except MemoryError Heap} {result : Except MemoryError Unit}
    {t : State} (hchange : ∀ {h k}, change h = .ok k → h.Grows k)
    (h : (onHeap change).run s = (result, t)) : ∃ k, s.heap.Grows k ∧ t = s.withHeap k := by
  refine Meets.of_run (P := fun t => ∃ k, s.heap.Grows k ∧ t = s.withHeap k) ?_ h
  unfold onHeap
  simp only [meets_bind, meets_read, meets_ofExcept, meets_write]
  exact ⟨fun k hk => ⟨k, hchange hk, rfl⟩, fun _ _ => ⟨s.heap, .refl _, rfl⟩⟩

theorem run_onFrame {α : Type} {change : Frame → Except MemoryError (α × Frame)}
    {result : Except MemoryError α} {t : State} (h : (onFrame change).run s = (result, t)) :
    ∃ frames, t = s.withFrames frames :=
  Meets.of_run (P := fun t => ∃ frames, t = s.withFrames frames)
    (meets_onFrame (fun _ rest _ g _ _ => ⟨g :: rest, rfl⟩) (fun _ => ⟨s.frames, rfl⟩)
      fun _ _ _ _ _ => ⟨s.frames, rfl⟩) h

theorem Consistent.store {t : State} (h : s.Consistent classes) (hstore : Store s t) :
    t.Consistent classes := by
  have hheap : ∀ {change : Heap → Except MemoryError Heap} {result : Except MemoryError Unit},
      (∀ {h k}, change h = .ok k → h.Grows k) → (onHeap change).run s = (result, t) →
        t.Consistent classes := by
    intro change result hchange hrun
    obtain ⟨k, hk, rfl⟩ := run_onHeap hchange hrun
    exact h.grow rfl hk rfl
  cases hstore with
  | setField hrun => exact hheap Heap.grows_setField hrun
  | arraySet hrun => exact hheap Heap.grows_arraySet hrun
  | setLocal hrun =>
    obtain ⟨frames, rfl⟩ := run_onFrame hrun
    exact h.of_eq rfl rfl rfl

end State

/-! ## Acts -/

namespace Engine

variable {e : Engine ω τ} {s t : State} {hand hand' : List Value}

theorem Act.consistent (h : s.Consistent e.classes) (hact : Act e s hand t hand') :
    t.Consistent e.classes := by
  cases hact with
  | take _ | make _ | widen _ _ | apply _ => exact h
  | drop _ _ | push _ _ _ | jump _ _ | enter _ _ | place _ _ => exact h.of_eq rfl rfl rfl
  | namePrimitive _ | nameReference _ | skip _ => exact h.of_eq rfl rfl rfl
  | allocate _ => exact h.grow rfl (s.heap.grows_allocate _) rfl
  | record _ _ _ hset => exact h.grow rfl (Heap.grows_arraySet hset) rfl
  | throw className => exact h.grow rfl (s.grows_throwNew className).heap rfl
  | assume _ hboolean hp =>
    refine h.push hp rfl (h.path.push hp nofun nofun fun t ht => ?_)
    cases ht
    exact hboolean
  | isNull _ hp => exact h.push hp rfl (h.path.push hp nofun nofun nofun)
  | aliases _ ho hfits hp =>
    refine h.push hp rfl (h.path.push hp nofun (fun r a heq => ?_) nofun)
    cases heq
    obtain ⟨r', -, hexpanded⟩ := h.covered ho
    exact ⟨r', _, hexpanded, hfits⟩
  -- The clause and the input object come together.
  | @expands r _ _ _ n _ _ _ _ hobject hp =>
    have hsame : (s.withSymbols n).Consistent e.classes := h.of_eq rfl rfl rfl
    exact hsame.expand hobject.className_eq hobject.origin_eq hp
  | @initialized className c _ hopen hc hp =>
    have hdecides : ∀ className' before, State.initializationIn className' c = some before →
        className = className' := by
      intro className' before hbefore
      rcases hc with rfl | rfl <;> exact (Option.ite_none_right_eq_some.1 hbefore).1
    refine h.push hp ?_ (h.path.push hp (fun className' before hbefore => ?_) ?_ ?_)
    · rcases hc with rfl | rfl <;> rfl
    · rw [← hdecides className' before hbefore]
      exact hopen
    · rcases hc with rfl | rfl <;> exact nofun
    · rcases hc with rfl | rfl <;> exact nofun

theorem consistent_initialState {method : MethodSignature} {isStatic : Bool} {code : List UInt8}
    {maxLocals maxStack : Nat} {table : List LocalVariable}
    (h : e.initialState method isStatic code maxLocals table maxStack = .ok s) :
    s.Consistent e.classes := by
  obtain ⟨hand, hacts⟩ := initialState_acts h
  exact hacts.keeps (P := fun s _ => s.Consistent e.classes) Act.consistent State.consistent_root

/-- Every state that steps and stores lead to from the start of an exploration is consistent. -/
theorem reachable_states_are_consistent (htriggers : e.triggers = .absent τ)
    {method : MethodSignature} {isStatic : Bool} {code : List UInt8} {maxLocals maxStack : Nat}
    {table : List LocalVariable}
    (hroot : e.initialState method isStatic code maxLocals table maxStack = .ok s)
    (h : e.Descends State.Store s t) :
    t.Consistent e.classes ∧
      (t.pathCondition.clauses.filterMap Clause.input?).Pairwise fun x y => x.2.1 < y.2.1 := by
  have hconsistent : t.Consistent e.classes :=
    h.keeps htriggers Act.consistent State.Consistent.store (consistent_initialState hroot)
  exact ⟨hconsistent, hconsistent.ascending⟩

/-- An input array is in both heaps after it was loaded, expanded and written to. -/
theorem written_input_array_is_consistent :
    let e := permissive .initial
    ∃ t, e.Descends State.Store arrayRoot t ∧ t.initialHeap.size = 1 ∧ t.Consistent e.classes ∧
      (t.pathCondition.clauses.filterMap Clause.input?).Pairwise fun x y => x.2.1 < y.2.1 := by
  intro e
  have hrun : (e.step (.loadLocal 0 1) arrayRoot).run (.start [] ()) = _ := rfl
  have hload : e.Descends State.Store arrayRoot _ := .step .refl hrun (.tail _ (.head _))
  have hwrite := hload.update
    (.arraySet (show (State.arraySet 1 (.ofInt 0) (.primitive (.ofInt 7))).run _ = _ from rfl))
  exact ⟨_, hwrite, rfl, reachable_states_are_consistent rfl initialState_arrayRoot hwrite⟩

end Engine

end SymbolicMachine
