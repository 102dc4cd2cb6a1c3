import SymbolicMachine.Proofs.Inputs.Loads
/-!
# Invariants of loads

Along loads the path condition agrees with the initial heap: the address that a clause binds an
object to holds an object of the class that the clause names, and is handed out to no other.  And
the references that can be loaded denote objects of fitting classes in every concrete input that
follows the path, because the symbols in the fields of an input object have the types that the
class declares.
-/
namespace SymbolicMachine

open SymbolicMachine.Action

variable {ω τ : Type}

namespace State

variable {e : Engine ω τ} {s t : State} {d : Decision}

/-- The path condition agrees with the initial heap, whose addresses are not handed out again. -/
structure Charted (s : State) : Prop where
  expanded : ∀ {r a c}, .expands r a c ∈ s.pathCondition.clauses →
    ∃ o, s.initialHeap.get a = .ok o ∧ o.className = c
  aliased : ∀ {r a}, .aliases r a ∈ s.pathCondition.clauses → a < s.heap.next
  inUse : ∀ {a o}, s.initialHeap.get a = .ok o → a < s.heap.next

/-- Clauses that bind no address, and alias no other than one that was handed out. -/
theorem Charted.extend (hs : s.Charted) (h : s.Mirrors t) {added : List Clause}
    (hclauses : t.pathCondition.clauses = s.pathCondition.clauses ++ added)
    (hexpands : ∀ r a c, .expands r a c ∉ added)
    (haliases : ∀ r a, .aliases r a ∈ added → a < s.heap.next) : t.Charted := by
  have hle := h.next
  constructor
  · intro r a c hr
    rw [hclauses] at hr
    rw [h.initialHeap]
    rcases List.mem_append.1 hr with hr | hr
    · exact hs.expanded hr
    · exact absurd hr (hexpands r a c)
  · intro r a hr
    rw [hclauses] at hr
    rcases List.mem_append.1 hr with hr | hr
    · have hlt := hs.aliased hr
      omega
    · have hlt := haliases r a hr
      omega
  · intro a o ho
    rw [h.initialHeap] at ho
    have hlt := hs.inUse ho
    omega

theorem Charted.mirrors (hs : s.Charted) (hpath : t.pathCondition = s.pathCondition)
    (h : s.Mirrors t) : t.Charted := by
  have hclauses : t.pathCondition.clauses = s.pathCondition.clauses ++ [] := by
    rw [hpath, List.append_nil]
  exact hs.extend h hclauses (fun _ _ _ => List.not_mem_nil)
    fun _ _ hr => absurd hr List.not_mem_nil

/-- A fresh object for a clause that binds its address, before clauses that bind none. -/
theorem Charted.withInput (hs : s.Charted) {object : HeapObject} {r : RefSymbol}
    {extra : List Clause}
    (hinitial : t.initialHeap = s.initialHeap.insertAt s.heap.next object)
    (hnext : s.heap.next < t.heap.next)
    (hclauses : t.pathCondition.clauses =
      s.pathCondition.clauses ++ .expands r s.heap.next object.className :: extra)
    (hextra : ∀ c ∈ extra, c.address? = none) : t.Charted := by
  constructor
  · intro r' a c hr'
    rw [hclauses] at hr'
    rw [hinitial]
    rcases List.mem_append.1 hr' with hr' | hr'
    · obtain ⟨o, ho, hclass⟩ := hs.expanded hr'
      have hlt := hs.inUse ho
      refine ⟨o, ?_, hclass⟩
      rw [Heap.get_insertAt_of_ne _ (by omega), ho]
    · rcases List.mem_cons.1 hr' with heq | hr'
      · cases heq
        exact ⟨object, Heap.get_insertAt_self _ _ _, rfl⟩
      · cases hextra _ hr'
  · intro r' a hr'
    rw [hclauses] at hr'
    rcases List.mem_append.1 hr' with hr' | hr'
    · have hlt := hs.aliased hr'
      omega
    · rcases List.mem_cons.1 hr' with heq | hr'
      · cases heq
      · cases hextra _ hr'
  · intro a o ho
    rw [hinitial] at ho
    rcases get_insertAt_cases ho with ⟨rfl, -⟩ | ho
    · exact hnext
    · have hlt := hs.inUse ho
      omega

theorem Charted.binds (hs : s.Charted) (r : RefSymbol) (c : String) :
    ObjectGraph.Binds s.pathCondition.clauses (.expands r s.heap.next c) := by
  intro r' a c' heq r'' hr''
  cases heq
  have hlt := hs.aliased hr''
  omega

theorem Charted.realizes (hs : s.Charted) (h : Engine.Realizes e s d t)
    (hd : ∀ r a, d = .aliases r a → ∃ o, s.initialHeap.get a = .ok o) : t.Charted := by
  cases h with
  | null hclauses h =>
    apply hs.extend h hclauses
    · intro r' a c hr'
      cases List.mem_singleton.1 hr'
    · intro r' a hr'
      cases List.mem_singleton.1 hr'
  | aliases hclauses h =>
    apply hs.extend h hclauses
    · intro r' a c hr'
      cases List.mem_singleton.1 hr'
    · intro r' a hr'
      cases List.mem_singleton.1 hr'
      obtain ⟨o, ho⟩ := hd _ _ rfl
      exact hs.inUse ho
  | @expands r c fields id object n extra _ hfields hobject hextra hclauses h =>
    have hclass := hobject.className_eq
    have hfresh : (s.withInput object).heap.next = s.heap.next + 1 := Heap.next_allocate _ _
    have hnext : (s.withInput object).heap.next ≤ t.heap.next := h.next
    apply hs.withInput h.initialHeap (by omega)
    · rw [hclauses, hclass]
    · intro d hd
      obtain ⟨_, _, _, rfl⟩ := hextra d hd
      rfl

end State

namespace ObjectGraph

variable {O : Type} {e : Engine ω τ} {g : ObjectGraph O} {I : Interpretation} {s t : State}
  {d : Decision}

/-- Whatever can be loaded denotes null or an object of a fitting class. -/
def FitsState (g : ObjectGraph O) (t : ClassTable) (s : State) : Prop :=
  ∀ r, s.Loadable r → g.Fits t r.staticType (g.content r)

/-- The field values of an object that was made for a reference stand for what is in the fields. -/
theorem stands_of_get?_create {r : RefSymbol} {fields : List FieldInfo} {id n : Nat}
    {values : List (String × Value)} (h : FieldsStand r fields id values n) {name : String}
    {v : Value} (hv : (OrderedMap.ofList values).get? name = some v) :
    ∃ descriptor k, (descriptors fields).get? name = some descriptor ∧
      Stands descriptor (.field r name) k v := by
  -- Both maps are filled in step, so that each value found belongs to the descriptor found.
  have hfold : ∀ (values' : OrderedMap String Value) (descriptors' : OrderedMap String String),
      (∀ name v, values'.get? name = some v → ∃ descriptor k,
        descriptors'.get? name = some descriptor ∧ Stands descriptor (.field r name) k v) →
      ∀ name v, (values.foldl (fun m b => m.insert b.1 b.2) values').get? name = some v →
        ∃ descriptor k,
          ((fields.map fun f => (f.name, f.descriptor)).foldl (fun m b => m.insert b.1 b.2)
            descriptors').get? name = some descriptor ∧ Stands descriptor (.field r name) k v := by
    clear hv
    induction h with
    | nil => exact fun _ _ hboth => hboth
    | @cons f _ id _ w _ hw _ ih =>
      intro values' descriptors' hboth
      apply ih
      intro name v hv
      by_cases heq : name = f.name
      · subst heq
        rw [OrderedMap.get?_insert_self] at hv ⊢
        cases hv
        exact ⟨f.descriptor, id, rfl, hw⟩
      · rw [OrderedMap.get?_insert_of_ne _ heq] at hv ⊢
        exact hboth name v hv
  exact hfold .empty .empty nofun name v hv

/-- The references in the fields of an object that was made for a reference fit. -/
theorem FitsFields.expansion {t : ClassTable} (hg : g.FitsFields t) {r r' : RefSymbol} {c : String}
    {fields : List FieldInfo} {id n : Nat} {object : HeapObject} {o : O}
    (hobject : Expansion r c fields id object n)
    (hfields : fields = [] ∨ t.instanceFields c = .ok fields) (ho : g.target r = some o)
    (hclass : g.classOf o = c) (hr' : object.Contains (.reference (.symbolic r'))) :
    g.Fits t r'.staticType (g.content r') := by
  cases hobject with
  | array _ =>
    obtain ⟨entry, hentry, -⟩ := hr'
    cases hentry
  | object _ hvalues =>
    obtain ⟨name, hname⟩ := hr'
    obtain ⟨descriptor, k, hdescriptor, hstands⟩ := stands_of_get?_create hvalues hname
    rcases hfields with rfl | hfields
    · cases hdescriptor
    · rw [← hclass] at hfields
      cases hstands with
      | reference hprim hstatic =>
        rw [target_field rfl ho]
        exact hg o fields name descriptor _ hfields hdescriptor hprim hstatic

theorem FitsState.mirrors {table : ClassTable} (hs : g.FitsState table s) (h : s.Mirrors t) :
    g.FitsState table t :=
  fun r hr => hs r (h.loadable hr)

theorem FitsState.realizes (hg : g.FitsFields e.classes) (hs : g.FitsState e.classes s)
    (h : Engine.Realizes e s d t) (hsat : g.Satisfies I t.pathCondition.clauses) :
    g.FitsState e.classes t := by
  cases h with
  | null _ h => exact hs.mirrors h
  | aliases _ h => exact hs.mirrors h
  | @expands r c _ _ object _ extra _ hfields hobject _ hclauses h =>
    have hmem : .expands r s.heap.next c ∈ t.pathCondition.clauses := by
      rw [hclauses]
      exact List.mem_append_right _ List.mem_cons_self
    obtain ⟨o, ho, hclass⟩ := hsat.expanded hmem
    intro r' hr'
    rcases h.loadable hr' with hlocal | ⟨a, p, hp, hr'⟩
    · exact hs r' (.inl hlocal)
    · rcases State.get_insertAt_cases hp with ⟨-, rfl⟩ | hp
      · exact hg.expansion hobject hfields ho hclass hr'
      · exact hs r' (.inr ⟨a, p, hp, hr'⟩)

end ObjectGraph

end SymbolicMachine
