import SymbolicMachine.Proofs.Acts.Act
import SymbolicMachine.Proofs.Terms.Symbols
/-!
# The values in a state

Whatever a state says of symbols and addresses, it says in values: those in its frames, those that
the objects of both heaps consist of, and those that its clauses and its ending speak of.  An act
leaves only values that were in the state or in hand, values that it makes of these, and new
symbols.  A new symbol is named for an input or for a member of an input array, or it fills the
object that a reference is expanded to.
-/
namespace SymbolicMachine

open SymbolicMachine.Action

variable {ω τ : Type}

/-! ## Values of the parts -/

/-- The origin of an object, what it contains, and for an array its length and its indices. -/
def HeapObject.values : HeapObject → List Value
  | .object i => i.origin.toList.map (fun r => .reference (.symbolic r)) ++ i.fields.values
  | .array a => a.origin.toList.map (fun r => .reference (.symbolic r)) ++ .primitive a.length ::
      a.entries.flatMap fun entry => [.primitive entry.index, entry.value]

/-- The addresses in a heap, and the values of the objects there. -/
def Heap.values (h : Heap) : List Value :=
  h.toList.flatMap fun b => .reference (.concrete b.1) :: b.2.values

def Frame.values (f : Frame) : List Value := f.operands.operands ++ f.locals.slots.filterMap id

def Clause.values : Clause → List Value
  | .assume t => [.primitive t]
  | .expands r a _ => [.reference (.symbolic r), .reference (.concrete a)]
  | .aliases r a => [.reference (.symbolic r), .reference (.concrete a)]
  | .isNull r => [.reference (.symbolic r)]
  | .initialized _ => []
  | .notInitialized _ => []

def Ending.values : Ending → List Value
  | .returned result => result.toList
  | .threw exception => [.reference exception]

namespace State

/-- The values in a state, but for the conditions that it assumes. -/
def values (s : State) : List Value :=
  s.frames.flatMap Frame.values ++ s.heap.values ++ s.initialHeap.values ++
    (s.pathCondition.clauses.filter fun c => c.reference?.isSome).flatMap Clause.values ++
    s.ending.toList.flatMap Ending.values

/-- The conditions that a state assumes. -/
def assumedValues (s : State) : List Value :=
  (s.pathCondition.clauses.filter fun c => c.reference?.isNone).flatMap Clause.values

end State

section Parts

variable {known : Value → Prop}

theorem HeapObject.forall_values_iff {o : HeapObject} :
    (∀ v ∈ o.values, known v) ↔
      (∀ r, o.origin = some r → known (.reference (.symbolic r))) ∧
      (∀ v, o.Contains v → known v) ∧
      ∀ a, o = .array a → known (.primitive a.length) ∧
        ∀ entry ∈ a.entries, known (.primitive entry.index) := by
  cases o with
  | object i =>
    have hvalues : (∀ v ∈ i.fields.values, known v) ↔
        ∀ v, (HeapObject.object i).Contains v → known v := by
      refine forall_congr' fun v => ?_
      have hmem : v ∈ i.fields.values ↔ (HeapObject.object i).Contains v := by
        unfold OrderedMap.values HeapObject.Contains
        simp [OrderedMap.mem_entries_iff]
      rw [hmem]
    simp only [values, List.forall_mem_append, List.forall_mem_map, Option.mem_toList, hvalues]
    simp only [reduceCtorEq, false_imp_iff, implies_true, and_true]
    rfl
  | array a =>
    have hentries : (∀ v ∈ a.entries.flatMap fun entry => [.primitive entry.index, entry.value],
        known v) ↔ ∀ entry ∈ a.entries, known (.primitive entry.index) ∧ known entry.value := by
      simp only [List.forall_mem_flatMap, List.forall_mem_cons, List.not_mem_nil,
        false_imp_iff, implies_true, and_true]
    simp only [values, List.forall_mem_append, List.forall_mem_map, List.forall_mem_cons,
      Option.mem_toList, hentries]
    constructor
    · rintro ⟨horigin, hlength, hentries⟩
      refine ⟨horigin, ?_, ?_⟩
      · rintro v ⟨entry, hentry, rfl⟩
        exact (hentries entry hentry).2
      · rintro b ⟨⟩
        exact ⟨hlength, fun entry hentry => (hentries entry hentry).1⟩
    · rintro ⟨horigin, hcontents, harray⟩
      obtain ⟨hlength, hindexes⟩ := harray a rfl
      exact ⟨horigin, hlength, fun entry hentry =>
        ⟨hindexes entry hentry, hcontents _ ⟨entry, hentry, rfl⟩⟩⟩

theorem HeapObject.forall_values_object {className : String} {origin : Option RefSymbol}
    {fields : List (String × Value)}
    (horigin : ∀ r, origin = some r → known (.reference (.symbolic r)))
    (hfields : ∀ b ∈ fields, known b.2) :
    ∀ v ∈ (HeapObject.object (.create className origin fields)).values, known v := by
  refine forall_values_iff.2 ⟨horigin, ?_, nofun⟩
  rintro v ⟨name, hname⟩
  exact hfields _ (State.mem_of_get?_ofList hname)

theorem HeapObject.forall_values_array {className : String} {origin : Option RefSymbol}
    {length : Term} (horigin : ∀ r, origin = some r → known (.reference (.symbolic r)))
    (hlength : known (.primitive length)) :
    ∀ v ∈ (HeapObject.array (.create className origin length)).values, known v := by
  refine forall_values_iff.2 ⟨horigin, ?_, ?_⟩
  · rintro v ⟨entry, hentry, -⟩
    cases hentry
  · rintro a ⟨⟩
    exact ⟨hlength, nofun⟩

/-- A write adds an index and a value. -/
theorem HeapObject.forall_values_set {a : ArrayObject} {index : Term} {w : Value}
    (ha : ∀ v ∈ (HeapObject.array a).values, known v) (hindex : known (.primitive index))
    (hw : known w) : ∀ v ∈ (HeapObject.array (a.set index w)).values, known v := by
  obtain ⟨horigin, hcontents, harray⟩ := forall_values_iff.1 ha
  obtain ⟨hlength, hindexes⟩ := harray a rfl
  have hentries : ∀ entry ∈ (a.set index w).entries,
      known (.primitive entry.index) ∧ known entry.value := by
    intro entry hentry
    rcases List.mem_append.1 hentry with hentry | hentry
    · have hmem := (List.mem_filter.1 hentry).1
      exact ⟨hindexes entry hmem, hcontents _ ⟨entry, hmem, rfl⟩⟩
    · cases List.mem_singleton.1 hentry
      exact ⟨hindex, hw⟩
  refine forall_values_iff.2 ⟨horigin, ?_, ?_⟩
  · rintro v ⟨entry, hentry, rfl⟩
    exact (hentries entry hentry).2
  · rintro b ⟨⟩
    exact ⟨hlength, fun entry hentry => (hentries entry hentry).1⟩

theorem Heap.forall_values_iff {h : Heap} :
    (∀ v ∈ h.values, known v) ↔
      ∀ a o, h.get a = .ok o → known (.reference (.concrete a)) ∧ ∀ v ∈ o.values, known v := by
  simp only [values, List.forall_mem_flatMap, List.forall_mem_cons, Prod.forall,
    Heap.mem_toList_iff]

theorem Heap.forall_values_insertAt {h : Heap} {a : Nat} {o : HeapObject}
    (hh : ∀ v ∈ h.values, known v) (ha : known (.reference (.concrete a)))
    (ho : ∀ v ∈ o.values, known v) : ∀ v ∈ (h.insertAt a o).values, known v := by
  rw [Heap.forall_values_iff] at hh ⊢
  intro b p hp
  rcases State.get_insertAt_cases hp with ⟨rfl, rfl⟩ | hp
  · exact ⟨ha, ho⟩
  · exact hh b p hp

theorem Frame.forall_values_iff {f : Frame} :
    (∀ v ∈ f.values, known v) ↔ (∀ v ∈ f.operands.operands, known v) ∧
      ∀ v, some v ∈ f.locals.slots → known v := by
  simp [values, or_imp, forall_and]

end Parts

/-! ## States of known values -/

namespace State

/-- Every value in a state and in a hand is known. -/
structure MadeOf (known : Value → Prop) (s : State) (hand : List Value) : Prop where
  frames : ∀ f ∈ s.frames, ∀ v ∈ f.values, known v
  heap : ∀ v ∈ s.heap.values, known v
  inputs : ∀ v ∈ s.initialHeap.values, known v
  targets : ∀ c ∈ s.pathCondition.clauses, c.reference?.isSome = true → ∀ v ∈ c.values, known v
  ending : ∀ x, s.ending = some x → ∀ v ∈ x.values, known v
  hand : ∀ v ∈ hand, known v

variable {known : Value → Prop} {s t : State} {hand : List Value}

theorem madeOf_iff : s.MadeOf known hand ↔ (∀ v ∈ s.values, known v) ∧ ∀ v ∈ hand, known v := by
  simp only [State.values, List.forall_mem_append, List.forall_mem_flatMap, List.mem_filter,
    and_imp, Option.mem_toList]
  constructor
  · intro h
    exact ⟨⟨⟨⟨⟨h.frames, h.heap⟩, h.inputs⟩, h.targets⟩, h.ending⟩, h.hand⟩
  · rintro ⟨⟨⟨⟨⟨hframes, hheap⟩, hinputs⟩, htargets⟩, hending⟩, hhand⟩
    exact ⟨hframes, hheap, hinputs, htargets, hending, hhand⟩

namespace MadeOf

theorem mono {known' : Value → Prop} (h : s.MadeOf known hand) (hle : ∀ v, known v → known' v) :
    s.MadeOf known' hand := by
  rw [madeOf_iff] at h ⊢
  exact ⟨fun v hv => hle v (h.1 v hv), fun v hv => hle v (h.2 v hv)⟩

theorem toState (h : s.MadeOf known hand) : s.MadeOf known [] := { h with hand := nofun }

theorem cons (h : s.MadeOf known hand) {v : Value} (hv : known v) : s.MadeOf known (v :: hand) :=
  { h with hand := List.forall_mem_cons.2 ⟨hv, h.hand⟩ }

theorem object (h : s.MadeOf known hand) {a : Nat} {o : HeapObject} (ho : s.heap.get a = .ok o) :
    known (.reference (.concrete a)) ∧ ∀ v ∈ o.values, known v :=
  Heap.forall_values_iff.1 h.heap a o ho

theorem origin (h : s.MadeOf known hand) {a : Nat} {o : HeapObject} {r : RefSymbol}
    (ho : s.heap.get a = .ok o) (hr : o.origin = some r) : known (.reference (.symbolic r)) :=
  (HeapObject.forall_values_iff.1 (h.object ho).2).1 r hr

theorem array (h : s.MadeOf known hand) {address : Nat} {a : ArrayObject}
    (ha : s.heap.get address = .ok (.array a)) :
    known (.primitive a.length) ∧ ∀ entry ∈ a.entries, known (.primitive entry.index) :=
  (HeapObject.forall_values_iff.1 (h.object ha).2).2.2 a rfl

theorem shows (h : s.MadeOf known hand) {v : Value} (hv : s.Shows v) : known v := by
  cases hv with
  | operand hf hv => exact (Frame.forall_values_iff.1 (h.frames _ hf)).1 v hv
  | slot hf hv => exact (Frame.forall_values_iff.1 (h.frames _ hf)).2 v hv
  | content ho hv => exact (HeapObject.forall_values_iff.1 (h.object ho).2).2.1 v hv
  | length ha => exact (h.array ha).1

theorem withFrame (h : s.MadeOf known hand) {f g : Frame} {rest : List Frame}
    (hframes : s.frames = f :: rest) (hg : ∀ v ∈ g.values, known v) :
    (s.withFrames (g :: rest)).MadeOf known hand :=
  { h with
    frames := by
      rintro f' (_ | ⟨_, hf'⟩)
      · exact hg
      · exact h.frames f' (hframes ▸ List.mem_cons_of_mem _ hf') }

theorem allocate (h : s.MadeOf known hand) {o : HeapObject}
    (hnext : known (.reference (.concrete s.heap.next))) (ho : ∀ v ∈ o.values, known v) :
    (s.withHeap (s.heap.allocate o).2).MadeOf known hand :=
  { h with heap := Heap.forall_values_insertAt h.heap hnext ho }

theorem withInput (h : s.MadeOf known hand) {o : HeapObject}
    (hnext : known (.reference (.concrete s.heap.next))) (ho : ∀ v ∈ o.values, known v) :
    (s.withInput o).MadeOf known hand :=
  { h.allocate hnext ho with inputs := Heap.forall_values_insertAt h.inputs hnext ho }

theorem withPath (h : s.MadeOf known hand) {p : PathCondition} {c : Clause}
    (hp : s.pathCondition.push c = .ok p)
    (hc : c.reference?.isSome = true → ∀ v ∈ c.values, known v) :
    (s.withPath p).MadeOf known hand :=
  { h with
    targets := by
      intro d hd
      change d ∈ p.clauses at hd
      rw [PathCondition.clauses_of_push hp] at hd
      rcases List.mem_append.1 hd with hd | hd
      · exact h.targets d hd
      · cases List.mem_singleton.1 hd
        exact hc }

theorem record (h : s.MadeOf known hand) {address : Nat} {index : Term} {v : Value} {k : Heap}
    (hindex : .primitive index ∈ hand) (hv : v ∈ hand)
    (hset : s.heap.arraySet address index v = .ok k) : (s.withHeap k).MadeOf known hand := by
  obtain ⟨a, ha, heq⟩ := bind_eq_ok.1 hset
  cases heq
  obtain ⟨haddress, hvalues⟩ := h.object (Heap.getArray_eq_ok.1 ha)
  have hwritten := HeapObject.forall_values_set hvalues (h.hand _ hindex) (h.hand _ hv)
  exact { h with heap := Heap.forall_values_insertAt h.heap haddress hwritten }

/-- All clauses are about known values if those that are assumed are. -/
theorem clauses (h : s.MadeOf known hand) (hassumed : ∀ v ∈ s.assumedValues, known v) :
    ∀ c ∈ s.pathCondition.clauses, ∀ v ∈ c.values, known v := by
  intro c hc v hv
  cases hr : c.reference? with
  | some r => exact h.targets c hc (by rw [hr]; rfl) v hv
  | none =>
    have hmem : c ∈ s.pathCondition.clauses.filter fun c => c.reference?.isNone :=
      List.mem_filter.2 ⟨hc, by rw [hr]; rfl⟩
    exact hassumed v (List.mem_flatMap.2 ⟨c, hmem, hv⟩)

end MadeOf

theorem forall_assumed_withPath {p : PathCondition} {c : Clause}
    (hs : ∀ v ∈ s.assumedValues, known v) (hp : s.pathCondition.push c = .ok p)
    (hc : c.reference?.isNone = true → ∀ v ∈ c.values, known v) :
    ∀ v ∈ (s.withPath p).assumedValues, known v := by
  intro v hv
  obtain ⟨d, hd, hv⟩ := List.mem_flatMap.1 hv
  obtain ⟨hd, hnone⟩ := List.mem_filter.1 hd
  change d ∈ p.clauses at hd
  rw [PathCondition.clauses_of_push hp] at hd
  rcases List.mem_append.1 hd with hd | hd
  · exact hs v (List.mem_flatMap.2 ⟨d, List.mem_filter.2 ⟨hd, hnone⟩, hv⟩)
  · cases List.mem_singleton.1 hd
    exact hc hnone v hv

end State

/-! ## New symbols -/

/-- A symbol stands for a field or for the length of an object, as its origin says. -/
inductive HeapObject.Fills (o : HeapObject) (r : RefSymbol) (x : Atom) : Prop
  | field {name : String} (horigin : x.origin = .field r name)
      (hfield : o.getField name = .ok x.value)
  | length {a : ArrayObject} (horigin : x.origin = .length r) (ha : o = .array a)
      (hlength : x.value = .primitive a.length)

theorem HeapObject.Fills.container_eq {o : HeapObject} {r : RefSymbol} {x : Atom}
    (h : o.Fills r x) : x.origin.container? = some r := by
  cases h with
  | field horigin _ | length horigin _ _ => rw [horigin]; rfl

theorem HeapObject.Fills.atoms_eq {o : HeapObject} {r : RefSymbol} {x : Atom} (h : o.Fills r x) :
    x.origin.atoms = r.atoms := by
  cases h with
  | field horigin _ => rw [horigin, Origin.atoms_field]
  | length horigin _ _ => rw [horigin, Origin.atoms_length]

theorem Atom.value_injective {x y : Atom} (h : x.value = y.value) : x = y := by
  cases x <;> cases y <;> cases h <;> rfl

theorem Stands.exists_atom {descriptor : String} {origin : Origin} {id : Nat} {v : Value}
    (h : Stands descriptor origin id v) :
    ∃ x : Atom, v = x.value ∧ x.id = id ∧ x.origin = origin := by
  cases h with
  | @primitive t _ => exact ⟨.primitive ⟨id, t, origin⟩, rfl, rfl, rfl⟩
  | @reference c _ _ => exact ⟨.reference ⟨id, c, origin⟩, rfl, rfl, rfl⟩

section Fields

variable {r : RefSymbol} {fields : List FieldInfo} {id n : Nat} {values : List (String × Value)}

theorem FieldsStand.exists_atom (h : FieldsStand r fields id values n) {b : String × Value}
    (hb : b ∈ values) :
    ∃ x : Atom, b.2 = x.value ∧ x.origin = .field r b.1 ∧ id ≤ x.id ∧ x.id < n := by
  induction h with
  | nil => cases hb
  | @cons f _ id n _ _ hv hvalues ih =>
    have hle := hvalues.le
    rcases List.mem_cons.1 hb with rfl | hb
    · obtain ⟨x, hx, hid, horigin⟩ := hv.exists_atom
      exact ⟨x, hx, horigin, by omega, by omega⟩
    · obtain ⟨x, hx, horigin, hge, hlt⟩ := ih hb
      exact ⟨x, hx, horigin, by omega, hlt⟩

/-- Two fields have symbols with different numbers. -/
theorem FieldsStand.eq_of_id_eq (h : FieldsStand r fields id values n) {b c : String × Value}
    (hb : b ∈ values) (hc : c ∈ values) {x y : Atom} (hx : b.2 = x.value) (hy : c.2 = y.value)
    (heq : x.id = y.id) : x = y := by
  have hhead : ∀ {f : FieldInfo} {id : Nat} {v : Value} {x : Atom},
      Stands f.descriptor (.field r f.name) id v → v = x.value → x.id = id := by
    intro f id v x hv hx
    obtain ⟨z, hz, hid, -⟩ := hv.exists_atom
    rw [← hid, Atom.value_injective (hx.symm.trans hz)]
  have htail : ∀ {fields : List FieldInfo} {id n : Nat} {values : List (String × Value)}
      {b : String × Value} {x : Atom}, FieldsStand r fields id values n → b ∈ values →
        b.2 = x.value → id ≤ x.id := by
    intro fields id n values b x hvalues hb hx
    obtain ⟨z, hz, -, hge, -⟩ := hvalues.exists_atom hb
    rwa [Atom.value_injective (hx.symm.trans hz)]
  induction h with
  | nil => cases hb
  | cons hv hvalues ih =>
    rcases List.mem_cons.1 hb with rfl | hb <;> rcases List.mem_cons.1 hc with rfl | hc
    · exact Atom.value_injective (hx.symm.trans hy)
    · have hid := hhead hv hx
      have hge := htail hvalues hc hy
      omega
    · have hid := hhead hv hy
      have hge := htail hvalues hb hx
      omega
    · exact ih hb hc

end Fields

namespace Expansion

variable {r : RefSymbol} {className : String} {fields : List FieldInfo} {id n : Nat}
  {o : HeapObject} {x y : Atom} {v : Value}

/-- The object that a reference is bound to consists of the reference and of symbols that fill
it. -/
theorem values_cases (h : Expansion r className fields id o n) :
    ∀ v ∈ o.values, v = .reference (.symbolic r) ∨ ∃ x, o.Fills r x ∧ v = x.value := by
  have hr : ∀ r', some r = some r' → Value.reference (.symbolic r') = .reference (.symbolic r) := by
    rintro r' ⟨⟩
    rfl
  cases h with
  | array _ =>
    refine HeapObject.forall_values_array (fun r' hr' => .inl (hr r' hr')) (.inr ?_)
    exact ⟨.primitive ⟨id, .int, .length r⟩, .length rfl rfl rfl, rfl⟩
  | @object values _ _ hvalues =>
    refine HeapObject.forall_values_iff.2 ⟨fun r' hr' => .inl (hr r' hr'), ?_, nofun⟩
    rintro w ⟨name, hname⟩
    have hget : (OrderedMap.ofList values).get? name = some w := hname
    obtain ⟨x, hx, horigin, -⟩ := hvalues.exists_atom (State.mem_of_get?_ofList hname)
    refine .inr ⟨x, .field horigin ?_, hx⟩
    rw [← hx]
    simp only [HeapObject.getField, Instance.getField, Instance.create, hget]

theorem mem_of_getField {values : List (String × Value)} {name : String}
    (h : (HeapObject.object (.create className (some r) values)).getField name = .ok v) :
    (name, v) ∈ values := by
  unfold HeapObject.getField Instance.getField at h
  dsimp only at h
  split at h
  · rename_i w hw
    cases h
    exact State.mem_of_get?_ofList hw
  · cases h

theorem id_range (h : Expansion r className fields id o n) (hx : o.Fills r x) :
    id ≤ x.id ∧ x.id < n := by
  cases h with
  | array _ =>
    cases hx with
    | field _ hfield => cases hfield
    | length _ ha hlength =>
      cases ha
      cases Atom.value_injective (y := .primitive ⟨id, .int, .length r⟩) hlength
      exact ⟨Nat.le_refl _, Nat.lt_succ_self _⟩
  | object _ hvalues =>
    cases hx with
    | field _ hfield =>
      obtain ⟨y, hy, -, hrange⟩ := hvalues.exists_atom (mem_of_getField hfield)
      rwa [Atom.value_injective hy]
    | length _ ha _ => cases ha

theorem eq_of_id_eq (h : Expansion r className fields id o n) (hx : o.Fills r x)
    (hy : o.Fills r y) (heq : x.id = y.id) : x = y := by
  cases h with
  | array _ =>
    cases hx with
    | field _ hfield => cases hfield
    | length _ ha hlength =>
      cases hy with
      | field _ hfield => cases hfield
      | length _ ha' hlength' =>
        cases ha
        cases ha'
        exact Atom.value_injective (hlength.trans hlength'.symm)
  | object _ hvalues =>
    cases hx with
    | length _ ha _ => cases ha
    | field _ hfield =>
      cases hy with
      | length _ ha _ => cases ha
      | field _ hfield' =>
        exact hvalues.eq_of_id_eq (mem_of_getField hfield) (mem_of_getField hfield') rfl rfl heq

end Expansion

/-! ## Acts -/

namespace Engine

/-- A value that an act makes of what is in hand, or the address of a new object. -/
inductive Makes (s : State) (hand : List Value) : Value → Prop
  | plain {v : Value} (hv : v.IsPlain) : Makes s hand v
  | widened {v w : Value} (hv : v ∈ hand) (hw : v.widen = .ok w) : Makes s hand w
  | applied {type : PrimType} {name : String} {args : List Term}
      (hargs : ∀ a ∈ args, .primitive a ∈ hand) :
      Makes s hand (.primitive (.application type name args))
  | address : Makes s hand (.reference (.concrete s.heap.next))

/-- A new symbol, which an act takes in hand or fills an input object with. -/
inductive Creates (s : State) (hand : List Value) (t : State) (hand' : List Value) (x : Atom) : Prop
  | named (hid : x.id = s.nextSymbol) (horigin : s.Names hand x.origin)
      (ht : t = s.withSymbols (s.nextSymbol + 1)) (hhand : hand' = x.value :: hand)
  | filled {r : RefSymbol} {className : String} {fields : List FieldInfo} {object : HeapObject}
      {n : Nat} {p : PathCondition} (hr : .reference (.symbolic r) ∈ hand)
      (hobject : Expansion r className fields s.nextSymbol object n) (hx : object.Fills r x)
      (hp : s.pathCondition.push (.expands r s.heap.next className) = .ok p)
      (ht : t = ((s.withSymbols n).withInput object).withPath p) (hhand : hand' = hand)

variable {e : Engine ω τ} {known : Value → Prop} {s t : State} {hand hand' : List Value}

/-- What an act makes speaks of symbols in hand only. -/
theorem Makes.speaksOf {known : Atom → Prop} (hhand : ∀ v ∈ hand, v.SpeaksOf known) {v : Value}
    (hv : Makes s hand v) : v.SpeaksOf known := by
  cases hv with
  | plain hv => cases hv <;> exact nofun
  | widened hv hw => exact (hhand _ hv).widen hw
  | applied hargs =>
    refine Value.speaksOf_primitive.2 (Term.speaksOf_application fun a ha => ?_)
    exact Value.speaksOf_primitive.1 (hhand _ (hargs a ha))
  | address => exact nofun

namespace Creates

variable {x y : Atom}

/-- The origin of a new symbol speaks of symbols in the state and in hand only. -/
theorem origin_known {known : Atom → Prop} (h : s.MadeOf (Value.SpeaksOf known) hand)
    (hx : Creates s hand t hand' x) : ∀ y ∈ x.origin.atoms, known y := by
  cases hx with
  | named _ horigin _ _ =>
    generalize x.origin = origin at horigin
    cases horigin with
    | root _ => exact nofun
    | member ha hcontainer hindex =>
      rw [Origin.atoms_member]
      exact List.forall_mem_append.2 ⟨h.origin ha hcontainer, h.hand _ hindex⟩
  | filled hr _ hx _ _ _ =>
    rw [hx.atoms_eq]
    exact h.hand _ hr

theorem id_range (h : Creates s hand t hand' x) : s.nextSymbol ≤ x.id ∧ x.id < t.nextSymbol := by
  cases h with
  | named hid _ ht _ =>
    subst ht
    exact ⟨Nat.le_of_eq hid.symm, Nat.lt_succ_of_le (Nat.le_of_eq hid)⟩
  | filled _ hobject hx _ ht _ =>
    subst ht
    exact hobject.id_range hx

/-- The new symbols of one act have different numbers. -/
theorem eq_of_id_eq (hx : Creates s hand t hand' x) (hy : Creates s hand t hand' y)
    (heq : x.id = y.id) : x = y := by
  have hne : ∀ {v : Value} {hand : List Value}, hand ≠ v :: hand := fun h =>
    absurd (congrArg List.length h) (Nat.ne_of_lt (Nat.lt_succ_self _))
  cases hx with
  | named _ _ _ hhand =>
    cases hy with
    | named _ _ _ hhand' =>
      exact Atom.value_injective (List.cons.inj (hhand.symm.trans hhand')).1
    | filled _ _ _ _ _ hhand' => exact absurd (hhand'.symm.trans hhand) hne
  | @filled r _ _ object _ _ _ hobject hx _ ht hhand =>
    cases hy with
    | named _ _ _ hhand' => exact absurd (hhand.symm.trans hhand') hne
    | @filled r' _ _ object' _ _ _ hobject' hy _ ht' _ =>
      -- Both symbols fill the object at the address that the act took.
      have hget : t.initialHeap.get s.heap.next = .ok object := by
        subst ht
        exact Heap.get_insertAt_self _ _ _
      have hget' : t.initialHeap.get s.heap.next = .ok object' := by
        subst ht'
        exact Heap.get_insertAt_self _ _ _
      cases hget.symm.trans hget'
      cases hobject.origin_eq.symm.trans hobject'.origin_eq
      exact hobject.eq_of_id_eq hx hy heq

end Creates

theorem forall_values_blank {o : HeapObject} (ho : o.IsBlank hand) (hhand : ∀ v ∈ hand, known v)
    (hmakes : ∀ v, Makes s hand v → known v) : ∀ v ∈ o.values, known v := by
  cases ho with
  | object hfields =>
    exact HeapObject.forall_values_object nofun fun b hb => hmakes _ (.plain (hfields b hb))
  | array hlength _ => exact HeapObject.forall_values_array nofun (hhand _ hlength)

/-- After an act there are only values that were there before, values that it makes and new
symbols. -/
theorem Act.madeOf (hact : Act e s hand t hand') (h : s.MadeOf known hand)
    (hmakes : ∀ v, Makes s hand v → known v)
    (hcreates : ∀ x, Creates s hand t hand' x → known x.value) : t.MadeOf known hand' := by
  cases hact with
  | take hv => exact h.cons (h.shows hv)
  | make hv => exact h.cons (hmakes _ (.plain hv))
  | widen hv hw => exact h.cons (hmakes _ (.widened hv hw))
  | apply hargs => exact h.cons (hmakes _ (.applied hargs))
  | @drop below f rest v hframes hoperands =>
    have hf := Frame.forall_values_iff.1 (h.frames f (hframes ▸ List.mem_cons_self))
    rw [hoperands] at hf
    exact h.withFrame hframes
      (Frame.forall_values_iff.2 ⟨fun w hw => hf.1 w (List.mem_cons_of_mem _ hw), hf.2⟩)
  | @push f rest v hv hframes _ =>
    have hf := Frame.forall_values_iff.1 (h.frames f (hframes ▸ List.mem_cons_self))
    exact h.withFrame hframes
      (Frame.forall_values_iff.2 ⟨List.forall_mem_cons.2 ⟨h.hand v hv, hf.1⟩, hf.2⟩)
  | @jump f rest pc hframes _ =>
    exact h.withFrame hframes (h.frames f (hframes ▸ List.mem_cons_self))
  | @enter f hoperands hlocals =>
    have hf : ∀ v ∈ f.values, known v := by
      rw [Frame.forall_values_iff, hoperands]
      exact ⟨nofun, fun v hv => h.hand v (hlocals v hv)⟩
    exact { h with frames := List.forall_mem_cons.2 ⟨hf, h.frames⟩ }
  | place _ _ => exact { h with }
  | @namePrimitive type origin horigin =>
    have hx := hcreates (.primitive ⟨s.nextSymbol, type, origin⟩) (.named rfl horigin rfl rfl)
    exact { h.cons hx with }
  | @nameReference staticType origin horigin =>
    have hx := hcreates (.reference ⟨s.nextSymbol, staticType, origin⟩) (.named rfl horigin rfl rfl)
    exact { h.cons hx with }
  | skip _ => exact { h with }
  | allocate hobject =>
    have haddress := hmakes _ .address
    exact (h.allocate haddress (forall_values_blank hobject h.hand hmakes)).cons haddress
  | record hv hindex _ hset => exact h.record hindex hv hset
  | throw className =>
    have hempty : ∀ v ∈ (HeapObject.object (.create className none [])).values, known v := nofun
    have haddress := hmakes _ .address
    exact { h.allocate haddress hempty with
      ending := by
        rintro x ⟨⟩
        exact List.forall_mem_singleton.2 haddress }
  | assume _ _ hp => exact h.withPath hp nofun
  | isNull hr hp => exact h.withPath hp fun _ => List.forall_mem_singleton.2 (h.hand _ hr)
  | aliases hr ho _ hp =>
    refine h.withPath hp fun _ => List.forall_mem_cons.2 ⟨h.hand _ hr, ?_⟩
    exact List.forall_mem_singleton.2 (Heap.forall_values_iff.1 h.inputs _ _ ho).1
  | @expands r className fields object n p hr _ _ hobject hp =>
    have haddress := hmakes _ .address
    have hvalues : ∀ v ∈ object.values, known v := by
      intro v hv
      rcases hobject.values_cases v hv with rfl | ⟨x, hx, rfl⟩
      · exact h.hand _ hr
      · exact hcreates x (.filled hr hobject hx hp rfl rfl)
    have hsymbols : (s.withSymbols n).MadeOf known hand := { h with }
    refine (hsymbols.withInput haddress hvalues).withPath hp fun _ => ?_
    exact List.forall_mem_cons.2 ⟨h.hand _ hr, List.forall_mem_singleton.2 haddress⟩
  | initialized _ hc hp => exact h.withPath hp (by rcases hc with rfl | rfl <;> exact nofun)

/-! ## Assumed conditions -/

/-- After an act the assumed conditions are those that were there, and one that may be assumed. -/
theorem Act.forall_assumed (hact : Act e s hand t hand') (hs : ∀ v ∈ s.assumedValues, known v)
    (hassumes : ∀ condition, e.Assumable s hand condition → known (.primitive condition)) :
    ∀ v ∈ t.assumedValues, known v := by
  cases hact with
  | take _ | make _ | widen _ _ | apply _ => exact hs
  | drop _ _ | push _ _ _ | jump _ _ | enter _ _ | place _ _ => exact hs
  | namePrimitive _ | nameReference _ | skip _ => exact hs
  | allocate _ | record _ _ _ _ | throw _ => exact hs
  | assume hcondition _ hp =>
    exact State.forall_assumed_withPath hs hp fun _ =>
      List.forall_mem_singleton.2 (hassumes _ hcondition)
  | isNull _ hp | aliases _ _ _ hp => exact State.forall_assumed_withPath hs hp nofun
  | @expands _ _ _ object n p _ _ _ _ hp =>
    exact State.forall_assumed_withPath (s := (s.withSymbols n).withInput object) hs hp nofun
  | initialized _ hc hp =>
    refine State.forall_assumed_withPath hs hp fun _ => ?_
    rcases hc with rfl | rfl <;> exact nofun

/-- A condition that may be assumed speaks of the symbols in the state and in hand, if the
simplifications of the oracle bring in no others. -/
theorem Assumable.speaksOf {known : Atom → Prop} {condition : Term}
    (h : s.MadeOf (Value.SpeaksOf known) hand)
    (hsimplify : ∀ condition simpler w w' w'',
      (e.oracle.set s.pathCondition.clauses).run w = (.ok (), w') →
      (e.oracle.simplify condition).run w' = (.ok simpler, w'') →
      condition.SpeaksOf known → simpler.SpeaksOf known)
    (hcondition : e.Assumable s hand condition) : condition.SpeaksOf known := by
  have hzero : (Term.ofInt 0).SpeaksOf known := Term.speaksOf_constant _
  have hhand : ∀ {t : Term}, .primitive t ∈ hand → t.SpeaksOf known := fun ht => h.hand _ ht
  cases hcondition with
  | guard ha hindex hget houtcome =>
    obtain ⟨hlength, hindices⟩ := h.array ha
    exact ArrayObject.speaksOf_guard (hhand hindex) hlength hindices hget _ houtcome
  | negative hlength hcondition =>
    exact Term.speaksOf_applyBinary (hhand hlength) hzero hcondition
  | nonnegative hlength hcondition =>
    exact Term.speaksOf_applyBinary (hhand hlength) hzero hcondition
  | simplified hlength hcondition hset hrun =>
    have hplain := Term.speaksOf_applyBinary (hhand hlength) hzero hcondition
    exact hsimplify _ _ _ _ _ hset hrun hplain

end Engine

end SymbolicMachine
