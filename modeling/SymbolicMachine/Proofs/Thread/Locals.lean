import Mathlib.Data.List.Induction
import Mathlib.Data.List.TakeWhile
import SymbolicMachine.Thread.Locals
/-!
# Local variables as intervals of slots

A value in the local variables fills an interval of slots: the slot that it was written to, and the
one above if it is wide.  A write takes away the values whose intervals it meets and no others, so
that after any calls a slot holds the value of the last write that succeeded there, unless a later
one met its interval.  The writes that succeed are those that fit the area and the table; this does
not depend on what was written before, so the writes of a sequence of calls are known without
running it.
-/
namespace SymbolicMachine

theorem Value.slots_eq (v : Value) :
    v.isNarrow = true ∧ v.slots = 1 ∨ v.isNarrow = false ∧ v.slots = 2 := by
  unfold slots
  cases v.isNarrow
  · exact .inr ⟨rfl, rfl⟩
  · exact .inl ⟨rfl, rfl⟩

theorem Value.slots_pos (v : Value) : 0 < v.slots := by
  rcases v.slots_eq with ⟨-, h⟩ | ⟨-, h⟩ <;> omega

/-! ## Writes and their intervals -/

/-- The write of a value at a slot, made at a program counter. -/
structure LocalWrite where
  slot : Nat
  pc : Nat
  value : Value

namespace LocalWrite

variable {size : Nat} {table : List LocalVariable} {u w x : LocalWrite} {writes : List LocalWrite}

/-- The first slot behind the interval that the value fills. -/
def stop (w : LocalWrite) : Nat := w.slot + w.value.slots

/-- The intervals of two writes have a slot in common. -/
def Meets (u w : LocalWrite) : Prop :=
  ∃ slot, u.slot ≤ slot ∧ slot < u.stop ∧ w.slot ≤ slot ∧ slot < w.stop

/-- The value fits one of the rows of a table that cover the slot, if there are any. -/
def Typed (table : List LocalVariable) (w : LocalWrite) : Prop :=
  (∃ row ∈ table, row.slot = w.slot ∧ row.covers w.pc = true) →
    ∃ row ∈ table, row.slot = w.slot ∧ row.covers w.pc = true ∧
      w.value.conformsTo row.descriptor = true

/-- The interval is inside an area, and the table lets the value be written. -/
def Allowed (size : Nat) (table : List LocalVariable) (w : LocalWrite) : Prop :=
  w.stop ≤ size ∧ w.Typed table

instance (size : Nat) (table : List LocalVariable) : DecidablePred (Allowed size table) :=
  fun w => by
    unfold Allowed Typed
    infer_instance

/-- A write is the last one at its slot, and no later one meets its interval. -/
def Remains (writes : List LocalWrite) (w : LocalWrite) : Prop :=
  ∃ before after, writes = before ++ w :: after ∧
    (∀ u ∈ after, u.slot ≠ w.slot) ∧ ∀ u ∈ after, ¬u.Meets w

theorem slot_lt_stop (w : LocalWrite) : w.slot < w.stop :=
  Nat.lt_add_of_pos_right w.value.slots_pos

theorem meets_iff : u.Meets w ↔ u.slot < w.stop ∧ w.slot < u.stop := by
  have hu := u.slot_lt_stop
  have hw := w.slot_lt_stop
  constructor
  · rintro ⟨slot, h₁, h₂, h₃, h₄⟩
    exact ⟨Nat.lt_of_le_of_lt h₁ h₄, Nat.lt_of_le_of_lt h₃ h₂⟩
  · rintro ⟨h₁, h₂⟩
    exact ⟨max u.slot w.slot, Nat.le_max_left .., Nat.max_lt.2 ⟨hu, h₂⟩, Nat.le_max_right ..,
      Nat.max_lt.2 ⟨h₁, hw⟩⟩

theorem Meets.symm (h : u.Meets w) : w.Meets u :=
  meets_iff.2 (meets_iff.1 h).symm

theorem meets_of_slot_eq (h : u.slot = w.slot) : u.Meets w :=
  meets_iff.2 ⟨h ▸ w.slot_lt_stop, h ▸ u.slot_lt_stop⟩

/-- Of the writes before it, one more write leaves those that it does not meet. -/
theorem remains_concat : Remains (writes ++ [u]) w ↔ w = u ∨ Remains writes w ∧ ¬u.Meets w := by
  constructor
  · rintro ⟨before, after, heq, hslots, hmeets⟩
    rcases after.eq_nil_or_concat with rfl | ⟨middle, x, rfl⟩
    · exact .inl (List.append_singleton_inj.1 heq).2.symm
    · rw [List.concat_eq_append, ← List.cons_append, ← List.append_assoc] at heq
      obtain ⟨rfl, rfl⟩ := List.append_singleton_inj.1 heq
      simp only [List.concat_eq_append, List.forall_mem_append, List.forall_mem_singleton]
        at hslots hmeets
      exact .inr ⟨⟨before, middle, rfl, hslots.1, hmeets.1⟩, hmeets.2⟩
  · rintro (rfl | ⟨⟨before, after, rfl, hslots, hmeets⟩, hu⟩)
    · exact ⟨writes, [], rfl, nofun, nofun⟩
    · refine ⟨before, after ++ [u], by simp, ?_, ?_⟩
      · refine List.forall_mem_append.2 ⟨hslots, List.forall_mem_singleton.2 fun hslot => ?_⟩
        exact hu (meets_of_slot_eq hslot)
      · exact List.forall_mem_append.2 ⟨hmeets, List.forall_mem_singleton.2 hu⟩

theorem Remains.mem (h : Remains writes w) : w ∈ writes := by
  obtain ⟨before, after, rfl, -⟩ := h
  exact List.mem_append_right _ List.mem_cons_self

/-- The intervals of two writes that remain are the same or have no slot in common. -/
theorem Remains.disjoint (hw : Remains writes w) (hx : Remains writes x) :
    w = x ∨ ¬w.Meets x := by
  induction writes using List.reverseRecOn with
  | nil =>
    obtain ⟨before, after, heq, -⟩ := hw
    cases before <;> cases heq
  | append_singleton writes u ih =>
    rcases remains_concat.1 hw with rfl | ⟨hw, hwu⟩ <;>
      rcases remains_concat.1 hx with rfl | ⟨hx, hxu⟩
    · exact .inl rfl
    · exact .inr hxu
    · exact .inr fun h => hwu h.symm
    · exact ih hw hx

end LocalWrite

/-! ## Calls and their writes -/

/-- The writes of values one behind the other from a slot on, at the start of the code. -/
def argumentWrites (slot : Nat) : List Value → List LocalWrite
  | [] => []
  | v :: rest => ⟨slot, 0, v⟩ :: argumentWrites (slot + v.slots) rest

/-- The first writes of a list, up to one that is not allowed. -/
def allowedWrites (size : Nat) (table : List LocalVariable) (writes : List LocalWrite) :
    List LocalWrite :=
  writes.takeWhile fun w => w.Allowed size table

/-- A call that writes local variables. -/
inductive LocalsCall where
  /-- Writes a value at a slot, at a program counter. -/
  | set (slot pc : Nat) (v : Value)
  /-- Writes the arguments of a method. -/
  | setArgs (args : List Value)

namespace LocalsCall

/-- The outcome of a call, and the area that it leaves behind. -/
def run (l : Locals) : LocalsCall → Except MemoryError Unit × Locals
  | set slot pc v =>
    match l.set slot pc v with
    | .ok m => (.ok (), m)
    | .error e => (.error e, l)
  | setArgs args => l.setArgs args

theorem run_set_of_ok {l m : Locals} {slot pc : Nat} {v : Value} (h : l.set slot pc v = .ok m) :
    (set slot pc v).run l = (.ok (), m) := by
  simp only [run, h]

theorem run_set_of_error {l : Locals} {slot pc : Nat} {v : Value} {e : MemoryError}
    (h : l.set slot pc v = .error e) : (set slot pc v).run l = (.error e, l) := by
  simp only [run, h]

/-- The writes that a call sets out to make. -/
def writes : LocalsCall → List LocalWrite
  | set slot pc v => [⟨slot, pc, v⟩]
  | setArgs args => argumentWrites 0 args

/-- The area after a sequence of calls, those that fail included. -/
def runAll (l : Locals) (calls : List LocalsCall) : Locals :=
  calls.foldl (fun l call => (call.run l).2) l

/-- The writes that succeed in a sequence of calls, in order. -/
def allWrites (size : Nat) (table : List LocalVariable) (calls : List LocalsCall) :
    List LocalWrite :=
  calls.flatMap fun call => allowedWrites size table call.writes

theorem allowed_of_mem_allWrites {size : Nat} {table : List LocalVariable}
    {calls : List LocalsCall} {w : LocalWrite} (hw : w ∈ allWrites size table calls) :
    w.Allowed size table := by
  obtain ⟨call, -, hw⟩ := List.mem_flatMap.1 hw
  exact of_decide_eq_true
    (List.mem_takeWhile_imp (p := fun u : LocalWrite => decide (u.Allowed size table)) hw)

end LocalsCall

/-! ## One write -/

namespace Locals

variable {l m : Locals} {slots : List (Option Value)} {slot pc i : Nat} {v x : Value}
  {size : Nat} {table : List LocalVariable} {writes : List LocalWrite}

/-- Clearing a slot leaves the values in the others. -/
theorem getElem?_clear {j : Nat} :
    (slots.set j none)[i]? = some (some x) ↔ slots[i]? = some (some x) ∧ i ≠ j := by
  by_cases hij : i = j
  · subst hij
    rw [List.getElem?_set_self']
    cases slots[i]? <;> simp
  · rw [List.getElem?_set_ne (Ne.symm hij)]
    simp [hij]

theorem isWideAt_iff :
    isWideAt slots i = true ↔ ∃ x, slots[i]? = some (some x) ∧ x.isNarrow = false := by
  unfold isWideAt
  split
  · rename_i x hx
    simp [hx]
  · rename_i hnone
    simp only [Bool.false_eq_true, false_iff, not_exists, not_and]
    exact fun x hx => absurd hx (hnone x)

/-- Of the values there, the one below a slot is dropped if it reaches into the slot. -/
theorem getElem?_dropBelow :
    (dropBelow slots slot)[i]? = some (some x) ↔
      slots[i]? = some (some x) ∧ ¬(i + 1 = slot ∧ x.isNarrow = false) := by
  cases slot with
  | zero => simp [dropBelow]
  | succ below =>
    simp only [dropBelow, Nat.add_right_cancel_iff]
    by_cases hwide : isWideAt slots below = true
    · rw [if_pos hwide, getElem?_clear]
      refine and_congr_right fun hx => ⟨fun hne h => hne h.1, fun hnot hi => hnot ⟨hi, ?_⟩⟩
      subst hi
      obtain ⟨y, hy, hnarrow⟩ := isWideAt_iff.1 hwide
      cases hx.symm.trans hy
      exact hnarrow
    · rw [if_neg hwide]
      refine (and_iff_left_of_imp ?_).symm
      rintro hx ⟨rfl, hnarrow⟩
      exact hwide (isWideAt_iff.2 ⟨x, hx, hnarrow⟩)

theorem length_dropBelow : (dropBelow slots slot).length = slots.length := by
  cases slot with
  | zero => rfl
  | succ below =>
    unfold dropBelow
    split
    · rename_i h
      cases h
    · split
      · exact List.length_set
      · rfl

theorem length_write : (write slots slot v).length = slots.length := by
  unfold write
  split <;> simp only [List.length_set, length_dropBelow]

/-- After a write that fits, the area holds its value and the values whose intervals it does not
meet. -/
theorem getElem?_write (hfits : (LocalWrite.mk slot pc v).stop ≤ slots.length) {w : LocalWrite} :
    (write slots slot v)[w.slot]? = some (some w.value) ↔
      (w.slot = slot ∧ w.value = v) ∨
        slots[w.slot]? = some (some w.value) ∧ ¬(LocalWrite.mk slot pc v).Meets w := by
  have hstop := LocalWrite.slot_lt_stop ⟨slot, pc, v⟩
  unfold write
  by_cases hslot : w.slot = slot
  · have hmeets : (LocalWrite.mk slot pc v).Meets w := LocalWrite.meets_of_slot_eq hslot.symm
    have hinside : slot < (dropBelow slots slot).length := by
      rw [length_dropBelow]
      exact Nat.lt_of_lt_of_le hstop hfits
    simp only [hslot, hmeets, true_and, not_true_eq_false, and_false, or_false]
    rw [List.getElem?_set_self]
    · simp [eq_comm]
    · split
      · exact hinside
      · rwa [List.length_set]
  · have hother : ¬(w.slot = slot ∧ w.value = v) := fun h => hslot h.1
    rw [List.getElem?_set_ne (Ne.symm hslot), or_iff_right hother, LocalWrite.meets_iff]
    unfold LocalWrite.stop
    -- A narrow value fills its own slot only, and a wide one reaches into the slot above it.
    have hwidth := w.value.slots_eq
    have hwidth' := v.slots_eq
    by_cases hv : v.isNarrow = true
    · rw [if_pos hv, getElem?_dropBelow]
      refine and_congr_right fun _ => not_congr ?_
      grind
    · rw [if_neg hv, getElem?_clear, getElem?_dropBelow, and_assoc]
      refine and_congr_right fun _ => ?_
      grind

theorem get_eq_ok_iff : l.get slot = .ok v ↔ l.slots[slot]? = some (some v) := by
  unfold get
  split <;> simp [*]

theorem permits_iff :
    l.permits slot pc v = true ↔ (LocalWrite.mk slot pc v).Typed l.table := by
  simp only [permits, rowsAt, Bool.or_eq_true, List.isEmpty_iff, List.filter_eq_nil_iff,
    List.any_eq_true, List.mem_filter, Bool.and_eq_true, beq_iff_eq, LocalWrite.Typed]
  constructor
  · rintro (hnone | ⟨row, ⟨hrow, hslot, hcovers⟩, hfits⟩) hsome
    · obtain ⟨row, hrow, hcovered⟩ := hsome
      exact absurd hcovered (hnone row hrow)
    · exact ⟨row, hrow, hslot, hcovers, hfits⟩
  · intro h
    by_cases hsome : ∃ row ∈ l.table, row.slot = slot ∧ row.covers pc = true
    · obtain ⟨row, hrow, hslot, hcovers, hfits⟩ := h hsome
      exact .inr ⟨row, ⟨hrow, hslot, hcovers⟩, hfits⟩
    · exact .inl fun row hrow hcovered => hsome ⟨row, hrow, hcovered⟩

/-- A write succeeds just if it is allowed, and then changes the values of slots only. -/
theorem set_eq_ok_iff :
    l.set slot pc v = .ok m ↔
      (LocalWrite.mk slot pc v).Allowed l.size l.table ∧
        m = { l with slots := write l.slots slot v } := by
  unfold set LocalWrite.Allowed
  rw [← permits_iff]
  by_cases hfits : slot + v.slots > l.size
  · have houtside : ¬(LocalWrite.mk slot pc v).stop ≤ l.size := Nat.not_le.2 hfits
    simp [hfits, houtside]
  · have hinside : (LocalWrite.mk slot pc v).stop ≤ l.size := Nat.not_lt.1 hfits
    by_cases htyped : l.permits slot pc v = true <;> simp [hfits, hinside, htyped, eq_comm]

/-! ## Sequences of writes -/

/-- What there is of an area and its table after some writes: a value for each write that
remains, and no others. -/
structure Records (size : Nat) (table : List LocalVariable) (writes : List LocalWrite)
    (l : Locals) : Prop where
  size_eq : l.size = size
  table_eq : l.table = table
  held : ∀ slot v, l.get slot = .ok v ↔
    ∃ w, LocalWrite.Remains writes w ∧ w.slot = slot ∧ w.value = v

theorem records_create (size : Nat) (table : List LocalVariable) :
    Records size table [] (create size table) where
  size_eq := List.length_replicate
  table_eq := rfl
  held slot v := by
    rw [get_eq_ok_iff]
    constructor
    · intro h
      cases List.eq_of_mem_replicate (List.mem_of_getElem? h)
    · rintro ⟨w, hw, -⟩
      cases hw.mem

theorem Records.set (h : l.Records size table writes) (hset : l.set slot pc v = .ok m) :
    m.Records size table (writes ++ [⟨slot, pc, v⟩]) := by
  obtain ⟨⟨hfits, -⟩, rfl⟩ := set_eq_ok_iff.1 hset
  refine ⟨length_write.trans h.size_eq, h.table_eq, fun i x => ?_⟩
  have hwrite := fun pc' => getElem?_write hfits (w := ⟨i, pc', x⟩)
  rw [get_eq_ok_iff]
  constructor
  · intro hx
    rcases (hwrite pc).1 hx with ⟨rfl, rfl⟩ | ⟨hx, hmeets⟩
    · exact ⟨_, LocalWrite.remains_concat.2 (.inl rfl), rfl, rfl⟩
    · obtain ⟨w, hw, rfl, rfl⟩ := (h.held i x).1 (get_eq_ok_iff.2 hx)
      exact ⟨w, LocalWrite.remains_concat.2 (.inr ⟨hw, hmeets⟩), rfl, rfl⟩
  · rintro ⟨w, hw, rfl, rfl⟩
    refine (hwrite w.pc).2 ?_
    rcases LocalWrite.remains_concat.1 hw with rfl | ⟨hw, hmeets⟩
    · exact .inl ⟨rfl, rfl⟩
    · exact .inr ⟨get_eq_ok_iff.1 ((h.held _ _).2 ⟨w, hw, rfl, rfl⟩), hmeets⟩

theorem Records.exists_set_iff (h : l.Records size table writes) :
    (∃ m, l.set slot pc v = .ok m) ↔ (LocalWrite.mk slot pc v).Allowed size table := by
  simp [set_eq_ok_iff, h.size_eq, h.table_eq]

theorem Records.not_allowed (h : l.Records size table writes) {e : MemoryError}
    (hset : l.set slot pc v = .error e) : ¬(LocalWrite.mk slot pc v).Allowed size table := by
  rw [← h.exists_set_iff, hset]
  exact nofun

theorem Records.setArgsFrom (h : l.Records size table writes) (slot : Nat) (args : List Value) :
    (l.setArgsFrom slot args).2.Records size table
        (writes ++ allowedWrites size table (argumentWrites slot args)) ∧
      ((l.setArgsFrom slot args).1 = .ok () ↔
        ∀ w ∈ argumentWrites slot args, w.Allowed size table) := by
  induction args generalizing l slot writes with
  | nil => exact ⟨(List.append_nil writes).symm ▸ h, fun _ => nofun, fun _ => rfl⟩
  | cons v rest ih =>
    unfold Locals.setArgsFrom argumentWrites allowedWrites
    cases hset : l.set slot 0 v with
    | ok m =>
      have hhead := h.exists_set_iff.1 ⟨m, hset⟩
      obtain ⟨hrecords, hall⟩ := ih (h.set hset) (slot + v.slots)
      rw [List.append_assoc] at hrecords
      simp only [hhead, decide_true, List.takeWhile_cons_of_pos, List.forall_mem_cons, true_and]
      exact ⟨hrecords, hall⟩
    | error e => simp [h.not_allowed hset, h]

theorem records_setArgs (size : Nat) (table : List LocalVariable) (args : List Value) :
    ((create size table).setArgs args).2.Records size table
        (allowedWrites size table (argumentWrites 0 args)) ∧
      (((create size table).setArgs args).1 = .ok () ↔
        ∀ w ∈ argumentWrites 0 args, w.Allowed size table) :=
  (records_create size table).setArgsFrom 0 args

theorem Records.call (h : l.Records size table writes) (call : LocalsCall) :
    (call.run l).2.Records size table (writes ++ allowedWrites size table call.writes) := by
  cases call with
  | set slot pc v =>
    cases hset : l.set slot pc v with
    | ok m =>
      rw [LocalsCall.run_set_of_ok hset]
      simpa [LocalsCall.writes, allowedWrites, h.exists_set_iff.1 ⟨m, hset⟩] using h.set hset
    | error e =>
      rw [LocalsCall.run_set_of_error hset]
      simpa [LocalsCall.writes, allowedWrites, h.not_allowed hset] using h
  | setArgs args => exact (h.setArgsFrom 0 args).1

theorem Records.runAll (h : l.Records size table writes) (calls : List LocalsCall) :
    (LocalsCall.runAll l calls).Records size table
      (writes ++ LocalsCall.allWrites size table calls) := by
  induction calls generalizing l writes with
  | nil => simpa [LocalsCall.runAll, LocalsCall.allWrites] using h
  | cons call rest ih =>
    have hrest := ih (h.call call)
    rw [List.append_assoc] at hrest
    exact hrest

theorem Records.notWritten (h : l.Records size table writes) (hslot : slot < size)
    (hnone : ¬∃ v, l.get slot = .ok v) :
    l.get slot = .error (.invalidSlot slot .notWritten) := by
  have hinside : slot < l.slots.length := Nat.lt_of_lt_of_eq hslot h.size_eq.symm
  unfold get at hnone ⊢
  split
  · rename_i hout
    exact absurd hinside (Nat.not_lt.2 (List.getElem?_eq_none_iff.1 hout))
  · rfl
  · rename_i v hv
    exact absurd ⟨v, by rw [hv]⟩ hnone

/-- Local variables are intervals of slots.  After any calls on an area without values, a slot
holds a value just if the last write that succeeded there was of this value, and no later one met
its interval; there is no other value below the size of the area, and nothing at all from there
on.  The intervals of the values are inside the area and have no slot in common.  A write of one
value succeeds just if its interval is inside the area and the table lets it be written, and
changes nothing otherwise; writes of arguments succeed just if each of them does. -/
theorem values_fill_disjoint_intervals (size : Nat) (table : List LocalVariable)
    (calls : List LocalsCall) :
    let l := LocalsCall.runAll (create size table) calls
    let writes := LocalsCall.allWrites size table calls
    (∀ slot v, l.get slot = .ok v ↔
        ∃ w, LocalWrite.Remains writes w ∧ w.slot = slot ∧ w.value = v) ∧
      (∀ slot < size, (¬∃ v, l.get slot = .ok v) →
        l.get slot = .error (.invalidSlot slot .notWritten)) ∧
      (∀ slot, size ≤ slot → l.get slot = .error (.invalidSlot slot .outOfRange)) ∧
      (∀ slot v, l.get slot = .ok v → slot + v.slots ≤ size) ∧
      (∀ slot v slot' v', l.get slot = .ok v → l.get slot' = .ok v' → slot ≠ slot' →
        slot + v.slots ≤ slot' ∨ slot' + v'.slots ≤ slot) ∧
      (∀ slot pc v, (∃ m, l.set slot pc v = .ok m) ↔
        slot + v.slots ≤ size ∧ (LocalWrite.mk slot pc v).Typed table) ∧
      (∀ slot pc v e, ((LocalsCall.set slot pc v).run l).1 = .error e →
        ((LocalsCall.set slot pc v).run l).2 = l) ∧
      ∀ args, (l.setArgs args).1 = .ok () ↔
        ∀ w ∈ argumentWrites 0 args, w.Allowed size table := by
  intro l writes
  have h : l.Records size table writes := (records_create size table).runAll calls
  refine ⟨h.held, fun slot => h.notWritten, ?_, ?_, ?_, fun slot pc v => h.exists_set_iff, ?_,
    fun args => (h.setArgsFrom 0 args).2⟩
  · intro slot hslot
    have hout : l.slots[slot]? = none :=
      List.getElem?_eq_none_iff.2 (Nat.le_trans (Nat.le_of_eq h.size_eq) hslot)
    rw [get, hout]
  · intro slot v hv
    obtain ⟨w, hw, rfl, rfl⟩ := (h.held slot v).1 hv
    exact (LocalsCall.allowed_of_mem_allWrites hw.mem).1
  · intro slot v slot' v' hv hv' hne
    obtain ⟨w, hw, rfl, rfl⟩ := (h.held slot v).1 hv
    obtain ⟨w', hw', rfl, rfl⟩ := (h.held slot' v').1 hv'
    rcases hw.disjoint hw' with rfl | hmeets
    · exact absurd rfl hne
    · rw [LocalWrite.meets_iff] at hmeets
      unfold LocalWrite.stop at hmeets
      omega
  · intro slot pc v e he
    cases hset : l.set slot pc v with
    | ok m =>
      rw [LocalsCall.run_set_of_ok hset] at he
      cases he
    | error e => rw [LocalsCall.run_set_of_error hset]

/-- A value written over the upper half of a wide one takes all of it away. -/
example (x : Nat) (origin : Origin) :
    let wide : Value := .primitive (.symbol ⟨x, .long, origin⟩)
    (LocalsCall.runAll (create 3 []) [.set 0 0 wide, .set 1 0 (.reference .null)]).get 0 =
      .error (.invalidSlot 0 .notWritten) := rfl

end Locals

end SymbolicMachine
