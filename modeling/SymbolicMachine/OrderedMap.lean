/-!
# Ordered maps

A finite map kept as an association list in ascending order of its keys.  Heaps, field
tables, class tables and reports are read out in key order, so the order is part of what the
map is.  The lemmas describe each operation through `get?`, and `mem_entries_iff` says that the
bindings of the list are what `get?` finds.
-/
namespace SymbolicMachine

/-- A finite map from `κ` to `υ`, held in ascending order of the keys. -/
structure OrderedMap (κ υ : Type) [LT κ] where
  entries : List (κ × υ)
  /-- The smallest key comes first, and no key comes twice. -/
  sorted : entries.Pairwise fun a b => a.1 < b.1

namespace OrderedMap

variable {κ υ : Type} [LT κ]

def empty : OrderedMap κ υ := ⟨[], .nil⟩

instance : EmptyCollection (OrderedMap κ υ) := ⟨empty⟩

instance [BEq κ] [BEq υ] : BEq (OrderedMap κ υ) := ⟨fun a b => a.entries == b.entries⟩

def size (m : OrderedMap κ υ) : Nat := m.entries.length

def isEmpty (m : OrderedMap κ υ) : Bool := m.entries.isEmpty

def keys (m : OrderedMap κ υ) : List κ := m.entries.map (·.1)

def values (m : OrderedMap κ υ) : List υ := m.entries.map (·.2)

section Lookup

variable [DecidableEq κ]

/-- The value found first for `k` in a list of bindings. -/
def find (k : κ) : List (κ × υ) → Option υ
  | [] => none
  | (k', v) :: rest => if k = k' then some v else find k rest

def get? (m : OrderedMap κ υ) (k : κ) : Option υ := find k m.entries

def contains (m : OrderedMap κ υ) (k : κ) : Bool := (m.get? k).isSome

@[simp] theorem get?_empty (k : κ) : (empty : OrderedMap κ υ).get? k = none := rfl

omit [LT κ] in
theorem mem_of_find {k : κ} {v : υ} {bindings : List (κ × υ)} (h : find k bindings = some v) :
    (k, v) ∈ bindings := by
  induction bindings with
  | nil => cases h
  | cons b rest ih =>
    unfold find at h
    split at h
    · rename_i hk
      cases h
      exact hk ▸ List.mem_cons_self
    · exact List.mem_cons_of_mem b (ih h)

omit [LT κ] in
theorem find_append (k : κ) (l l' : List (κ × υ)) :
    find k (l ++ l') = (find k l).or (find k l') := by
  induction l with
  | nil => rfl
  | cons b rest ih =>
    rw [List.cons_append, find, find]
    split
    · rfl
    · exact ih

end Lookup

section Update

variable [DecidableEq κ] [DecidableLT κ]

/-- Binds `k` to `v` in a list of bindings, before the first greater key. -/
def place (k : κ) (v : υ) : List (κ × υ) → List (κ × υ)
  | [] => [(k, v)]
  | (k', v') :: rest =>
    if k = k' then (k, v) :: rest
    else if k < k' then (k, v) :: (k', v') :: rest
    else (k', v') :: place k v rest

/-- The bindings after one was placed are that one and some of those before. -/
theorem mem_place {k : κ} {v : υ} {b : κ × υ} {bindings : List (κ × υ)}
    (h : b ∈ place k v bindings) : b = (k, v) ∨ b ∈ bindings := by
  induction bindings with
  | nil => simpa [place] using h
  | cons c rest ih =>
    obtain ⟨k', v'⟩ := c
    unfold place at h
    split at h
    · rcases List.mem_cons.1 h with rfl | h
      · exact .inl rfl
      · exact .inr (List.mem_cons_of_mem _ h)
    · split at h
      · rcases List.mem_cons.1 h with rfl | h
        · exact .inl rfl
        · exact .inr h
      · rcases List.mem_cons.1 h with rfl | h
        · exact .inr List.mem_cons_self
        · exact (ih h).imp_right (List.mem_cons_of_mem _)

theorem find_place_self (k : κ) (v : υ) (bindings : List (κ × υ)) :
    find k (place k v bindings) = some v := by
  induction bindings with
  | nil => simp [place, find]
  | cons b rest ih =>
    obtain ⟨k', v'⟩ := b
    by_cases h : k = k'
    · simp [place, find, h]
    · by_cases hlt : k < k'
      · simp [place, find, h, hlt]
      · simp [place, find, h, hlt, ih]

theorem find_place_of_ne {k j : κ} (h : j ≠ k) (v : υ) (bindings : List (κ × υ)) :
    find j (place k v bindings) = find j bindings := by
  induction bindings with
  | nil => simp [place, find, h]
  | cons b rest ih =>
    obtain ⟨k', v'⟩ := b
    by_cases hk : k = k'
    · subst hk
      simp [place, find, h]
    · by_cases hlt : k < k'
      · simp [place, find, h, hk, hlt]
      · simp [place, find, hk, hlt, ih]

section Order

variable [LE κ] [Std.IsLinearOrder κ] [Std.LawfulOrderLT κ]

theorem sorted_place (k : κ) (v : υ) {bindings : List (κ × υ)}
    (h : bindings.Pairwise fun a b => a.1 < b.1) :
    (place k v bindings).Pairwise fun a b => a.1 < b.1 := by
  induction bindings with
  | nil => exact List.pairwise_singleton _ _
  | cons c rest ih =>
    obtain ⟨k', v'⟩ := c
    obtain ⟨hhead, htail⟩ := List.pairwise_cons.1 h
    unfold place
    split
    · rename_i hk
      subst hk
      exact List.pairwise_cons.2 ⟨hhead, htail⟩
    · rename_i hne
      split
      · rename_i hlt
        refine List.pairwise_cons.2 ⟨fun b hb => ?_, h⟩
        rcases List.mem_cons.1 hb with rfl | hb
        · exact hlt
        · exact Std.lt_trans hlt (hhead b hb)
      · rename_i hge
        refine List.pairwise_cons.2 ⟨fun b hb => ?_, ih htail⟩
        rcases mem_place hb with rfl | hb
        · exact Std.lt_of_le_of_ne (Std.not_lt.1 hge) (Ne.symm hne)
        · exact hhead b hb

/-- Binds `k` to `v`, replacing any earlier binding of `k`. -/
def insert (m : OrderedMap κ υ) (k : κ) (v : υ) : OrderedMap κ υ :=
  ⟨place k v m.entries, sorted_place k v m.sorted⟩

/-- Inserts the bindings of a list one after another, so that a later one wins. -/
def ofList (bindings : List (κ × υ)) : OrderedMap κ υ :=
  bindings.foldl (fun m b => m.insert b.1 b.2) empty

omit [DecidableLT κ] [Std.IsLinearOrder κ] in
/-- The bindings of the list are what is found by their keys. -/
theorem mem_entries_iff {m : OrderedMap κ υ} {k : κ} {v : υ} :
    (k, v) ∈ m.entries ↔ m.get? k = some v := by
  obtain ⟨bindings, h⟩ := m
  simp only [get?]
  induction bindings with
  | nil => simp [find]
  | cons c rest ih =>
    obtain ⟨k', v'⟩ := c
    obtain ⟨hhead, htail⟩ := List.pairwise_cons.1 h
    by_cases hk : k = k'
    · subst hk
      have hrest : (k, v) ∉ rest := fun hb => Std.lt_irrefl (hhead (k, v) hb)
      simp [find, hrest, eq_comm]
    · simp [find, hk, ih htail]

@[simp] theorem get?_insert_self (m : OrderedMap κ υ) (k : κ) (v : υ) :
    (m.insert k v).get? k = some v :=
  find_place_self k v m.entries

theorem get?_insert_of_ne (m : OrderedMap κ υ) {k j : κ} (h : j ≠ k) (v : υ) :
    (m.insert k v).get? j = m.get? j :=
  find_place_of_ne h v m.entries

/-- A map made from bindings binds each key to its last value. -/
theorem get?_ofList (bindings : List (κ × υ)) (k : κ) :
    (ofList bindings).get? k = find k bindings.reverse := by
  rw [ofList, List.foldl_eq_foldr_reverse]
  induction bindings.reverse with
  | nil => rfl
  | cons b rest ih =>
    rw [List.foldr_cons, find]
    by_cases hk : k = b.1
    · rw [if_pos hk, hk, get?_insert_self]
    · rw [if_neg hk, get?_insert_of_ne _ hk, ih]

end Order

end Update

end OrderedMap

end SymbolicMachine
