import SymbolicMachine.Action
import SymbolicMachine.MemoryError
import SymbolicMachine.OrderedMap
import SymbolicMachine.Path.Clause
/-!
# Path conditions

The ordered assumptions of one path, with an index from the numbers of symbolic references to
the positions of the clauses that decide their targets.  A path condition only grows, and the
target of a reference is decided at most once.
-/
namespace SymbolicMachine

/-- The assumptions of a path. -/
structure PathCondition where
  clauses : List Clause
  /-- The position of the clause that decides each decided reference, by its number. -/
  resolutions : OrderedMap Nat Nat
  /-- The index has the positions of the clauses that decide a reference, and no others. -/
  indexed : ∀ id k, resolutions.get? id = some k ↔ ∃ c, clauses[k]? = some c ∧ c.decided? = some id

/-- The index follows from the clauses. -/
instance : BEq PathCondition := ⟨fun a b => a.clauses == b.clauses⟩

namespace PathCondition

def empty : PathCondition := ⟨[], .empty, by simp⟩

/-- The clause at the position that the index has for a reference. -/
def resolution? (p : PathCondition) (r : RefSymbol) : Option Clause :=
  (p.resolutions.get? r.id).bind fun k => p.clauses[k]?

def isResolved (p : PathCondition) (r : RefSymbol) : Bool := p.resolutions.contains r.id

/-- Adds clauses at the end that decide no reference. -/
def append (p : PathCondition) (cs : List Clause) (h : ∀ c ∈ cs, c.decided? = none) :
    PathCondition where
  clauses := p.clauses ++ cs
  resolutions := p.resolutions
  indexed id k := by
    rw [p.indexed]
    grind

/-- Adds a clause at the end that decides a reference. -/
def resolve (p : PathCondition) {c : Clause} {id : Nat} (hc : c.decided? = some id)
    (hopen : p.resolutions.get? id = none) : PathCondition where
  clauses := p.clauses ++ [c]
  resolutions := p.resolutions.insert id p.clauses.length
  indexed other k := by
    by_cases hother : other = id
    · -- No clause that was there before decides the reference.
      have hnone : ¬∃ d, p.clauses[k]? = some d ∧ d.decided? = some id := by
        rw [← p.indexed, hopen]
        nofun
      rw [hother, OrderedMap.get?_insert_self]
      grind
    · rw [OrderedMap.get?_insert_of_ne _ hother, p.indexed]
      grind

/-- Adds a clause at the end.  Deciding a reference a second time is an error. -/
def push (p : PathCondition) (c : Clause) : Except MemoryError PathCondition :=
  match hc : c.decided? with
  | none => .ok (p.append [c] (by simpa using hc))
  | some id =>
    match hopen : p.resolutions.get? id with
    | some _ => .error (.alreadyResolved id)
    | none => .ok (p.resolve hc hopen)

/-- Adds a clause in place.  A failure keeps the path condition. -/
def pushing (c : Clause) : Action PathCondition MemoryError Unit := do
  let p ← Action.read
  let q ← Action.ofExcept (p.push c)
  Action.write q

def size (p : PathCondition) : Nat := p.clauses.length

def isEmpty (p : PathCondition) : Bool := p.clauses.isEmpty

variable {p q : PathCondition} {c : Clause} {r : RefSymbol}

/-- The index finds exactly the clauses that decide the reference. -/
theorem resolution?_eq_some_iff :
    p.resolution? r = some c ↔ c ∈ p.clauses ∧ c.decided? = some r.id := by
  have hindexed := p.indexed r.id
  rw [resolution?, Option.bind_eq_some_iff, List.mem_iff_getElem?]
  grind

@[simp] theorem isResolved_eq (p : PathCondition) (r : RefSymbol) :
    p.isResolved r = (p.resolution? r).isSome := by
  unfold isResolved OrderedMap.contains resolution?
  cases hk : p.resolutions.get? r.id with
  | none => rfl
  | some k =>
    obtain ⟨c, hc, -⟩ := (p.indexed r.id k).1 hk
    simp [hc]

theorem isResolved_iff : p.isResolved r = true ↔ ∃ c, p.resolution? r = some c := by
  rw [isResolved_eq, Option.isSome_iff_exists]

theorem append_of_eq_nil {cs : List Clause} (hcs : cs = []) (h : ∀ c ∈ cs, c.decided? = none) :
    p.append cs h = p := by
  simp [append, hcs]

/-- A clause that is accepted comes last, behind the clauses there were. -/
theorem clauses_of_push (h : p.push c = .ok q) : q.clauses = p.clauses ++ [c] := by
  unfold push at h
  split at h
  · cases h
    rfl
  · split at h
    · cases h
    · cases h
      rfl

/-- A clause is refused if the target that it decides was decided before. -/
theorem push_eq_error_iff {e : MemoryError} : p.push c = .error e ↔
    ∃ r, c.reference? = some r ∧ p.isResolved r = true ∧ e = .alreadyResolved r.id := by
  unfold push
  split
  · rename_i hnone
    have hno : c.reference? = none := Option.map_eq_none_iff.1 hnone
    simp [hno]
  · rename_i id hid
    obtain ⟨r, hr, hrid⟩ := Clause.decided?_eq_some_iff.1 hid
    subst hrid
    split
    · rename_i k hk
      have hresolved : p.isResolved r = true := by rw [isResolved, OrderedMap.contains, hk]; rfl
      constructor
      · intro h
        cases h
        exact ⟨r, hr, hresolved, rfl⟩
      · rintro ⟨_, hr', -, rfl⟩
        cases hr.symm.trans hr'
        rfl
    · rename_i hopen
      have hfree : p.isResolved r = false := by rw [isResolved, OrderedMap.contains, hopen]; rfl
      simp [hr, hfree, -isResolved_eq]

/-- A clause that decides a target is only accepted if the target is open. -/
theorem isResolved_eq_false_of_push (h : p.push c = .ok q) (hr : c.reference? = some r) :
    p.isResolved r = false := by
  refine Bool.eq_false_iff.2 fun hresolved => ?_
  have herror : p.push c = .error (.alreadyResolved r.id) :=
    push_eq_error_iff.2 ⟨r, hr, hresolved, rfl⟩
  rw [h] at herror
  cases herror

/-- An accepted clause is the resolution of the reference it decides. -/
theorem resolution?_of_push_self (h : p.push c = .ok q) (hr : c.reference? = some r) :
    q.resolution? r = some c := by
  rw [resolution?_eq_some_iff, clauses_of_push h, Clause.decided?, hr]
  simp

end PathCondition

end SymbolicMachine
