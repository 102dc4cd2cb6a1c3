import SymbolicMachine.Heap.ArrayObject
import SymbolicMachine.Proofs.Terms.Occurrences
/-!
# Symbols in terms

The symbols in a term are those that occur in it and those that the origins of symbols speak of:
the containers, and the symbols in the indices of members.  The operations that build terms bring
in none, and neither does reading an array.
-/
namespace SymbolicMachine

/-- A symbol for an unknown primitive or for an unknown reference. -/
inductive Atom where
  | primitive (symbol : Symbol)
  | reference (symbol : RefSymbol)

namespace Atom

def id : Atom → Nat
  | primitive x => x.id
  | reference r => r.id

def origin : Atom → Origin
  | primitive x => x.origin
  | reference r => r.origin

/-- The value that is nothing but the symbol. -/
def value : Atom → Value
  | primitive x => .primitive (.symbol x)
  | reference r => .reference (.symbolic r)

end Atom

mutual

/-- The symbols in a term and in their origins. -/
def Term.atoms : Term → List Atom
  | .constant _ => []
  | .symbol ⟨id, type, origin⟩ => .primitive ⟨id, type, origin⟩ :: origin.atoms
  | .unary _ _ a => a.atoms
  | .binary _ _ a b => a.atoms ++ b.atoms
  | .application _ _ args => Term.atomsAll args
  | .conversion _ a => a.atoms

def Term.atomsAll : List Term → List Atom
  | [] => []
  | a :: rest => a.atoms ++ Term.atomsAll rest

def Origin.atoms : Origin → List Atom
  | .root _ => []
  | .field ⟨id, staticType, origin⟩ _ => .reference ⟨id, staticType, origin⟩ :: origin.atoms
  | .member ⟨id, staticType, origin⟩ index =>
    .reference ⟨id, staticType, origin⟩ :: origin.atoms ++ index.atoms
  | .length ⟨id, staticType, origin⟩ => .reference ⟨id, staticType, origin⟩ :: origin.atoms
  | .native _ _ => []

end

def RefSymbol.atoms (r : RefSymbol) : List Atom := .reference r :: r.origin.atoms

def Value.atoms : Value → List Atom
  | .primitive t => t.atoms
  | .reference .null => []
  | .reference (.concrete _) => []
  | .reference (.symbolic r) => r.atoms

@[simp] theorem Origin.atoms_field (r : RefSymbol) (name : String) :
    (Origin.field r name).atoms = r.atoms := by cases r; rfl

@[simp] theorem Origin.atoms_member (r : RefSymbol) (index : Term) :
    (Origin.member r index).atoms = r.atoms ++ index.atoms := by cases r; rfl

@[simp] theorem Origin.atoms_length (r : RefSymbol) : (Origin.length r).atoms = r.atoms := by
  cases r; rfl

@[simp] theorem Atom.atoms_value (x : Atom) : x.value.atoms = x :: x.origin.atoms := by
  rcases x with ⟨id, type, origin⟩ | r <;> rfl

theorem Term.mem_atomsAll {args : List Term} {x : Atom} :
    x ∈ Term.atomsAll args ↔ ∃ a ∈ args, x ∈ a.atoms := by
  induction args with
  | nil => simp [atomsAll]
  | cons a rest ih => simp [atomsAll, ih]

/-- All symbols in a term and in their origins are known. -/
def Term.SpeaksOf (known : Atom → Prop) (t : Term) : Prop := ∀ x ∈ t.atoms, known x

/-- All symbols in a value and in their origins are known. -/
def Value.SpeaksOf (known : Atom → Prop) (v : Value) : Prop := ∀ x ∈ v.atoms, known x

namespace Term

variable {known : Atom → Prop} {a b c : Term}

/-! ## Building -/

theorem speaksOf_constant (c : Constant) : (constant c).SpeaksOf known := nofun

theorem speaksOf_application {type : PrimType} {name : String} {args : List Term}
    (h : ∀ a ∈ args, a.SpeaksOf known) : (application type name args).SpeaksOf known := by
  intro x hx
  obtain ⟨a, ha, hx⟩ := mem_atomsAll.1 hx
  exact h a ha x hx

mutual

/-- The symbols in a term are those in its occurrences. -/
theorem atoms_eq_flatMap : ∀ t : Term, t.atoms = t.occurrences.flatMap fun s => (symbol s).atoms
  | constant _ => rfl
  | symbol s => by rw [occurrences, List.flatMap_singleton]
  | unary _ _ a => atoms_eq_flatMap a
  | binary _ _ a b => by
    rw [atoms, occurrences, List.flatMap_append, atoms_eq_flatMap a, atoms_eq_flatMap b]
  | application _ _ args => atomsAll_eq_flatMap args
  | conversion _ a => atoms_eq_flatMap a

theorem atomsAll_eq_flatMap : ∀ args : List Term,
    atomsAll args = (occurrencesAll args).flatMap fun s => (symbol s).atoms
  | [] => rfl
  | a :: rest => by
    rw [atomsAll, occurrencesAll, List.flatMap_append, atoms_eq_flatMap a,
      atomsAll_eq_flatMap rest]

end

theorem speaksOf_iff_occurrences {t : Term} :
    t.SpeaksOf known ↔ ∀ s ∈ t.occurrences, (symbol s).SpeaksOf known := by
  unfold SpeaksOf
  rw [atoms_eq_flatMap t]
  grind

theorem speaksOf_applyUnary {op : Operator} (h : a.SpeaksOf known) (hb : applyUnary op a = .ok b) :
    b.SpeaksOf known := by
  rw [speaksOf_iff_occurrences] at h ⊢
  exact fun s hs => h s (occurrences_applyUnary hb hs)

theorem speaksOf_applyBinary {op : Operator} (ha : a.SpeaksOf known) (hb : b.SpeaksOf known)
    (h : applyBinary op a b = .ok c) : c.SpeaksOf known := by
  rw [speaksOf_iff_occurrences] at ha hb ⊢
  exact fun s hs => (List.mem_append.1 (occurrences_applyBinary h hs)).elim (ha s) (hb s)

theorem speaksOf_convert {t : PrimType} (ha : a.SpeaksOf known) (h : a.convert t = .ok b) :
    b.SpeaksOf known := by
  rw [speaksOf_iff_occurrences] at ha ⊢
  exact fun s hs => ha s (occurrences_convert h hs)

theorem speaksOf_mkAll {terms : List Term} (hterms : ∀ t ∈ terms, t.SpeaksOf known)
    (h : mkAll terms = .ok c) : c.SpeaksOf known := by
  rw [speaksOf_iff_occurrences]
  intro s hs
  obtain ⟨t, ht, hst⟩ := mem_occurrencesAll.1 (occurrences_mkAll h hs)
  exact speaksOf_iff_occurrences.1 (hterms t ht) s hst

end Term

namespace Value

variable {known : Atom → Prop} {v w : Value}

theorem speaksOf_primitive {t : Term} : (primitive t).SpeaksOf known ↔ t.SpeaksOf known := .rfl

theorem SpeaksOf.widen (h : v.SpeaksOf known) (hw : v.widen = .ok w) : w.SpeaksOf known := by
  cases v with
  | reference r =>
    cases hw
    exact h
  | primitive t =>
    obtain ⟨u, hu, rfl⟩ := map_eq_ok.1 hw
    exact speaksOf_primitive.2 (Term.speaksOf_convert (speaksOf_primitive.1 h) hu)

end Value

/-! ## Reading arrays -/

namespace ArrayObject

variable {known : Atom → Prop} {bounds index : Term}

theorem speaksOf_misses (hindex : index.SpeaksOf known) {entries : List ArrayEntry}
    {terms : List Term} (hentries : ∀ e ∈ entries, e.index.SpeaksOf known)
    (h : misses index entries = .ok terms) : ∀ t ∈ terms, t.SpeaksOf known := by
  induction entries generalizing terms with
  | nil =>
    cases h
    exact nofun
  | cons e rest ih =>
    obtain ⟨missed, hmissed, h⟩ := bind_eq_ok.1 h
    obtain ⟨others, hothers, h⟩ := bind_eq_ok.1 h
    cases h
    intro t ht
    rcases List.mem_cons.1 ht with rfl | ht
    · exact Term.speaksOf_applyBinary hindex (hentries e List.mem_cons_self) hmissed
    · exact ih (fun e' he' => hentries e' (List.mem_cons_of_mem _ he')) hothers t ht

theorem speaksOf_entryOutcomes (hbounds : bounds.SpeaksOf known) (hindex : index.SpeaksOf known)
    {entries : List ArrayEntry} {outcomes : List AccessOutcome}
    (hentries : ∀ e ∈ entries, e.index.SpeaksOf known)
    (h : entryOutcomes bounds index entries = .ok outcomes) :
    ∀ o ∈ outcomes, o.guard.SpeaksOf known := by
  induction entries generalizing outcomes with
  | nil =>
    cases h
    exact nofun
  | cons e later ih =>
    have hlater : ∀ e' ∈ later, e'.index.SpeaksOf known :=
      fun e' he' => hentries e' (List.mem_cons_of_mem _ he')
    obtain ⟨hit, hhit, h⟩ := bind_eq_ok.1 h
    obtain ⟨missed, hmissed, h⟩ := bind_eq_ok.1 h
    obtain ⟨here, hhere, h⟩ := bind_eq_ok.1 h
    obtain ⟨latest, hlatest, h⟩ := bind_eq_ok.1 h
    obtain ⟨guard, hguard, h⟩ := bind_eq_ok.1 h
    obtain ⟨others, hothers, h⟩ := bind_eq_ok.1 h
    cases h
    intro o ho
    rcases List.mem_append.1 ho with ho | ho
    · cases eq_of_mem_possible ho
      have hhit := Term.speaksOf_applyBinary hindex (hentries e List.mem_cons_self) hhit
      have hhere := Term.speaksOf_applyBinary hbounds hhit hhere
      have hlatest := Term.speaksOf_mkAll (speaksOf_misses hindex hlater hmissed) hlatest
      exact Term.speaksOf_applyBinary hhere hlatest hguard
    · exact ih hlater hothers o ho

/-- Guards speak of the index, the length and the recorded indices. -/
theorem speaksOf_guard {a : ArrayObject} {outcomes : List AccessOutcome}
    (hindex : index.SpeaksOf known) (hlength : a.length.SpeaksOf known)
    (hentries : ∀ e ∈ a.entries, e.index.SpeaksOf known) (h : a.get index = .ok outcomes) :
    ∀ o ∈ outcomes, o.guard.SpeaksOf known := by
  obtain ⟨bounds, hbounds, h⟩ := bind_eq_ok.1 h
  obtain ⟨hits, hhits, h⟩ := bind_eq_ok.1 h
  obtain ⟨missed, hmissed, h⟩ := bind_eq_ok.1 h
  obtain ⟨none, hnone, h⟩ := bind_eq_ok.1 h
  obtain ⟨unrecorded, hunrecorded, h⟩ := bind_eq_ok.1 h
  obtain ⟨outside, houtside, h⟩ := bind_eq_ok.1 h
  cases h
  obtain ⟨low, hlow, hbounds⟩ := bind_eq_ok.1 hbounds
  obtain ⟨high, hhigh, hbounds⟩ := bind_eq_ok.1 hbounds
  have hlow := Term.speaksOf_applyBinary hindex (Term.speaksOf_constant _) hlow
  have hhigh := Term.speaksOf_applyBinary hindex hlength hhigh
  have hbounds := Term.speaksOf_applyBinary hlow hhigh hbounds
  have hnone := Term.speaksOf_mkAll (speaksOf_misses hindex hentries hmissed) hnone
  intro o ho
  rcases List.mem_append.1 ho with ho | ho
  · rcases List.mem_append.1 ho with ho | ho
    · exact speaksOf_entryOutcomes hbounds hindex hentries hhits o ho
    · cases eq_of_mem_possible ho
      exact Term.speaksOf_applyBinary hbounds hnone hunrecorded
  · cases eq_of_mem_possible ho
    exact Term.speaksOf_applyUnary hbounds houtside

end ArrayObject

end SymbolicMachine
