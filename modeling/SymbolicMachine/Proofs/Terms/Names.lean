import SymbolicMachine.Proofs.Terms.Symbols
/-!
# Names

A name is the number of a symbol or the address of an object.  The names in a term are those of
its symbols, and of the symbols that their origins speak of.
-/
namespace SymbolicMachine

/-- What tells a symbol or an object from others. -/
inductive Name where
  | symbol (id : Nat)
  | address (a : Nat)
  deriving DecidableEq

mutual

/-- The names of the symbols in a term and in their origins. -/
def Term.names : Term → List Name
  | .constant _ => []
  | .symbol ⟨id, _, origin⟩ => .symbol id :: origin.names
  | .unary _ _ a => a.names
  | .binary _ _ a b => a.names ++ b.names
  | .application _ _ args => Term.namesAll args
  | .conversion _ a => a.names

def Term.namesAll : List Term → List Name
  | [] => []
  | a :: rest => a.names ++ Term.namesAll rest

def Origin.names : Origin → List Name
  | .root _ => []
  | .field ⟨id, _, origin⟩ _ => .symbol id :: origin.names
  | .member ⟨id, _, origin⟩ index => .symbol id :: origin.names ++ index.names
  | .length ⟨id, _, origin⟩ => .symbol id :: origin.names
  | .native _ _ => []

end

def RefSymbol.names (r : RefSymbol) : List Name := .symbol r.id :: r.origin.names

def Value.names : Value → List Name
  | .primitive t => t.names
  | .reference .null => []
  | .reference (.concrete a) => [.address a]
  | .reference (.symbolic r) => r.names

/-- All of a list of names are known. -/
def Known (known : Name → Prop) (names : List Name) : Prop := ∀ n ∈ names, known n

section Known

variable {known : Name → Prop}

@[simp] theorem known_nil : Known known [] := nofun

@[simp] theorem known_cons {n : Name} {names : List Name} :
    Known known (n :: names) ↔ known n ∧ Known known names := List.forall_mem_cons

@[simp] theorem known_append {names others : List Name} :
    Known known (names ++ others) ↔ Known known names ∧ Known known others :=
  List.forall_mem_append

theorem known_flatMap {α : Type} {f : α → List Name} {l : List α} :
    Known known (l.flatMap f) ↔ ∀ a ∈ l, Known known (f a) := by
  simp only [Known, List.mem_flatMap]
  exact ⟨fun h a ha n hn => h n ⟨a, ha, hn⟩, fun h n ⟨a, ha, hn⟩ => h a ha n hn⟩

end Known

/-! ## Names of symbols -/

def Atom.name (x : Atom) : Name := .symbol x.id

mutual

/-- The names in a term are those of the symbols in it. -/
theorem Term.names_eq : ∀ t : Term, t.names = t.atoms.map Atom.name
  | .constant _ => rfl
  | .symbol ⟨_, _, origin⟩ => congrArg (List.cons _) origin.names_eq
  | .unary _ _ a => a.names_eq
  | .binary _ _ a b => by
    simp only [Term.names, Term.atoms, List.map_append, a.names_eq, b.names_eq]
  | .application _ _ args => Term.namesAll_eq args
  | .conversion _ a => a.names_eq

theorem Term.namesAll_eq : ∀ args : List Term,
    Term.namesAll args = (Term.atomsAll args).map Atom.name
  | [] => rfl
  | a :: rest => by
    simp only [Term.namesAll, Term.atomsAll, List.map_append, a.names_eq, Term.namesAll_eq rest]

theorem Origin.names_eq : ∀ o : Origin, o.names = o.atoms.map Atom.name
  | .root _ => rfl
  | .field ⟨_, _, origin⟩ _ => congrArg (List.cons _) origin.names_eq
  | .member ⟨_, _, origin⟩ index => by
    simp only [Origin.names, Origin.atoms, List.map_append, List.map_cons, origin.names_eq,
      index.names_eq]
    rfl
  | .length ⟨_, _, origin⟩ => congrArg (List.cons _) origin.names_eq
  | .native _ _ => rfl

end

theorem RefSymbol.names_eq (r : RefSymbol) : r.names = r.atoms.map Atom.name :=
  congrArg (List.cons _) r.origin.names_eq

section Symbols

variable {known : Name → Prop}

theorem known_map_name {atoms : List Atom} :
    Known known (atoms.map Atom.name) ↔ ∀ x ∈ atoms, known x.name := List.forall_mem_map

theorem Term.known_names_iff {t : Term} :
    Known known t.names ↔ t.SpeaksOf fun x => known x.name := by
  rw [Term.names_eq, known_map_name]
  rfl

/-- The names in a value are those of its symbols, and its address. -/
theorem Value.known_names_iff {v : Value} :
    Known known v.names ↔ (v.SpeaksOf fun x => known x.name) ∧
      ∀ a, v = .reference (.concrete a) → known (.address a) := by
  unfold SpeaksOf
  rcases v with t | (_ | a | r)
  · simp only [names, atoms, Term.names_eq, known_map_name, reduceCtorEq, false_imp_iff,
      implies_true, and_true]
  · simp [names, atoms]
  · simp [names, atoms]
  · simp only [names, atoms, RefSymbol.names_eq, known_map_name, Value.reference.injEq,
      reduceCtorEq, false_imp_iff, implies_true, and_true]

end Symbols

end SymbolicMachine
