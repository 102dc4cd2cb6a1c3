import SymbolicMachine.Terms.Value
/-!
# Clauses

One assumption made along a path: that a boolean term holds, what a symbolic reference denotes,
or whether a class was initialized before execution started.
-/
namespace SymbolicMachine

/-- An assumption of a path. -/
inductive Clause where
  /-- A boolean term holds. -/
  | assume (condition : Term)
  /-- A reference denotes a fresh object of exactly this class, bound to an address. -/
  | expands (reference : RefSymbol) (address : Nat) (className : String)
  /-- A reference denotes the object already bound to an address. -/
  | aliases (reference : RefSymbol) (address : Nat)
  /-- A reference denotes no object. -/
  | isNull (reference : RefSymbol)
  /-- A class was initialized before execution started. -/
  | initialized (className : String)
  /-- A class was not initialized before execution started. -/
  | notInitialized (className : String)

namespace Clause

/-- The symbolic reference whose target the clause decides. -/
def reference? : Clause → Option RefSymbol
  | expands r _ _ => some r
  | aliases r _ => some r
  | isNull r => some r
  | _ => none

/-- The number of the symbolic reference whose target the clause decides. -/
def decided? (c : Clause) : Option Nat := c.reference?.map (·.id)

/-- The address that the clause binds a reference to. -/
def address? : Clause → Option Nat
  | expands _ a _ => some a
  | aliases _ a => some a
  | _ => none

def text : Clause → String
  | assume t => t.text
  | expands r a c => s!"{r.text} == {addressText a} (fresh {c})"
  | aliases r a => s!"{r.text} == {addressText a} (aliases)"
  | isNull r => s!"{r.text} == null"
  | initialized c => s!"pre_init({c})"
  | notInitialized c => s!"!pre_init({c})"

/-- Whether two clauses say the same about the same symbols. -/
def same : Clause → Clause → Bool
  | assume s, assume t => s == t
  | expands r a c, expands r' a' c' => r == r' && a == a' && c == c'
  | aliases r a, aliases r' a' => r == r' && a == a'
  | isNull r, isNull r' => r == r'
  | initialized c, initialized c' => c == c'
  | notInitialized c, notInitialized c' => c == c'
  | _, _ => false

instance : BEq Clause := ⟨same⟩

theorem decided?_eq_some_iff {c : Clause} {id : Nat} :
    c.decided? = some id ↔ ∃ r, c.reference? = some r ∧ r.id = id :=
  Option.map_eq_some_iff

theorem decided?_assume (t : Term) : ∀ c ∈ [assume t], c.decided? = none := by
  simp [decided?, reference?]

end Clause

end SymbolicMachine
