import SymbolicMachine.Proofs.Acts.Values
import SymbolicMachine.Report.Inputs
/-!
# How a table of inputs is built

A table of input descriptions is built in two rounds: one over the clauses, which describe the
references that they decide, and one over the symbols, which are described by the values that a
model gives them.  After each round an entry is as it was before, or it comes from one of the
clauses or symbols that go by its key.
-/
namespace SymbolicMachine

namespace State

variable {s : State} {m : Model} {table : InputTable} {key : String}

/-! ## The round over the symbols -/

/-- An entry is as it was, and then the model gives no value to the symbols that go by its key, or
it is the value of one of them. -/
theorem get?_describeSymbols (m : Model) (table : InputTable) (l : List Symbol) (key : String) :
    ((describeSymbols m table l).get? key = table.get? key ∧
      ∀ x ∈ l, x.origin.text = key → m.get? x.id = none) ∨
    ∃ x ∈ l, ∃ c, x.origin.text = key ∧ m.get? x.id = some c ∧
      (describeSymbols m table l).get? key = some (.constant c.text) := by
  induction l generalizing table with
  | nil => exact .inl ⟨rfl, nofun⟩
  | cons x rest ih =>
    unfold describeSymbols
    cases hx : m.get? x.id with
    | none =>
      rcases ih table with ⟨hsame, hnone⟩ | ⟨y, hy, hentry⟩
      · exact .inl ⟨hsame, List.forall_mem_cons.2 ⟨fun _ => hx, hnone⟩⟩
      · exact .inr ⟨y, List.mem_cons_of_mem x hy, hentry⟩
    | some c =>
      have hrest := ih (table.insert x.origin.text (.constant c.text))
      rcases hrest with ⟨hsame, hnone⟩ | ⟨y, hy, hentry⟩
      · by_cases hkey : x.origin.text = key
        · refine .inr ⟨x, List.mem_cons_self, c, hkey, hx, ?_⟩
          rw [hsame, hkey, OrderedMap.get?_insert_self]
        · rw [OrderedMap.get?_insert_of_ne _ (Ne.symm hkey)] at hsame
          exact .inl ⟨hsame, List.forall_mem_cons.2 ⟨fun h => absurd h hkey, hnone⟩⟩
      · exact .inr ⟨y, List.mem_cons_of_mem x hy, hentry⟩

/-! ## The round over the clauses -/

/-- A clause describes the input of a key. -/
structure Describes (s : State) (m : Model) (c : Clause) (key : String) (d : InputDescription) :
    Prop where
  description : s.describe? m c = .ok (some d)
  key : ∃ r, c.reference? = some r ∧ r.origin.text = key

/-- No clause is described by a value. -/
theorem Describes.ne_constant {c : Clause} {d : InputDescription} (h : Describes s m c key d)
    (value : String) : d ≠ .constant value := by
  rintro rfl
  have hdescription := h.description
  cases c with
  | isNull r => cases hdescription
  | expands r address className =>
    simp only [describe?] at hdescription
    split at hdescription
    · obtain ⟨object, -, hdescription⟩ := bind_eq_ok.1 hdescription
      split at hdescription <;> cases hdescription
    · cases hdescription
  | aliases r address =>
    obtain ⟨object, -, hdescription⟩ := bind_eq_ok.1 hdescription
    split at hdescription <;> cases hdescription
  | assume _ | initialized _ | notInitialized _ => cases hdescription

theorem describeReferences_skip {c : Clause} {d : Option InputDescription} (l : List Clause)
    (table : InputTable) (hd : s.describe? m c = .ok d)
    (hskip : ∀ key d, ¬Describes s m c key d) :
    s.describeReferences m table (c :: l) = s.describeReferences m table l := by
  rw [describeReferences, hd]
  cases d with
  | none => rfl
  | some d =>
    cases hr : c.reference? with
    | none => rfl
    | some r => exact absurd ⟨hd, r, hr, rfl⟩ (hskip r.origin.text d)

theorem describeReferences_insert {c : Clause} {d : InputDescription} {r : RefSymbol}
    (l : List Clause) (table : InputTable) (hd : s.describe? m c = .ok (some d))
    (hr : c.reference? = some r) :
    s.describeReferences m table (c :: l) =
      s.describeReferences m (table.insert r.origin.text d) l := by
  rw [describeReferences, hd, hr]
  rfl

/-- If every clause has a description, or needs none, a table is built.  An entry is as it was, and
then no clause describes the input of its key, or it comes from one that does. -/
theorem exists_describeReferences {l : List Clause}
    (h : ∀ c ∈ l, ∃ d, s.describe? m c = .ok d) (table : InputTable) :
    ∃ built, s.describeReferences m table l = .ok built ∧ ∀ key,
      (built.get? key = table.get? key ∧ ∀ c ∈ l, ∀ d, ¬Describes s m c key d) ∨
        ∃ c ∈ l, ∃ d, Describes s m c key d ∧ built.get? key = some d := by
  induction l generalizing table with
  | nil => exact ⟨table, rfl, fun key => .inl ⟨rfl, nofun⟩⟩
  | cons c rest ih =>
    obtain ⟨⟨description, hdescription⟩, hrest⟩ := List.forall_mem_cons.1 h
    by_cases hdescribes : ∃ key d, Describes s m c key d
    · obtain ⟨key, d, hd, r, hr, rfl⟩ := hdescribes
      obtain ⟨built, hbuilt, hentries⟩ := ih hrest (table.insert r.origin.text d)
      refine ⟨built, (describeReferences_insert rest table hd hr).trans hbuilt, fun key => ?_⟩
      rcases hentries key with ⟨hsame, hnone⟩ | ⟨c', hc', hentry⟩
      · by_cases hkey : r.origin.text = key
        · refine .inr ⟨c, List.mem_cons_self, d, ⟨hd, r, hr, hkey⟩, ?_⟩
          rw [hsame, hkey, OrderedMap.get?_insert_self]
        · rw [OrderedMap.get?_insert_of_ne _ (Ne.symm hkey)] at hsame
          refine .inl ⟨hsame, List.forall_mem_cons.2 ⟨fun d' hd' => hkey ?_, hnone⟩⟩
          obtain ⟨r', hr', hkey'⟩ := hd'.key
          cases hr.symm.trans hr'
          exact hkey'
      · exact .inr ⟨c', List.mem_cons_of_mem c hc', hentry⟩
    · have hskip : ∀ key d, ¬Describes s m c key d := fun key d hd => hdescribes ⟨key, d, hd⟩
      obtain ⟨built, hbuilt, hentries⟩ := ih hrest table
      refine ⟨built, (describeReferences_skip rest table hdescription hskip).trans hbuilt,
        fun key => ?_⟩
      rcases hentries key with ⟨hsame, hnone⟩ | ⟨c', hc', hentry⟩
      · exact .inl ⟨hsame, List.forall_mem_cons.2 ⟨hskip key, hnone⟩⟩
      · exact .inr ⟨c', List.mem_cons_of_mem c hc', hentry⟩

end State

end SymbolicMachine
