import Mathlib.Data.List.Pairwise
import SymbolicMachine.Proofs.Path.Consistency
import SymbolicMachine.Proofs.Path.Origins
import SymbolicMachine.Proofs.Report.Tables
/-!
# Inputs that lead along a path

The table of inputs of a state that an exploration gets to always exists.  If symbols with different
numbers go by different texts, no entry of it gives way to another one.  Every reference is
described by the clause that decides it, and an alias names an entry for an object or an array.
Every primitive symbol in the inputs, in the frames and in the assumed conditions to which a model
gives a value is described by this value.

A member of an input array that was read is recorded in the current heap only.  Once it is off the
frames, and no condition speaks of it, the table passes it over.
-/
namespace SymbolicMachine

variable {ω τ : Type}

/-! ## Symbols in a state -/

mutual

theorem Term.mem_atoms_of_occurs {x : Symbol} :
    ∀ t : Term, x ∈ t.occurrences → .primitive x ∈ t.atoms
  | .constant _, hx => nomatch hx
  | .symbol ⟨_, _, _⟩, hx =>
    List.mem_cons.2 (.inl (congrArg Atom.primitive (List.mem_singleton.1 hx)))
  | .unary _ _ a, hx => a.mem_atoms_of_occurs hx
  | .binary _ _ a b, hx =>
    List.mem_append.2 ((List.mem_append.1 hx).imp a.mem_atoms_of_occurs b.mem_atoms_of_occurs)
  | .application _ _ args, hx => Term.mem_atomsAll_of_occurs args hx
  | .conversion _ a, hx => a.mem_atoms_of_occurs hx

theorem Term.mem_atomsAll_of_occurs {x : Symbol} :
    ∀ args : List Term, x ∈ Term.occurrencesAll args → .primitive x ∈ Term.atomsAll args
  | [], hx => nomatch hx
  | a :: rest, hx =>
    List.mem_append.2 ((List.mem_append.1 hx).imp a.mem_atoms_of_occurs
      (Term.mem_atomsAll_of_occurs rest))

end

/-- The symbols in a value, without those that their origins speak of. -/
def Value.symbols : Value → List Atom
  | .primitive t => t.occurrences.map .primitive
  | .reference (.symbolic r) => [.reference r]
  | .reference _ => []

theorem Value.mem_atoms_of_mem_symbols {v : Value} {x : Atom} (h : x ∈ v.symbols) :
    x ∈ v.atoms := by
  rcases v with t | (_ | _ | r)
  · obtain ⟨y, hy, rfl⟩ := List.mem_map.1 h
    exact t.mem_atoms_of_occurs hy
  · cases h
  · cases h
  · cases List.mem_singleton.1 h
    exact List.mem_cons_self

namespace State

variable {s t : State} {m : Model} {x y : Symbol} {r : RefSymbol}

/-- All symbols that occur in a state. -/
def symbols (s : State) : List Atom := (s.values ++ s.assumedValues).flatMap Value.symbols

/-- Symbols with different numbers go by different texts. -/
def NamesApart (s : State) : Prop :=
  ∀ x ∈ s.symbols, ∀ y ∈ s.symbols, x.origin.text = y.origin.text → x.id = y.id

instance : Decidable s.NamesApart :=
  inferInstanceAs (Decidable (∀ x ∈ s.symbols, ∀ y ∈ s.symbols, _ → _))

/-- The primitive terms in the inputs, in the frames and in the assumed conditions. -/
inductive Mentions (s : State) (t : Term) : Prop
  | content {a : Nat} {o : HeapObject} (ho : s.initialHeap.get a = .ok o)
      (ht : o.Contains (.primitive t)) : Mentions s t
  | length {a : Nat} {b : ArrayObject} (hb : s.initialHeap.get a = .ok (.array b))
      (ht : b.length = t) : Mentions s t
  | operand {f : Frame} (hf : f ∈ s.frames) (ht : .primitive t ∈ f.operands.operands) : Mentions s t
  | slot {f : Frame} (hf : f ∈ s.frames) (ht : some (.primitive t) ∈ f.locals.slots) : Mentions s t
  | assumed (ht : .assume t ∈ s.pathCondition.clauses) : Mentions s t

/-- A primitive symbol in the inputs, in the frames or in an assumed condition. -/
def Uses (s : State) (x : Symbol) : Prop := ∃ t, s.Mentions t ∧ x ∈ t.occurrences

theorem term?_eq_some {v : Value} {t : Term} : v.term? = some t ↔ v = .primitive t := by
  cases v <;> simp [Value.term?]

theorem mem_termsOfObject {o : HeapObject} {t : Term} :
    t ∈ termsOfObject o ↔ o.Contains (.primitive t) ∨ ∃ b, o = .array b ∧ b.length = t := by
  cases o with
  | object i =>
    simp [termsOfObject, HeapObject.Contains, OrderedMap.values, term?_eq_some,
      OrderedMap.mem_entries_iff]
  | array a =>
    simp [termsOfObject, HeapObject.Contains, term?_eq_some, or_comm, @eq_comm Term t]

theorem mem_writtenFrom {slots : List (Option Value)} {v : Value} (slot : Nat) :
    (∃ k, (k, v) ∈ Locals.writtenFrom slot slots) ↔ some v ∈ slots := by
  induction slots generalizing slot with
  | nil => simp [Locals.writtenFrom]
  | cons x rest ih =>
    cases x with
    | none => simp [Locals.writtenFrom, ih]
    | some w => simp [Locals.writtenFrom, ih, exists_or]

theorem mem_termsOfFrame {f : Frame} {t : Term} :
    t ∈ termsOfFrame f ↔
      some (.primitive t) ∈ f.locals.slots ∨ .primitive t ∈ f.operands.operands := by
  rw [← mem_writtenFrom 0]
  simp [termsOfFrame, Locals.written, OperandStack.toList, term?_eq_some]

theorem mem_inputTerms {t : Term} : t ∈ s.inputTerms ↔ s.Mentions t := by
  have hclause : ∀ c, termOfClause? c = some t ↔ c = .assume t := by
    intro c
    cases c <;> simp [termOfClause?]
  simp only [inputTerms, List.mem_append, List.mem_flatMap, List.mem_filterMap, List.mem_reverse,
    mem_termsOfObject, mem_termsOfFrame, hclause, exists_eq_right]
  constructor
  · rintro ((⟨o, ho, ht⟩ | ⟨f, hf, ht⟩) | ht)
    · obtain ⟨⟨a, o⟩, hentry, rfl⟩ := List.mem_map.1 ho
      have hget := Heap.mem_toList_iff.1 hentry
      rcases ht with ht | ⟨b, rfl, ht⟩
      · exact .content hget ht
      · exact .length hget ht
    · exact ht.elim (.slot hf) (.operand hf)
    · exact .assumed ht
  · have hobject : ∀ {a o}, s.initialHeap.get a = .ok o → o ∈ s.initialHeap.objects.values :=
      fun ho => List.mem_map_of_mem (Heap.mem_toList_iff.2 ho)
    rintro (⟨ho, ht⟩ | ⟨hb, ht⟩ | ⟨hf, ht⟩ | ⟨hf, ht⟩ | ht)
    · exact .inl (.inl ⟨_, hobject ho, .inl ht⟩)
    · exact .inl (.inl ⟨_, hobject hb, .inr ⟨_, rfl, ht⟩⟩)
    · exact .inl (.inr ⟨_, hf, .inr ht⟩)
    · exact .inl (.inr ⟨_, hf, .inl ht⟩)
    · exact .inr ht

theorem mem_occurrences : x ∈ s.inputTerms.flatMap Term.occurrences ↔ s.Uses x := by
  simp only [List.mem_flatMap, mem_inputTerms, Uses]

/-- What a state mentions is one of its values, or it is assumed. -/
theorem Mentions.mem_values {t : Term} (h : s.Mentions t) :
    .primitive t ∈ s.values ++ s.assumedValues := by
  have hmade : s.MadeOf (· ∈ s.values) [] := madeOf_iff.2 ⟨fun _ hv => hv, nofun⟩
  have hobject : ∀ {a o}, s.initialHeap.get a = .ok o → ∀ v ∈ o.values, v ∈ s.values :=
    fun ho => (Heap.forall_values_iff.1 hmade.inputs _ _ ho).2
  rw [List.mem_append]
  cases h with
  | content ho ht => exact .inl ((HeapObject.forall_values_iff.1 (hobject ho)).2.1 _ ht)
  | length hb ht => exact .inl (ht ▸ ((HeapObject.forall_values_iff.1 (hobject hb)).2.2 _ rfl).1)
  | operand hf ht => exact .inl ((Frame.forall_values_iff.1 (hmade.frames _ hf)).1 _ ht)
  | slot hf ht => exact .inl ((Frame.forall_values_iff.1 (hmade.frames _ hf)).2 _ ht)
  | assumed ht =>
    refine .inr (List.mem_flatMap.2 ⟨.assume t, List.mem_filter.2 ⟨ht, rfl⟩, ?_⟩)
    exact List.mem_cons_self

theorem Uses.mem_symbols (h : s.Uses x) : .primitive x ∈ s.symbols := by
  obtain ⟨t, ht, hx⟩ := h
  exact List.mem_flatMap.2 ⟨_, ht.mem_values, List.mem_map_of_mem hx⟩

theorem mem_symbols_of_clause {c : Clause} (hc : c ∈ s.pathCondition.clauses)
    (hr : c.reference? = some r) : .reference r ∈ s.symbols := by
  have hmade : s.MadeOf (· ∈ s.values) [] := madeOf_iff.2 ⟨fun _ hv => hv, nofun⟩
  have hvalue : Value.reference (.symbolic r) ∈ c.values := by
    cases c <;> cases hr <;> exact List.mem_cons_self
  have hmem := hmade.targets c hc (by rw [hr]; rfl) _ hvalue
  exact List.mem_flatMap.2 ⟨_, List.mem_append_left _ hmem, List.mem_cons_self⟩

/-! ## States with a table -/

/-- The length of an input array is a symbol made for the reference that the array was made for. -/
def Measured (s : State) : Prop :=
  ∀ {a o}, s.initialHeap.get a = .ok o → Descriptor.isArray o.className = true →
    ∃ b r id, o = .array b ∧ o.origin = some r ∧ b.length = .symbol ⟨id, .int, .length r⟩

/-- A state whose path condition and inputs agree, and in which both the number and the text of a
symbol tell it from others. -/
structure Tabled (classes : ClassTable) (s : State) : Prop where
  consistent : s.Consistent classes
  measured : s.Measured
  distinct : ∀ x ∈ s.symbols, ∀ y ∈ s.symbols, x.id = y.id → x = y
  apart : s.NamesApart

/-- A description of an object or an array of a class. -/
inductive Depicts (className : String) : InputDescription → Prop
  | object : Depicts className (.object className)
  | array (length : String) : Depicts className (.array className length)

/-- What the clause that decides a reference says of the reference.  The length of an array is the
value of its symbol, if the model gives it one.  The input that an alias names has an entry of its
own, for an object or an array. -/
inductive Explains (s : State) (m : Model) (table : InputTable) : Clause → InputDescription → Prop
  | isNull (r : RefSymbol) : Explains s m table (.isNull r) .null
  | object {r : RefSymbol} {a : Nat} {c : String} (hc : Descriptor.isArray c = false) :
      Explains s m table (.expands r a c) (.object c)
  | array {r : RefSymbol} {a : Nat} {c : String} {b : ArrayObject} {x : Symbol}
      (hc : Descriptor.isArray c = true) (hb : s.initialHeap.get a = .ok (.array b))
      (hlength : b.length = .symbol x) (horigin : x.origin = .length r) :
      Explains s m table (.expands r a c)
        (.array c (((m.get? x.id).map Constant.text).getD x.text))
  | alias {r r' : RefSymbol} {a : Nat} {o : HeapObject} {d : InputDescription}
      (ho : s.initialHeap.get a = .ok o) (horigin : o.origin = some r')
      (htarget : table.get? r'.origin.text = some d) (hd : Depicts o.className d) :
      Explains s m table (.aliases r a) (.alias r'.origin.text)

namespace Tabled

variable {classes : ClassTable}

/-- A reference is decided by one clause. -/
theorem clause_unique (h : s.Tabled classes) {c d : Clause} {r' : RefSymbol}
    (hc : c ∈ s.pathCondition.clauses) (hd : d ∈ s.pathCondition.clauses)
    (hr : c.reference? = some r) (hr' : d.reference? = some r') (heq : r.id = r'.id) : c = d := by
  by_contra hne
  have hsymm : Std.Symm fun c d : Clause =>
      ∀ r r', c.reference? = some r → d.reference? = some r' → r.id ≠ r'.id :=
    ⟨fun c d h r r' hr hr' => (h r' r hr' hr).symm⟩
  exact h.consistent.path.resolved_once.forall hc hd hne r r' hr hr' heq

/-- Symbols that go by the same text are the same. -/
theorem eq_of_text_eq (h : s.Tabled classes) {x y : Atom} (hx : x ∈ s.symbols)
    (hy : y ∈ s.symbols) (htext : x.origin.text = y.origin.text) : x = y :=
  h.distinct x hx y hy (h.apart x hx y hy htext)

theorem mem_inputSymbols (h : s.Tabled classes) : x ∈ s.inputSymbols ↔ s.Uses x := by
  constructor
  · exact fun hx => mem_occurrences.1 (Symbol.mem_of_mem_firsts hx)
  · intro hx
    obtain ⟨y, hy, hid⟩ := Symbol.exists_mem_firsts (mem_occurrences.2 hx) (List.not_mem_nil)
    have hused : s.Uses y := mem_occurrences.1 (Symbol.mem_of_mem_firsts hy)
    cases h.distinct _ hused.mem_symbols _ hx.mem_symbols hid
    exact hy

/-! ## What clauses are described by -/

theorem describe?_expands (h : s.Tabled classes) (m : Model) (table : InputTable) {a : Nat}
    {c : String} (hc : .expands r a c ∈ s.pathCondition.clauses) :
    ∃ d, s.describe? m (.expands r a c) = .ok (some d) ∧ Depicts c d ∧
      Explains s m table (.expands r a c) d := by
  obtain ⟨o, ho, rfl, horigin⟩ := h.consistent.bound hc
  cases harray : Descriptor.isArray o.className with
  | false =>
    refine ⟨_, ?_, .object, .object harray⟩
    rw [describe?, harray]
    rfl
  | true =>
    obtain ⟨b, r', id, rfl, horigin', hlength⟩ := h.measured ho harray
    cases horigin.symm.trans horigin'
    refine ⟨_, ?_, .array _, .array harray ho hlength rfl⟩
    have hget : s.getInitialObject a = .ok (.array b) := ho
    simp only [describe?, harray, if_true, hget]
    change Except.ok (some (InputDescription.array b.className (m.render b.length))) = _
    rw [hlength, Model.render]
    cases m.get? id <;> rfl

theorem describe?_aliases (h : s.Tabled classes) (m : Model) {a : Nat}
    (hc : .aliases r a ∈ s.pathCondition.clauses) :
    ∃ o r', s.initialHeap.get a = .ok o ∧ o.origin = some r' ∧
      .expands r' a o.className ∈ s.pathCondition.clauses ∧
      s.describe? m (.aliases r a) = .ok (some (.alias r'.origin.text)) := by
  obtain ⟨before, after, hclauses⟩ := List.append_of_mem hc
  obtain ⟨r'', className, hexpanded, -⟩ := h.consistent.path.aliased hclauses
  have hmem : .expands r'' a className ∈ s.pathCondition.clauses :=
    hclauses ▸ List.mem_append_left _ hexpanded
  obtain ⟨o, ho, -, -⟩ := h.consistent.bound hmem
  obtain ⟨r', horigin, hcovered⟩ := h.consistent.covered ho
  refine ⟨o, r', ho, horigin, hcovered, ?_⟩
  have hget : s.getInitialObject a = .ok o := ho
  simp only [describe?, hget, bind, Except.bind, horigin]

theorem exists_describe (h : s.Tabled classes) (m : Model) :
    ∀ c ∈ s.pathCondition.clauses, ∃ d, s.describe? m c = .ok d := by
  intro c hc
  cases c with
  | isNull r => exact ⟨_, rfl⟩
  | expands r a className =>
    obtain ⟨d, hd, -⟩ := h.describe?_expands m .empty hc
    exact ⟨_, hd⟩
  | aliases r a =>
    obtain ⟨o, r', -, -, -, hd⟩ := h.describe?_aliases m hc
    exact ⟨_, hd⟩
  | assume _ | initialized _ | notInitialized _ => exact ⟨_, rfl⟩

/-! ## The entries of the table -/

/-- The table of a state has the description of every reference that is decided, and else it has
values of symbols. -/
theorem exists_describeInputs (h : s.Tabled classes) (m : Model) :
    ∃ table, s.describeInputs m = .ok table ∧
      (∀ c ∈ s.pathCondition.clauses, ∀ r d, c.reference? = some r →
        s.describe? m c = .ok (some d) → table.get? r.origin.text = some d) ∧
      ∀ text value, table.get? text = some (.constant value) ↔
        ∃ x c, s.Uses x ∧ x.origin.text = text ∧ m.get? x.id = some c ∧ c.text = value := by
  obtain ⟨built, hbuilt, hentries⟩ := exists_describeReferences (h.exists_describe m) .empty
  have hsymbols := get?_describeSymbols m built s.inputSymbols
  refine ⟨describeSymbols m built s.inputSymbols, by rw [describeInputs, hbuilt]; rfl, ?_, ?_⟩
  · intro c hc r d hr hd
    rcases hsymbols r.origin.text with ⟨hsame, -⟩ | ⟨x, hx, _, htext, -, -⟩
    · rw [hsame]
      rcases hentries r.origin.text with ⟨-, hnone⟩ | ⟨c', hc', d', hd', hentry⟩
      · exact absurd ⟨hd, r, hr, rfl⟩ (hnone c hc d)
      · obtain ⟨r', hr', htext⟩ := hd'.key
        cases h.eq_of_text_eq (mem_symbols_of_clause hc' hr') (mem_symbols_of_clause hc hr) htext
        cases h.clause_unique hc hc' hr hr' rfl
        cases hd.symm.trans hd'.description
        exact hentry
    · -- A primitive symbol does not go by the text of a reference.
      have hused := (h.mem_inputSymbols.1 hx).mem_symbols
      cases h.eq_of_text_eq hused (mem_symbols_of_clause hc hr) htext
  · intro text value
    constructor
    · intro hentry
      rcases hsymbols text with ⟨hsame, -⟩ | ⟨x, hx, c, htext, hc, hvalue⟩
      · rw [hsame] at hentry
        rcases hentries text with ⟨hempty, -⟩ | ⟨c, -, d, hd, hentry'⟩
        · cases hempty.symm.trans hentry
        · cases hentry'.symm.trans hentry
          exact absurd rfl (hd.ne_constant value)
      · cases hvalue.symm.trans hentry
        exact ⟨x, c, h.mem_inputSymbols.1 hx, htext, hc, rfl⟩
    · rintro ⟨x, c, hx, rfl, hc, rfl⟩
      rcases hsymbols x.origin.text with ⟨-, hnone⟩ | ⟨y, hy, c', htext, hc', hvalue⟩
      · exact nomatch hc.symm.trans (hnone x (h.mem_inputSymbols.2 hx) rfl)
      · have hused := (h.mem_inputSymbols.1 hy).mem_symbols
        cases h.eq_of_text_eq hused hx.mem_symbols htext
        cases hc.symm.trans hc'
        exact hvalue

/-- The entry of a reference is what the clause that decides it says. -/
theorem explains (h : s.Tabled classes) {table : InputTable}
    (hentries : ∀ c ∈ s.pathCondition.clauses, ∀ r d, c.reference? = some r →
      s.describe? m c = .ok (some d) → table.get? r.origin.text = some d)
    {c : Clause} (hc : c ∈ s.pathCondition.clauses) (hr : c.reference? = some r) :
    ∃ d, Explains s m table c d ∧ table.get? r.origin.text = some d := by
  cases c with
  | isNull q =>
    cases hr
    exact ⟨.null, .isNull r, hentries _ hc r .null rfl rfl⟩
  | expands q a className =>
    cases hr
    obtain ⟨d, hd, -, hexplains⟩ := h.describe?_expands m table hc
    exact ⟨d, hexplains, hentries _ hc r d rfl hd⟩
  | aliases q a =>
    cases hr
    obtain ⟨o, r', ho, horigin, hexpanded, hd⟩ := h.describe?_aliases m hc
    obtain ⟨d, hd', hdepicts, -⟩ := h.describe?_expands m table hexpanded
    exact ⟨_, .alias ho horigin (hentries _ hexpanded r' d rfl hd') hdepicts,
      hentries _ hc r _ rfl hd⟩
  | assume _ | initialized _ | notInitialized _ => cases hr

end Tabled

end State

/-! ## Explorations -/

namespace Engine

variable {e : Engine ω τ} {s t : State} {hand hand' : List Value}

theorem Act.measured (hact : Act e s hand t hand') (h : s.Measured) : t.Measured := by
  cases hact with
  | take _ | make _ | widen _ _ | apply _ => exact h
  | drop _ _ | push _ _ _ | jump _ _ | enter _ _ | place _ _ => exact h
  | namePrimitive _ | nameReference _ | skip _ => exact h
  | allocate _ | record _ _ _ _ | throw _ => exact h
  | assume _ _ _ | isNull _ _ | aliases _ _ _ _ | initialized _ _ _ => exact h
  | expands _ _ _ hobject _ =>
    intro a o ho harray
    rcases State.get_insertAt_cases ho with ⟨-, rfl⟩ | ho
    · cases hobject with
      | array _ => exact ⟨_, _, _, rfl, rfl, rfl⟩
      | object hinstance _ => exact absurd (harray.symm.trans hinstance) nofun
    · exact h ho harray

section Reachable

variable {method : MethodSignature} {isStatic : Bool} {code : List UInt8} {maxLocals maxStack : Nat}
  {locals : List LocalVariable}

theorem measured_initialState
    (hroot : e.initialState method isStatic code maxLocals locals maxStack = .ok s) :
    s.Measured := by
  obtain ⟨hand, hacts⟩ := initialState_acts hroot
  exact hacts.keeps (P := fun s _ => s.Measured) (fun h hact => hact.measured h) nofun

/-- The states that an exploration gets to have tables, if symbols with different numbers go by
different texts. -/
theorem tabled_of_descends
    (hroot : e.initialState method isStatic code maxLocals locals maxStack = .ok s)
    (htriggers : e.triggers = .absent τ) (hsimplify : e.oracle.InventsNoSymbols)
    (h : e.Descends (· = ·) s t) (hapart : t.NamesApart) : t.Tabled e.classes where
  consistent := by
    refine h.keeps htriggers Act.consistent ?_ (consistent_initialState hroot)
    rintro s _ hs rfl
    exact hs
  measured := by
    refine h.keeps htriggers (P := State.Measured) (fun h hact => hact.measured h) ?_
      (measured_initialState hroot)
    rintro s _ hs rfl
    exact hs
  distinct := by
    have haccounted := h.accountedFor htriggers (accountedFor_initialState hroot)
    have haccounts := haccounted.accounts.2 hsimplify
    have hoccurs : ∀ x ∈ t.symbols, x ∈ t.atoms ∨ x ∈ t.assumedAtoms := by
      intro x hx
      obtain ⟨v, hv, hx⟩ := List.mem_flatMap.1 hx
      have hatom := Value.mem_atoms_of_mem_symbols hx
      exact (List.mem_append.1 hv).imp (fun hv => List.mem_flatMap.2 ⟨v, hv, hatom⟩)
        fun hv => List.mem_flatMap.2 ⟨v, hv, hatom⟩
    exact fun x hx y hy hid => haccounts.distinct (hoccurs x hx) (hoccurs y hy) hid
  apart := hapart

/-- The inputs that lead to a state that an exploration gets to have a table.  It describes every
reference by the clause that decides it: as null, as an object or an array of the class, or as an
alias of an input that the table describes as an object or an array. -/
theorem references_are_described
    (hroot : e.initialState method isStatic code maxLocals locals maxStack = .ok s)
    (htriggers : e.triggers = .absent τ) (hsimplify : e.oracle.InventsNoSymbols)
    (h : e.Descends (· = ·) s t) (hapart : t.NamesApart) (m : Model) :
    ∃ table, t.describeInputs m = .ok table ∧
      ∀ c ∈ t.pathCondition.clauses, ∀ r, c.reference? = some r →
        ∃ d, t.Explains m table c d ∧ table.get? r.origin.text = some d := by
  have htabled := tabled_of_descends hroot htriggers hsimplify h hapart
  obtain ⟨table, htable, hentries, -⟩ := htabled.exists_describeInputs m
  exact ⟨table, htable, fun c hc r hr => htabled.explains hentries hc hr⟩

/-- The start of a method that takes two objects. -/
def objectInputs : State :=
  (State.root.withSymbols 2).pushFrame
    (.create ⟨"Main", "run", "(Ljava/lang/Object;Ljava/lang/Object;)V"⟩ [0, 0, 0]
      ⟨[some (.reference (.symbolic ⟨0, rootClass, .root "arg0"⟩)),
        some (.reference (.symbolic ⟨1, rootClass, .root "arg1"⟩))], []⟩ 2)

theorem initialState_objectInputs :
    (permissive .initial).initialState
      ⟨"Main", "run", "(Ljava/lang/Object;Ljava/lang/Object;)V"⟩ true [0, 0, 0] 2 [] 2 =
        .ok objectInputs := by
  have hparameters : Descriptor.parameterTypes "(Ljava/lang/Object;Ljava/lang/Object;)V" =
      .ok ["Ljava/lang/Object;", "Ljava/lang/Object;"] := by cbv
  simp only [initialState, createInputs, hparameters]
  rfl

/-- After the second object turned out to be the first one, each has an entry. -/
theorem aliased_references_are_described :
    let e := permissive .initial
    ∃ t, e.Descends (· = ·) objectInputs t ∧
      "\x7bR1\x7d == Object[1] (aliases)" ∈ t.pathCondition.clauses.map Clause.text ∧
      ∃ table, t.describeInputs .empty = .ok table ∧
        ∀ c ∈ t.pathCondition.clauses, ∀ r, c.reference? = some r →
          ∃ d, t.Explains .empty table c d ∧ table.get? r.origin.text = some d := by
  intro e
  let choices := [(Instruction.loadLocal 0 1, 1), (.loadLocal 1 1, 1)]
  have hthere : ((e.follow (.start [] ()) choices objectInputs).any fun t =>
      "\x7bR1\x7d == Object[1] (aliases)" ∈ t.pathCondition.clauses.map Clause.text ∧
        t.NamesApart) = true := by
    decide +kernel
  obtain ⟨t, hback, halias, hapart⟩ := exists_givesBack hthere
  have hdescends := hback.descends
  exact ⟨t, hdescends, halias, references_are_described (e := e) initialState_objectInputs rfl
    (Oracle.inventsNoSymbols_of_pure fun _ => rfl) hdescends hapart .empty⟩

/-- The table describes by a value just the primitive symbols in the inputs, in the frames and in
the assumed conditions to which the model gives one. -/
theorem symbols_are_described
    (hroot : e.initialState method isStatic code maxLocals locals maxStack = .ok s)
    (htriggers : e.triggers = .absent τ) (hsimplify : e.oracle.InventsNoSymbols)
    (h : e.Descends (· = ·) s t) (hapart : t.NamesApart) (m : Model) :
    ∃ table, t.describeInputs m = .ok table ∧
      ∀ text value, table.get? text = some (.constant value) ↔
        ∃ x c, t.Uses x ∧ x.origin.text = text ∧ m.get? x.id = some c ∧ c.text = value := by
  have htabled := tabled_of_descends hroot htriggers hsimplify h hapart
  obtain ⟨table, htable, -, hvalues⟩ := htabled.exists_describeInputs m
  exact ⟨table, htable, hvalues⟩

end Reachable

/-- The start of a method that takes an array and an index, with room for a call. -/
def readInputs : State :=
  (State.root.withSymbols 2).pushFrame
    (.create ⟨"Main", "run", "([II)V"⟩ [0, 0, 0, 0, 0, 0, 0, 0]
      ⟨[some (.reference (.symbolic ⟨0, "[I", .root "arg0"⟩)),
        some (.primitive (.symbol ⟨1, .int, .root "arg1"⟩))], []⟩ 4)

theorem initialState_readInputs :
    (permissive .initial).initialState ⟨"Main", "run", "([II)V"⟩ true [0, 0, 0, 0, 0, 0, 0, 0] 2 []
      4 = .ok readInputs := by
  have hparameters : Descriptor.parameterTypes "([II)V" = .ok ["[I", "I"] := by cbv
  simp only [initialState, createInputs, hparameters]
  rfl

/-- The steps by which a method reads a member of its array. -/
def readMember : List (Instruction × Nat) :=
  [(.loadLocal 0 1, 1), (.loadLocal 1 1, 0), (.arrayLoad, 0)]

/-- A member that was read has its value in the table while it is on the stack. -/
theorem member_on_the_stack_is_described :
    let e := permissive .initial
    let m : Model := OrderedMap.empty.insert 3 (.int 7)
    ∃ t, e.Descends (· = ·) readInputs t ∧
      ∃ table, t.describeInputs m = .ok table ∧
        table.get? "\x7bROOT\x7d:arg0[\x7bV1\x7d]" = some (.constant "7") ∧
        ∀ text value, table.get? text = some (.constant value) ↔
          ∃ x c, t.Uses x ∧ x.origin.text = text ∧ m.get? x.id = some c ∧ c.text = value := by
  intro e m
  have hthere : ((e.follow (.start [] ()) readMember readInputs).any fun t =>
      t.NamesApart ∧ (t.describeInputs m).toOption.bind
        (·.get? "\x7bROOT\x7d:arg0[\x7bV1\x7d]") = some (.constant "7")) = true := by
    decide +kernel
  obtain ⟨t, hback, hapart, hentry⟩ := exists_givesBack hthere
  have hdescends := hback.descends
  obtain ⟨table, htable, hvalues⟩ := symbols_are_described (e := e) initialState_readInputs rfl
    (Oracle.inventsNoSymbols_of_pure fun _ => rfl) hdescends hapart m
  rw [htable] at hentry
  exact ⟨t, hdescends, table, htable, hentry, hvalues⟩

/-- Once a call has taken the member off the stack, it is in the array still, but the table has no
entry for it. -/
theorem recorded_member_is_not_described :
    let e := permissive .initial
    let m : Model := OrderedMap.empty.insert 3 (.int 7)
    ∃ t, e.Descends (· = ·) readInputs t ∧ t.NamesApart ∧
      (∃ o ∈ t.heap.objects.values, ∃ u ∈ State.termsOfObject o, ∃ x ∈ u.occurrences,
        x.origin.text = "\x7bROOT\x7d:arg0[\x7bV1\x7d]" ∧ m.get? x.id = some (.int 7)) ∧
      ∃ table, t.describeInputs m = .ok table ∧
        table.get? "\x7bROOT\x7d:arg0[\x7bV1\x7d]" = none := by
  intro e m
  let choices := readMember ++ [(.invokeNative ⟨"Main", "drop", "(I)V"⟩ true 3, 0)]
  have hthere : ((e.follow (.start [] ()) choices readInputs).any fun t =>
      t.NamesApart ∧
        (∃ o ∈ t.heap.objects.values, ∃ u ∈ State.termsOfObject o, ∃ x ∈ u.occurrences,
          x.origin.text = "\x7bROOT\x7d:arg0[\x7bV1\x7d]" ∧ m.get? x.id = some (.int 7)) ∧
        (t.describeInputs m).toOption.map
          (·.get? "\x7bROOT\x7d:arg0[\x7bV1\x7d]") = some none) = true := by
    decide +kernel
  obtain ⟨t, hback, hapart, hmember, hentry⟩ := exists_givesBack hthere
  have hdescends := hback.descends
  refine ⟨t, hdescends, hapart, hmember, ?_⟩
  cases htable : t.describeInputs m with
  | error =>
    rw [htable] at hentry
    cases hentry
  | ok table =>
    rw [htable] at hentry
    exact ⟨table, rfl, Option.some.inj hentry⟩

end Engine

end SymbolicMachine
