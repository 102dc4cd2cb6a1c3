import Mathlib.Data.List.Pairwise
import SymbolicMachine.Path.Clause
import SymbolicMachine.Proofs.Terms.Evaluation
import SymbolicMachine.Types.Hierarchy
/-!
# Concrete inputs

A concrete input is a graph of objects together with the arguments of the method.  It says what
each symbol denotes: an argument stands for itself, and the symbol of a field for what the field
of the denoted object holds.  With that, a list of clauses is true or false of an input.
-/
namespace SymbolicMachine

/-- What a variable of a concrete input holds. -/
inductive Content (O : Type) where
  | primitive (value : Constant)
  | null
  | object (target : O)

namespace Content

variable {O : Type}

def object? : Content O → Option O
  | object o => some o
  | _ => none

def constant? : Content O → Option Constant
  | primitive c => some c
  | _ => none

end Content

/-- A concrete input. -/
structure ObjectGraph (O : Type) where
  /-- The arguments of the method, by the numbers of the symbols that stand for them. -/
  argument : Nat → Content O
  classOf : O → String
  field : O → String → Content O
  /-- The length of an object that is an array. -/
  length : O → Int32
  length_nonneg : ∀ o, 0 ≤ length o

namespace ObjectGraph

variable {O : Type} {g : ObjectGraph O}

mutual

/-- What a symbolic reference stands for. -/
def content (g : ObjectGraph O) : RefSymbol → Content O
  | ⟨id, _, origin⟩ => contentAt g id origin

/-- What a symbol with a number stands for, by its origin.  Members of arrays are not read by the
loads that inputs are told apart by. -/
def contentAt (g : ObjectGraph O) (id : Nat) : Origin → Content O
  | .root _ => g.argument id
  | .field container name =>
    match (content g container).object? with
    | some o => g.field o name
    | none => .null
  | _ => .null

end

def target (g : ObjectGraph O) (r : RefSymbol) : Option O := (g.content r).object?

def value (g : ObjectGraph O) (s : Symbol) : Constant :=
  match s.origin with
  | .length container => .int (((g.target container).map g.length).getD 0)
  | origin => ((g.contentAt s.id origin).constant?).getD (.zero s.type)

/-- The interpretation of terms in which symbols have their values in the input. -/
def interpretation (g : ObjectGraph O) (I : Interpretation) : Interpretation := I.assign g.value

theorem target_field {r container : RefSymbol} {name : String} {o : O}
    (horigin : r.origin = .field container name) (ho : g.target container = some o) :
    g.content r = g.field o name := by
  obtain ⟨id, staticType, origin⟩ := r
  cases horigin
  have hobject : (g.content container).object? = some o := ho
  simp only [content, contentAt, hobject]

theorem symbol_length (I : Interpretation) (id : Nat) {r : RefSymbol} {o : O}
    (ho : g.target r = some o) :
    (g.interpretation I).symbol ⟨id, .int, .length r⟩ = .int (g.length o) := by
  have hvalue : g.value ⟨id, .int, .length r⟩ = .int (g.length o) := by
    unfold value
    simp only [ho, Option.map_some, Option.getD_some]
  simp only [interpretation, Interpretation.assign, hvalue]
  rfl

/-! ## Typed inputs -/

/-- The object in a variable, if there is one, is an instance of a class that a reference of a
static type may be expanded to. -/
def Fits (g : ObjectGraph O) (t : ClassTable) (staticType : String) (c : Content O) : Prop :=
  ∀ o, c.object? = some o → ∃ classes, t.expansionClasses staticType = .ok classes ∧
    g.classOf o ∈ classes

/-- The descriptors of fields by name.  A class may have several fields of one name, of which the
last counts. -/
def descriptors (fields : List FieldInfo) : OrderedMap String String :=
  OrderedMap.ofList (fields.map fun f => (f.name, f.descriptor))

/-- Whatever is in a field fits its descriptor. -/
def FitsFields (g : ObjectGraph O) (t : ClassTable) : Prop :=
  ∀ o fields name descriptor staticType, t.instanceFields (g.classOf o) = .ok fields →
    (descriptors fields).get? name = some descriptor → Descriptor.primType? descriptor = none →
      Descriptor.staticType descriptor = .ok staticType → g.Fits t staticType (g.field o name)

theorem Fits.mem_expansionClasses {t : ClassTable} {r : RefSymbol} {o : O}
    (h : g.Fits t r.staticType (g.content r)) (ho : g.target r = some o) :
    g.classOf o ∈ (t.expansionClasses r.staticType).toOption.getD [] := by
  obtain ⟨classes, hclasses, hmem⟩ := h o ho
  rw [hclasses]
  exact hmem

end ObjectGraph

/-! ## Satisfied clauses -/

def Clause.expanded? : Clause → Option RefSymbol
  | .expands r _ _ => some r
  | _ => none

/-- A clause says that the length of the array that a reference denotes is not negative. -/
def Clause.LengthOf (r : RefSymbol) (c : Clause) : Prop :=
  ∃ id condition, Term.mkGe (.symbol ⟨id, .int, .length r⟩) (.ofInt 0) = .ok condition ∧
    c = .assume condition

namespace ObjectGraph

variable {O : Type} {g : ObjectGraph O} {I : Interpretation}

/-- The clauses of a path are true of an input.  Clauses about the initialization of classes say
nothing about objects. -/
structure Satisfies (g : ObjectGraph O) (I : Interpretation) (clauses : List Clause) : Prop where
  assumed : ∀ {t}, .assume t ∈ clauses → t.eval (g.interpretation I) = .boolean true
  null : ∀ {r}, .isNull r ∈ clauses → g.target r = none
  expanded : ∀ {r a c}, .expands r a c ∈ clauses → ∃ o, g.target r = some o ∧ g.classOf o = c
  distinct : clauses.Pairwise fun c d => ∀ r r', c.expanded? = some r → d.expanded? = some r' →
    g.target r ≠ g.target r'
  aliased : ∀ {r a}, .aliases r a ∈ clauses →
    ∃ r' c, .expands r' a c ∈ clauses ∧ g.target r = g.target r'

/-- A clause is true of an input that satisfies the clauses before it. -/
def Accords (g : ObjectGraph O) (I : Interpretation) (before : List Clause) : Clause → Prop
  | .assume t => t.eval (g.interpretation I) = .boolean true
  | .isNull r => g.target r = none
  | .expands r _ c => ∃ o, g.target r = some o ∧ g.classOf o = c ∧
      ∀ r' a' c', .expands r' a' c' ∈ before → g.target r' ≠ some o
  | .aliases r a => ∃ r' c, .expands r' a c ∈ before ∧ g.target r = g.target r'
  | _ => True

theorem satisfies_nil : g.Satisfies I [] := ⟨nofun, nofun, nofun, .nil, nofun⟩

theorem eq_expands_of_expanded? {c : Clause} {r : RefSymbol} (h : c.expanded? = some r) :
    ∃ a className, c = .expands r a className := by
  cases c with
  | expands r' a className =>
    cases h
    exact ⟨a, className, rfl⟩
  | _ => cases h

/-- Two references that are bound at different addresses denote different objects. -/
theorem Satisfies.address_eq {clauses : List Clause} (h : g.Satisfies I clauses)
    {r r' : RefSymbol} {a a' : Nat} {c c' : String} (hr : .expands r a c ∈ clauses)
    (hr' : .expands r' a' c' ∈ clauses) (htarget : g.target r = g.target r') : a = a' := by
  have : Std.Symm fun c d : Clause => ∀ r r', c.expanded? = some r →
      d.expanded? = some r' → g.target r ≠ g.target r' :=
    ⟨fun _ _ hcd r r' hr hr' heq => hcd r' r hr' hr heq.symm⟩
  by_cases heq : a = a'
  · exact heq
  · have hclauses : Clause.expands r a c ≠ .expands r' a' c' :=
      fun h => heq (Clause.expands.inj h).2.1
    exact absurd htarget (h.distinct.forall hr hr' hclauses r r' rfl rfl)

/-- An address that a clause binds a fresh object to is not one that an earlier clause speaks
of. -/
def Binds (before : List Clause) (c : Clause) : Prop :=
  ∀ r a className, c = .expands r a className → ∀ r', .aliases r' a ∉ before

theorem binds_of_expanded? {before : List Clause} {c : Clause} (h : c.expanded? = none) :
    Binds before c := by
  intro r a className heq
  rw [heq] at h
  cases h

section Append

variable {before : List Clause} {c : Clause}

theorem Satisfies.of_append (hc : Binds before c) (h : g.Satisfies I (before ++ [c])) :
    g.Satisfies I before := by
  have hearlier : ∀ {d}, d ∈ before → d ∈ before ++ [c] := fun hd => List.mem_append_left _ hd
  obtain ⟨hbefore, -, -⟩ := List.pairwise_append.1 h.distinct
  constructor
  · exact fun ht => h.assumed (hearlier ht)
  · exact fun hr => h.null (hearlier hr)
  · exact fun hr => h.expanded (hearlier hr)
  · exact hbefore
  · intro r a hr
    obtain ⟨r', className, hr', htarget⟩ := h.aliased (hearlier hr)
    rcases List.mem_append.1 hr' with hr' | hr'
    · exact ⟨r', className, hr', htarget⟩
    · exact absurd hr (hc r' a className (List.mem_singleton.1 hr').symm r)

theorem Satisfies.accords_last (h : g.Satisfies I (before ++ [c])) : g.Accords I before c := by
  have hlast : c ∈ before ++ [c] := List.mem_append_right _ (List.mem_singleton_self c)
  cases c with
  | assume t => exact h.assumed hlast
  | isNull r => exact h.null hlast
  | expands r a className =>
    obtain ⟨o, ho, hclass⟩ := h.expanded hlast
    obtain ⟨-, -, hdistinct⟩ := List.pairwise_append.1 h.distinct
    refine ⟨o, ho, hclass, fun r' a' c' hr' heq => ?_⟩
    have hne := hdistinct _ hr' _ (List.mem_singleton_self _) r' r rfl rfl
    exact hne (heq.trans ho.symm)
  | aliases r a =>
    obtain ⟨r', className, hr', htarget⟩ := h.aliased hlast
    rcases List.mem_append.1 hr' with hr' | hr'
    · exact ⟨r', className, hr', htarget⟩
    · cases List.mem_singleton.1 hr'
  | initialized className => trivial
  | notInitialized className => trivial

theorem Satisfies.append (h : g.Satisfies I before) (hnew : g.Accords I before c) :
    g.Satisfies I (before ++ [c]) := by
  constructor
  · intro t ht
    rcases List.mem_append.1 ht with ht | ht
    · exact h.assumed ht
    · cases List.mem_singleton.1 ht
      exact hnew
  · intro r hr
    rcases List.mem_append.1 hr with hr | hr
    · exact h.null hr
    · cases List.mem_singleton.1 hr
      exact hnew
  · intro r a className hr
    rcases List.mem_append.1 hr with hr | hr
    · exact h.expanded hr
    · cases List.mem_singleton.1 hr
      obtain ⟨o, ho, hclass, -⟩ := hnew
      exact ⟨o, ho, hclass⟩
  · apply List.pairwise_append.2
    refine ⟨h.distinct, List.pairwise_singleton _ _, ?_⟩
    intro d hd c' hc' r r' hr hr'
    cases List.mem_singleton.1 hc'
    obtain ⟨a, className, rfl⟩ := eq_expands_of_expanded? hr
    obtain ⟨a', className', rfl⟩ := eq_expands_of_expanded? hr'
    obtain ⟨o, ho, -, hfresh⟩ := hnew
    rw [ho]
    exact hfresh r a className hd
  · intro r a hr
    have hbound : ∃ r' className, .expands r' a className ∈ before ∧ g.target r = g.target r' := by
      rcases List.mem_append.1 hr with hr | hr
      · exact h.aliased hr
      · cases List.mem_singleton.1 hr
        exact hnew
    obtain ⟨r', className, hr', htarget⟩ := hbound
    exact ⟨r', className, List.mem_append_left _ hr', htarget⟩

theorem satisfies_append (hc : Binds before c) :
    g.Satisfies I (before ++ [c]) ↔ g.Satisfies I before ∧ g.Accords I before c :=
  ⟨fun h => ⟨h.of_append hc, h.accords_last⟩, fun h => h.1.append h.2⟩

end Append

/-- The assumption about the length of an input array is true of every input in which there is
such an array. -/
theorem accords_length {r : RefSymbol} {o : O} {before : List Clause} {c : Clause}
    (ho : g.target r = some o) (hc : c.LengthOf r) : g.Accords I before c := by
  obtain ⟨id, condition, hcondition, rfl⟩ := hc
  cases hcondition
  have hnonneg := g.length_nonneg o
  change Constant.binaryValue _ .ge ((g.interpretation I).symbol ⟨id, .int, .length r⟩) (.int 0) = _
  rw [symbol_length I id ho]
  change Constant.boolean (decide (0 ≤ (g.length o).toInt)) = _
  rw [decide_eq_true]
  exact Int32.le_iff_toInt_le.1 hnonneg

theorem satisfies_append_lengths {r : RefSymbol} {o : O} {before extra : List Clause}
    (ho : g.target r = some o) (hextra : ∀ c ∈ extra, c.LengthOf r) (h : g.Satisfies I before) :
    g.Satisfies I (before ++ extra) := by
  induction extra generalizing before with
  | nil => rwa [List.append_nil]
  | cons c rest ih =>
    have hc := hextra c List.mem_cons_self
    have hbinds : Binds before c := by
      obtain ⟨id, condition, -, rfl⟩ := hc
      exact binds_of_expanded? rfl
    have hone := (satisfies_append hbinds).2 ⟨h, accords_length ho hc⟩
    rw [List.append_cons]
    exact ih (fun d hd => hextra d (List.mem_cons_of_mem _ hd)) hone

end ObjectGraph

end SymbolicMachine
