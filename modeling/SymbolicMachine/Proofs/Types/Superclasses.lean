import Mathlib.Logic.Relation
import SymbolicMachine.Proofs.Actions
import SymbolicMachine.Types.Hierarchy
/-!
# Superclasses

The classes above a class form a chain.  It ends at a class without a superclass, breaks off at a
name that no class has, or comes back to one of its classes and so goes on for ever.  Just in the
last case the fields of the class are looked for without end, and there is no such case in a table
in which no class is above itself.
-/
namespace SymbolicMachine.ClassTable

variable {t : ClassTable} {name above superclass : String} {c : ClassInfo} {met : List String}

/-- A class is directly below another one. -/
def Extends (t : ClassTable) (name superclass : String) : Prop :=
  ∃ c, t.classes.get? name = some c ∧ c.superclass = some superclass

/-- No class is above itself. -/
def Acyclic (t : ClassTable) : Prop := ∀ name, ¬Relation.TransGen t.Extends name name

theorem acyclic_of_rank (rank : String → Nat)
    (h : ∀ name superclass, t.Extends name superclass → rank superclass < rank name) :
    t.Acyclic := by
  have hfalls : ∀ name above, Relation.TransGen t.Extends name above → rank above < rank name := by
    intro name above habove
    induction habove with
    | single hextends => exact h _ _ hextends
    | tail _ hextends ih => exact Nat.lt_trans (h _ _ hextends) ih
  exact fun name habove => Nat.lt_irrefl _ (hfalls name name habove)

theorem initial_acyclic : initial.Acyclic := by
  refine acyclic_of_rank (fun _ => 0) fun name superclass ⟨c, hc, hsuperclass⟩ => ?_
  have hentries : initial.classes.entries = [(rootClass, .named rootClass)] := rfl
  have hroot := OrderedMap.mem_entries_iff.2 hc
  rw [hentries, List.mem_singleton] at hroot
  cases hroot
  cases hsuperclass

/-! ## Searches without end -/

/-- The name that stands a number of steps above a class, if the chain goes that far. -/
def ancestor? (t : ClassTable) (name : String) : Nat → Option String
  | 0 => some name
  | k + 1 =>
    match t.classes.get? name with
    | none => none
    | some c => c.superclass.bind fun superclass => t.ancestor? superclass k

theorem ancestor?_succ (h : t.Extends name superclass) (k : Nat) :
    t.ancestor? name (k + 1) = t.ancestor? superclass k := by
  obtain ⟨c, hc, hsuperclass⟩ := h
  rw [ancestor?, hc]
  dsimp only
  rw [hsuperclass, Option.bind_some]

/-- The classes above a class go on for ever. -/
def Unending (t : ClassTable) (name : String) : Prop :=
  ∀ k, (t.ancestor? name k).isSome = true

theorem unending_superclass (h : t.Unending name) (hextends : t.Extends name superclass) :
    t.Unending superclass := fun k => ancestor?_succ hextends k ▸ h (k + 1)

/-- A chain that comes to a class that is above itself has no end. -/
theorem unending_of_cycle (hcycle : Relation.TransGen t.Extends above above)
    (hreach : Relation.ReflTransGen t.Extends name above) : t.Unending name := by
  intro k
  induction k generalizing name with
  | zero => rfl
  | succ k ih =>
    obtain ⟨superclass, hextends, hreach⟩ : ∃ superclass, t.Extends name superclass ∧
        Relation.ReflTransGen t.Extends superclass above := by
      rcases hreach.cases_head with rfl | hnext
      · exact Relation.TransGen.head'_iff.1 hcycle
      · exact hnext
    rw [ancestor?_succ hextends]
    exact ih hreach

/-- What is found without end is above itself, and above the class at which the search started. -/
theorem cycle_of_fieldsFrom (hmet : ∀ below ∈ met, Relation.TransGen t.Extends below name)
    (h : t.fieldsFrom met name = .error (.endless above)) :
    Relation.ReflTransGen t.Extends name above ∧ Relation.TransGen t.Extends above above := by
  fun_induction fieldsFrom t met name with
  | case1 met name hcontains =>
    cases h
    exact ⟨.refl, hmet _ (List.contains_iff_mem.1 hcontains)⟩
  | case2 met name hcontains hc => cases h
  | case3 met name hcontains c hc hroot => cases h
  | case4 met name hcontains c hc superclass hsuperclass inherited hinherited ih => cases h
  | case5 met name hcontains c hc superclass hsuperclass error herror ih =>
    cases h
    have hextends : t.Extends name superclass := ⟨c, hc, hsuperclass⟩
    obtain ⟨hreach, hcycle⟩ := ih (fun below hbelow => by
      rcases List.mem_cons.1 hbelow with rfl | hbelow
      · exact .single hextends
      · exact (hmet below hbelow).tail hextends) herror
    exact ⟨hreach.head hextends, hcycle⟩

/-- On a chain without end the fields are looked for without end. -/
theorem Unending.exists_endless (h : t.Unending name) :
    ∃ above, t.fieldsFrom met name = .error (.endless above) := by
  fun_induction fieldsFrom t met name with
  | case1 met name hcontains => exact ⟨name, rfl⟩
  | case2 met name hcontains hc =>
    have hnext := h 1
    rw [ancestor?, hc] at hnext
    cases hnext
  | case3 met name hcontains c hc hroot =>
    have hnext := h 1
    simp [ancestor?, hc, hroot] at hnext
  | case4 met name hcontains c hc superclass hsuperclass inherited hinherited ih =>
    obtain ⟨above, habove⟩ := ih (unending_superclass h ⟨c, hc, hsuperclass⟩)
    cases hinherited.symm.trans habove
  | case5 met name hcontains c hc superclass hsuperclass error herror ih =>
    obtain ⟨above, habove⟩ := ih (unending_superclass h ⟨c, hc, hsuperclass⟩)
    exact ⟨above, congrArg Except.error (Except.error.inj (herror.symm.trans habove))⟩

theorem isEndless_eq_true :
    t.isEndless name = true ↔ ∃ above, t.instanceFields name = .error (.endless above) := by
  unfold isEndless
  rcases t.instanceFields name with (⟨_⟩ | ⟨_, _⟩ | ⟨above⟩) | fields <;>
    simp [ClassError.isEndless]

/-- The fields of a class are looked for without end just if the classes above it go on for
ever. -/
theorem isEndless_iff : t.isEndless name = true ↔ t.Unending name := by
  rw [isEndless_eq_true]
  constructor
  · rintro ⟨above, h⟩
    obtain ⟨hreach, hcycle⟩ := cycle_of_fieldsFrom (List.forall_mem_nil _) h
    exact unending_of_cycle hcycle hreach
  · exact Unending.exists_endless

/-- If no class is above itself, every chain of superclasses ends. -/
theorem Acyclic.not_unending (h : t.Acyclic) (name : String) : ¬t.Unending name := by
  intro hunending
  obtain ⟨above, hfields⟩ : ∃ above, t.fieldsFrom [] name = .error (.endless above) :=
    hunending.exists_endless
  exact h above (cycle_of_fieldsFrom (List.forall_mem_nil _) hfields).2

theorem Acyclic.isEndless_eq_false (h : t.Acyclic) (name : String) : t.isEndless name = false :=
  Bool.eq_false_iff.2 fun hendless => h.not_unending name (isEndless_iff.1 hendless)

/-! ## Classes by name -/

theorem find_eq_ok : t.find name = .ok c ↔ t.classes.get? name = some c := by
  unfold find
  split <;> simp [*]

theorem eq_notFound_of_find {cause : ClassError} (h : t.find name = .error cause) :
    cause = .notFound name := by
  unfold find at h
  split at h <;> cases h
  rfl

/-- The class that a name means to another class is the one of that name. -/
theorem get?_of_resolve {accessor : String} (h : t.resolve accessor name = .ok c) :
    t.classes.get? name = some c := by
  obtain ⟨found, hfind, hvisible⟩ := bind_eq_ok.1 h
  split at hvisible <;> cases hvisible
  exact find_eq_ok.1 hfind

/-- That a class is missing or out of sight is found without a search. -/
theorem isEndless_of_resolve {accessor : String} {cause : ClassError}
    (h : t.resolve accessor name = .error cause) : cause.isEndless = false := by
  rcases bind_eq_error.1 h with hfind | ⟨found, -, hvisible⟩
  · rw [eq_notFound_of_find hfind]
    rfl
  · split at hvisible <;> cases hvisible
    rfl

/-! ## Classes that can have instances -/

/-- A known class that is concrete. -/
def Instantiable (t : ClassTable) (name : String) : Prop :=
  ∃ c, t.classes.get? name = some c ∧ c.isConcrete = true

/-- A reference may be expanded to its own array type, or to concrete classes that fit it. -/
theorem mem_expansionClasses {staticType name : String}
    (hname : name ∈ (t.expansionClasses staticType).toOption.getD []) :
    (Descriptor.isArray staticType = true ∧ name = staticType) ∨
      ∃ info, t.classes.get? name = some info ∧ info.isConcrete = true ∧
        t.isAssignable name staticType = true := by
  unfold expansionClasses at hname
  split at hname
  · rename_i harray
    exact .inl ⟨harray, List.mem_singleton.1 hname⟩
  · right
    cases hfind : t.find staticType with
    | error error =>
      rw [hfind] at hname
      cases hname
    | ok found =>
      rw [hfind] at hname
      obtain ⟨⟨name, info⟩, hinfo, rfl⟩ := List.mem_map.1 hname
      obtain ⟨hentry, hfits⟩ := List.mem_filter.1 hinfo
      obtain ⟨hconcrete, hassignable⟩ := Bool.and_eq_true_iff.1 hfits
      exact ⟨info, OrderedMap.mem_entries_iff.1 hentry, hconcrete, hassignable⟩

/-- The cause for which some class that can have instances cannot be used is that its fields are
looked for without end. -/
def Hangs (t : ClassTable) (cause : ClassError) : Prop :=
  cause.isEndless = true ∧ ∃ name, t.Instantiable name ∧ t.instanceFields name = .error cause

end SymbolicMachine.ClassTable
