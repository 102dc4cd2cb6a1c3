import Mathlib.Data.List.Forall2
import SymbolicMachine.Proofs.Safety.Undisturbed
import SymbolicMachine.Proofs.Inputs.Graph
/-!
# What loads do

A load of a local variable or a field either leaves the path condition as it is in its only
successor, or makes one successor for each candidate of the reference that it decides, with the
clause of that candidate behind the path condition.  This holds if the oracle has no objections
and the fields of all concrete classes are known.
-/
namespace SymbolicMachine

open SymbolicMachine.Action

variable {ω τ : Type}

def Instruction.IsLoad : Instruction → Prop
  | .loadLocal _ _ => True
  | .getField _ => True
  | _ => False

/-- A symbol can be made for the descriptor. -/
def Descriptor.Denotes (d : String) : Prop :=
  Descriptor.isPrimitive d = true ∨ Descriptor.isReference d = true

/-- The fields of every concrete class are known, and have descriptors that denote types. -/
def ClassTable.Complete (t : ClassTable) : Prop :=
  ∀ name c, t.find name = .ok c → c.isConcrete = true →
    ∃ fields, t.instanceFields name = .ok fields ∧ ∀ f ∈ fields, Descriptor.Denotes f.descriptor

/-- The classes that a reference of a static type may be expanded to have known fields, and these
have descriptors that denote types. -/
def ClassTable.Expandable (t : ClassTable) (staticType : String) : Prop :=
  ∀ c ∈ (t.expansionClasses staticType).toOption.getD [], Descriptor.isArray c = false →
    ∃ fields, t.instanceFields c = .ok fields ∧ ∀ f ∈ fields, Descriptor.Denotes f.descriptor

/-- An oracle that holds everything feasible and changes no term. -/
structure Oracle.AlwaysYes (o : Oracle ω) : Prop where
  answers : o.Answers
  ask : ∀ q w, (o.ask q).Meets w (fun verdict _ => verdict = true) fun _ _ => True
  simplify : ∀ t w, (o.simplify t).Meets w (fun t' _ => t' = t) fun _ _ => True

/-- An engine that explores everything there may be. -/
structure Engine.Exhaustive (e : Engine ω τ) : Prop where
  oracle : e.oracle.AlwaysYes
  triggers : e.triggers = .absent τ
  classes : e.classes.Complete

namespace Descriptor

theorem exists_staticType {d : String} (h : Denotes d) (hprim : primType? d = none) :
    ∃ c, staticType d = .ok c := by
  unfold staticType
  split
  · exact ⟨d, rfl⟩
  · rename_i harray
    split
    · exact ⟨_, rfl⟩
    · rename_i hclass
      exfalso
      rcases h with h | h
      · unfold isPrimitive at h
        rw [hprim] at h
        cases h
      · unfold isReference at h
        rw [hclass, Option.isSome_none, Bool.or_false] at h
        exact harray h

end Descriptor

theorem ClassTable.Complete.expandable {t : ClassTable} (h : t.Complete) (staticType : String) :
    t.Expandable staticType := by
  intro c hc hinstance
  rcases mem_expansionClasses hc with ⟨harray, rfl⟩ | ⟨info, hinfo, hconcrete, -⟩
  · exact absurd (hinstance.symm.trans harray) nofun
  · exact h c info (find_eq_ok.2 hinfo) hconcrete

/-- If the fields of every concrete class are known, none of them is looked for without end. -/
theorem ClassTable.Complete.not_hangs {t : ClassTable} (h : t.Complete) {cause : ClassError} :
    ¬t.Hangs cause := by
  rintro ⟨-, name, ⟨c, hc, hconcrete⟩, hfields⟩
  obtain ⟨fields, hfound, -⟩ := h name c (find_eq_ok.2 hc) hconcrete
  cases hfields.symm.trans hfound

theorem ClassTable.expansionClasses_of_isArray {t : ClassTable} {staticType : String}
    (h : Descriptor.isArray staticType = true) :
    t.expansionClasses staticType = .ok [staticType] := if_pos h

/-- A new array needs no fields. -/
theorem ClassTable.expandable_of_isArray {t : ClassTable} {staticType : String}
    (h : Descriptor.isArray staticType = true) : t.Expandable staticType := by
  intro c hc hinstance
  rw [expansionClasses_of_isArray h] at hc
  cases List.mem_singleton.1 hc
  exact absurd (hinstance.symm.trans h) nofun

/-- A concrete class is one that references of its own type may be expanded to. -/
theorem ClassTable.mem_expansionClasses_self {t : ClassTable} {c : String} {info : ClassInfo}
    (hfind : t.classes.get? c = some info) (hconcrete : info.isConcrete = true)
    (harray : Descriptor.isArray c = false) :
    ∃ classes, t.expansionClasses c = .ok classes ∧ c ∈ classes := by
  have hself : t.isAssignable c c = true := by rw [isAssignable, if_pos (.inl rfl)]
  unfold expansionClasses find
  rw [harray, hfind]
  refine ⟨_, rfl, List.mem_map.2 ⟨(c, info), List.mem_filter.2 ⟨?_, ?_⟩, rfl⟩⟩
  · exact OrderedMap.mem_entries_iff.2 hfind
  · exact Bool.and_eq_true_iff.2 ⟨hconcrete, hself⟩

theorem ClassTable.fieldsFrom_of_superclass {t : ClassTable} {met : List String}
    {name superclass : String} {c : ClassInfo} {inherited : List FieldInfo}
    (hmet : met.contains name = false) (hc : t.classes.get? name = some c)
    (hsuperclass : c.superclass = some superclass)
    (hinherited : t.fieldsFrom (name :: met) superclass = .ok inherited) :
    t.fieldsFrom met name = .ok (inherited ++ c.instanceFields) := by
  rw [fieldsFrom]
  split
  · rename_i h
    rw [hmet] at h
    cases h
  · split
    · rename_i h
      rw [hc] at h
      cases h
    · rename_i h
      cases hc.symm.trans h
      simp only [hsuperclass, hinherited]

/-! ## What can be loaded -/

namespace State

/-- A symbolic reference is in a local variable or in an object. -/
def Loadable (s : State) (r : RefSymbol) : Prop :=
  (∃ f ∈ s.frames, some (.reference (.symbolic r)) ∈ f.locals.slots) ∨
    ∃ a o, s.heap.get a = .ok o ∧ o.Contains (.reference (.symbolic r))

/-- The input objects are the same, and no more can be loaded. -/
structure Mirrors (s t : State) : Prop where
  initialHeap : t.initialHeap = s.initialHeap
  next : s.heap.next ≤ t.heap.next
  loadable : ∀ {r}, t.Loadable r → s.Loadable r

section Mirrors

variable {s t u : State}

theorem Mirrors.refl (s : State) : s.Mirrors s := ⟨rfl, Nat.le_refl _, fun h => h⟩

theorem Mirrors.trans (h : s.Mirrors t) (h' : t.Mirrors u) : s.Mirrors u :=
  ⟨h'.initialHeap.trans h.initialHeap, Nat.le_trans h.next h'.next,
    fun hr => h.loadable (h'.loadable hr)⟩

theorem mirrors_withFrame {f g : Frame} {rest : List Frame} (hf : s.frames = f :: rest)
    (hg : g.locals = f.locals) : s.Mirrors (s.withFrames (g :: rest)) := by
  refine ⟨rfl, Nat.le_refl _, fun hr => ?_⟩
  rcases hr with ⟨f', hf', hr⟩ | hr
  · left
    rcases List.mem_cons.1 hf' with rfl | hf'
    · exact ⟨f, hf ▸ List.mem_cons_self, hg ▸ hr⟩
    · exact ⟨f', hf ▸ List.mem_cons_of_mem _ hf', hr⟩
  · exact .inr hr

theorem mirrors_throwNew (s : State) (className : String) :
    s.Mirrors (s.throwNew className).2 := by
  refine ⟨rfl, ?_, fun hr => ?_⟩
  · change s.heap.next ≤ (s.heap.allocate _).2.next
    rw [Heap.next_allocate]
    omega
  · rcases hr with hr | ⟨a, o, ho, hr⟩
    · exact .inl hr
    · rcases get_insertAt_cases ho with ⟨-, rfl⟩ | ho
      · -- The exception has no fields.
        obtain ⟨name, hname⟩ := hr
        cases hname
      · exact .inr ⟨a, o, ho, hr⟩

theorem mirrors_of_settle {fault : Fault} (h : fault.settle s = .ok t) :
    t.pathCondition = s.pathCondition ∧ s.Mirrors t := by
  obtain ⟨className, -, rfl⟩ := Fault.exists_throwNew_of_settle h
  exact ⟨rfl, s.mirrors_throwNew className⟩

theorem mirrors_successorOf (s : State) (branching : Bool) (number : Nat) :
    s.Mirrors (Engine.successorOf s branching number) := by
  unfold Engine.successorOf
  split <;> exact ⟨rfl, Nat.le_refl _, fun h => h⟩

end Mirrors

end State

/-! ## Successors -/

namespace Engine

/-- What a successor is for which a decision was made. -/
inductive Realizes (e : Engine ω τ) (s : State) : Decision → State → Prop
  | null {r t} (hclauses : t.pathCondition.clauses = s.pathCondition.clauses ++ [.isNull r])
      (h : s.Mirrors t) : Realizes e s (.null r) t
  | aliases {r a t}
      (hclauses : t.pathCondition.clauses = s.pathCondition.clauses ++ [.aliases r a])
      (h : s.Mirrors t) : Realizes e s (.aliases r a) t
  | expands {r c fields id object n extra t}
      (hfields : fields = [] ∨ e.classes.instanceFields c = .ok fields)
      (hobject : Expansion r c fields id object n) (hextra : ∀ d ∈ extra, d.LengthOf r)
      (hclauses : t.pathCondition.clauses =
        s.pathCondition.clauses ++ .expands r s.heap.next c :: extra)
      (h : (s.withInput object).Mirrors t) : Realizes e s (.expands r c) t

/-- What a decision for a reference needs, so that it can be realized. -/
def Realizable (e : Engine ω τ) (s : State) : Decision → Prop
  | .null r => s.isResolved r = false
  | .aliases r a => s.isResolved r = false ∧ ∃ o, s.initialHeap.get a = .ok o
  | .expands r c => s.isResolved r = false ∧ ∃ fields, e.expandedFields c = .ok fields ∧
      (Descriptor.isArray c = false → ∀ f ∈ fields, Descriptor.Denotes f.descriptor)
  | _ => False

section Successors

variable {e : Engine ω τ} {s t u : State} {ses : Session ω τ} {a : Alternative} {d : Decision}
  {offset : Nat}

theorem Realizes.mirrors (h : Realizes e s d t) (hpath : u.pathCondition = t.pathCondition)
    (htu : t.Mirrors u) : Realizes e s d u := by
  cases h with
  | null hclauses h => exact .null (hpath ▸ hclauses) (h.trans htu)
  | aliases hclauses h => exact .aliases (hpath ▸ hclauses) (h.trans htu)
  | expands hfields hobject hextra hclauses h =>
    exact .expands hfields hobject hextra (hpath ▸ hclauses) (h.trans htu)

theorem load_mirrors (he : e.triggers = .absent τ) (ha : a.access = none) (v : Value) :
    (e.load a offset v).Meets (s, ses)
      (fun _ w => w.1.pathCondition = s.pathCondition ∧ s.Mirrors w.1)
      fun _ w => w.1.pathCondition = s.pathCondition ∧ s.Mirrors w.1 := by
  have hsame : s.pathCondition = s.pathCondition ∧ s.Mirrors s := ⟨rfl, .refl s⟩
  unfold load recordFresh
  rw [ha, meets_bind, meets_pure, meets_bind, meets_ofExcept]
  refine ⟨fun widened _ => ?_, fun _ _ => hsame⟩
  rw [meets_bind, meets_updating]
  refine State.meets_pushOperand (fun f rest hf _ => ?_) fun _ _ => hsame
  have hpushed := State.mirrors_withFrame (s := s) (g := { f with operands :=
    { f.operands with operands := widened :: f.operands.operands } }) hf rfl
  rw [meets_bind, meets_triggering, he]
  change Meets (updating (State.incPc offset)) _ _ _
  rw [meets_updating]
  refine State.meets_incPc (fun f' rest' hf' _ => ?_) fun _ _ => ⟨rfl, hpushed⟩
  exact ⟨rfl, hpushed.trans (State.mirrors_withFrame hf' rfl)⟩

/-- Where making a successor for a decision fails, it has been made that far, unless the step as
a whole fails with it. -/
def HalfRealized (e : Engine ω τ) (s : State) (d : Decision) (fault : Fault)
    (w : State × Session ω τ) : Prop :=
  (∃ x, fault = .execution x) ∨ Realizes e s d w.1

theorem assumeLength_realizes {r : RefSymbol} {c : String} {fields : List FieldInfo}
    {id n address : Nat} {object : HeapObject} (ho : e.oracle.AlwaysYes)
    (hfields : fields = [] ∨ e.classes.instanceFields c = .ok fields)
    (hobject : Expansion r c fields id object n)
    (hclauses : t.pathCondition.clauses =
      s.pathCondition.clauses ++ [.expands r s.heap.next c])
    (ht : (s.withInput object).Mirrors t)
    (harray : t.getArray address = .ok (.create c (some r) (.symbol ⟨id, .int, .length r⟩))) :
    (e.assumeLength address).Meets (t, ses) (fun _ w => Realizes e s (.expands r c) w.1)
      (HalfRealized e s (.expands r c)) := by
  have hwithout : Realizes e s (.expands r c) t :=
    .expands hfields hobject (List.forall_mem_nil _) hclauses ht
  rw [meets_assumeLength]
  unfold assumeLengthIn
  simp only [meets_bind, meets_ofExcept, mapError_eq_ok, mapError_eq_error, harray]
  refine ⟨fun a ha => ?_, fun fault _ => .inr hwithout⟩
  cases ha
  refine ⟨fun condition hcondition => ?_, fun fault _ => .inr hwithout⟩
  rw [meets_consulting, meets_sync]
  refine (ho.answers.set _ _).mono (fun _ o _ => ?_) fun _ _ h => h.elim
  rw [meets_consulting, Session.meets_consult]
  refine (ho.simplify _ _).mono (fun simplified o' hsimplified => ?_) fun x _ _ => .inl ⟨_, rfl⟩
  cases hsimplified
  rw [meets_updating]
  refine State.meets_assume (fun _ => ?_) fun _ _ => .inr hwithout
  have hlength : ∀ d ∈ [Clause.assume condition], d.LengthOf r := by
    intro d hd
    cases List.mem_singleton.1 hd
    exact ⟨id, condition, hcondition, rfl⟩
  refine .expands hfields hobject hlength ?_ (ht.trans ⟨rfl, Nat.le_refl _, fun h => h⟩)
  change t.pathCondition.clauses ++ [.assume condition] = _
  rw [hclauses, List.append_assoc, List.singleton_append]

theorem instanceFields_of_expandedFields {c : String} {fields : List FieldInfo}
    (h : e.expandedFields c = .ok fields) :
    fields = [] ∨ e.classes.instanceFields c = .ok fields := by
  unfold expandedFields at h
  split at h
  · cases h
    exact .inl rfl
  · exact .inr h

theorem expand_realizes {r : RefSymbol} {c : String} (ho : e.oracle.AlwaysYes)
    (h : Realizable e s (.expands r c)) :
    (e.expand r c).Meets (s, ses) (fun _ w => Realizes e s (.expands r c) w.1)
      (HalfRealized e s (.expands r c)) := by
  obtain ⟨hfree, fields, hfields, hdenotes⟩ := h
  unfold expand
  rw [meets_bind, meets_linked, hfields]
  refine ⟨fun fields' heq => ?_, nofun⟩
  cases heq
  have hknown := instanceFields_of_expandedFields hfields
  rw [meets_bind, meets_updating]
  refine State.meets_assumeExpands (fun object n p _ hobject hp => ?_)
    (fun hresolved => absurd (hfree.symm.trans hresolved) nofun)
    fun hinstance f hf error m _ hprim herror => ?_
  · have hclauses : p.clauses = s.pathCondition.clauses ++ [.expands r s.heap.next c] :=
      PathCondition.clauses_of_push hp
    have hmirrors :
        (s.withInput object).Mirrors (((s.withSymbols n).withInput object).withPath p) :=
      ⟨rfl, Nat.le_refl _, fun h => h⟩
    have hat :
        (((s.withSymbols n).withInput object).withPath p).heap.get s.heap.next = .ok object :=
      s.heap.get_allocate_self object
    split
    · rename_i hassume
      have harray : Descriptor.isArray c = true := (Bool.and_eq_true_iff.1 hassume).1
      cases hobject with
      | array hc =>
        exact assumeLength_realizes ho hknown (.array hc) hclauses hmirrors
          (Heap.getArray_eq_ok.2 hat)
      | object hc _ =>
        rw [harray] at hc
        cases hc
    · exact .expands hknown hobject (List.forall_mem_nil _) hclauses hmirrors
  · obtain ⟨staticType, hstatic⟩ := Descriptor.exists_staticType (hdenotes hinstance f hf) hprim
    rw [hstatic] at herror
    cases herror

/-- What is decided for a reference is assumed, and the reference is the loaded value. -/
theorem assumeDecision_realizes (ho : e.oracle.AlwaysYes) (h : Realizable e s d) :
    (e.assumeDecision d).Meets (s, ses)
      (fun loaded w => loaded.isSome = true ∧ Realizes e s d w.1) (HalfRealized e s d) := by
  have hpath : ∀ p, s.Mirrors (s.withPath p) := fun p => ⟨rfl, Nat.le_refl _, fun h => h⟩
  cases d with
  | loads v => exact h.elim
  | outOfRange => exact h.elim
  | null r =>
    have hfree : s.isResolved r = false := h
    unfold assumeDecision
    rw [meets_bind, meets_updating]
    refine State.meets_assumeNull (fun p _ hp => ?_) fun hr => absurd (hfree.symm.trans hr) nofun
    exact ⟨rfl, .null (PathCondition.clauses_of_push hp) (hpath p)⟩
  | aliases r address =>
    obtain ⟨hfree, o, ho'⟩ := h
    unfold assumeDecision
    rw [meets_bind, meets_updating]
    refine State.meets_assumeAliases (fun p _ _ _ hp => ?_)
      (fun hr => absurd (hfree.symm.trans hr) nofun) fun error herror => ?_
    · exact ⟨rfl, .aliases (PathCondition.clauses_of_push hp) (hpath p)⟩
    · rw [ho'] at herror
      cases herror
  | expands r c =>
    unfold assumeDecision
    rw [meets_bind]
    exact (expand_realizes ho h).mono (fun _ _ hw => ⟨rfl, hw⟩) fun _ _ hw => hw

theorem apply_realizes (he : e.Exhaustive) (ha : a.access = none)
    (h : Realizable e s a.decision) :
    (e.apply a offset).Meets (s, ses) (fun _ w => Realizes e s a.decision w.1)
      (HalfRealized e s a.decision) := by
  unfold apply assumeGuard
  rw [ha, meets_bind, meets_pure, meets_bind]
  refine (assumeDecision_realizes he.oracle h).mono (fun loaded w ⟨hsome, hw⟩ => ?_)
    fun _ _ hw => hw
  cases loaded with
  | none => cases hsome
  | some v =>
    obtain ⟨t, ses'⟩ := w
    exact (load_mirrors he.triggers ha v).mono
      (fun _ w' ⟨hpath, htw⟩ => hw.mirrors hpath htw)
      fun _ w' ⟨hpath, htw⟩ => .inr (hw.mirrors hpath htw)

theorem Realizable.successorOf (h : Realizable e s d) (branching : Bool) (number : Nat) :
    Realizable e (successorOf s branching number) d := by
  unfold Engine.successorOf
  split <;> cases d <;> exact h

theorem Realizes.of_successorOf {branching : Bool} {number : Nat}
    (h : Realizes e (successorOf s branching number) d t) : Realizes e s d t := by
  have hs := s.mirrors_successorOf branching number
  have hpath : (Engine.successorOf s branching number).pathCondition = s.pathCondition := by
    unfold Engine.successorOf
    split <;> rfl
  have hheap : (Engine.successorOf s branching number).heap = s.heap := by
    unfold Engine.successorOf
    split <;> rfl
  cases h with
  | null hclauses h => exact .null (hpath ▸ hclauses) (hs.trans h)
  | aliases hclauses h => exact .aliases (hpath ▸ hclauses) (hs.trans h)
  | expands hfields hobject hextra hclauses h =>
    rename_i object _ _
    have hinput : (s.withInput object).Mirrors
        ((Engine.successorOf s branching number).withInput object) := by
      unfold Engine.successorOf
      split <;> exact ⟨rfl, Nat.le_refl _, fun h => h⟩
    refine .expands hfields hobject hextra ?_ (hinput.trans h)
    rw [hclauses, hpath, hheap]

theorem refineOne_realizes (he : e.Exhaustive) (ha : a.access = none)
    (h : Realizable e s a.decision) (branching : Bool) (number : Nat) :
    (e.refineOne s branching offset number a).Meets ses
      (fun t _ => Realizes e s a.decision t) fun _ _ => True := by
  have hsuccessor := h.successorOf branching number
  refine meets_refineOne ?_
  refine (apply_realizes (a := { a with branch := number }) he ha hsuccessor).mono
    (fun _ w hw => hw.of_successorOf) fun fault w hw => ⟨fun u hu => ?_, fun _ _ => trivial⟩
  rcases hw with ⟨x, rfl⟩ | hw
  · cases hu
  · obtain ⟨hpath, hwu⟩ := State.mirrors_of_settle hu
    exact (hw.mirrors hpath hwu).of_successorOf

theorem refineFrom_realizes (he : e.Exhaustive) (branching : Bool) (number : Nat)
    {decisions : List Decision} (h : ∀ d ∈ decisions, Realizable e s d) :
    (e.refineFrom s branching offset number (decisions.map fun d => .create d none)).Meets ses
      (fun successors _ => List.Forall₂ (Realizes e s) decisions successors)
      fun _ _ => True := by
  induction decisions generalizing number ses with
  | nil => exact .nil
  | cons d rest ih =>
    unfold refineFrom
    rw [List.map_cons, meets_bind]
    have hd : Realizable e s (Alternative.create d none).decision := h d List.mem_cons_self
    refine (refineOne_realizes he rfl hd branching number).mono (fun t ses' ht => ?_) fun _ _ h => h
    rw [meets_bind, Session.meets_count, meets_bind]
    refine (ih (number + 1) fun d' hd' => h d' (List.mem_cons_of_mem _ hd')).mono
      (fun others ses'' hothers => ?_) fun _ _ h => h
    exact .cons ht hothers

end Successors

/-! ## Steps -/

section Steps

variable {e : Engine ω τ} {s t : State} {ses : Session ω τ}

/-- Everything that a reference may turn out to be, in the order of the successors. -/
def decisions (t : ClassTable) (s : State) (r : RefSymbol) : List Decision :=
  (candidates t s r).map (·.2)

/-- What a load comes to. -/
inductive LoadOutcome (e : Engine ω τ) (s : State) : List State → Prop
  | single {successor} (hpath : successor.pathCondition = s.pathCondition)
      (h : s.Mirrors successor) : LoadOutcome e s [successor]
  | decided {working r successors} (hpath : working.pathCondition = s.pathCondition)
      (h : s.Mirrors working) (hr : working.Loadable r)
      (hall : List.Forall₂ (Realizes e working) (decisions e.classes working r) successors) :
      LoadOutcome e s successors

theorem mem_decisions {t : ClassTable} {r : RefSymbol} {d : Decision} :
    d ∈ decisions t s r ↔ d = .null r ∨
      (∃ a o, s.initialHeap.get a = .ok o ∧ t.isAssignable o.className r.staticType = true ∧
        d = .aliases r a) ∨
      ∃ c ∈ (t.expansionClasses r.staticType).toOption.getD [], d = .expands r c := by
  unfold decisions
  rw [List.mem_map]
  constructor
  · rintro ⟨c, hc, rfl⟩
    rcases mem_candidates.1 hc with rfl | ⟨a, o, ho, hassignable, rfl⟩ | ⟨n, hn, rfl⟩
    · exact .inl rfl
    · exact .inr (.inl ⟨a, o, ho, hassignable, rfl⟩)
    · exact .inr (.inr ⟨n, hn, rfl⟩)
  · rintro (rfl | ⟨a, o, ho, hassignable, rfl⟩ | ⟨n, hn, rfl⟩)
    · exact ⟨_, mem_candidates.2 (.inl rfl), rfl⟩
    · exact ⟨_, mem_candidates.2 (.inr (.inl ⟨a, o, ho, hassignable, rfl⟩)), rfl⟩
    · exact ⟨_, mem_candidates.2 (.inr (.inr ⟨n, hn, rfl⟩)), rfl⟩

theorem exists_expandedFields {staticType c : String} (hclasses : e.classes.Expandable staticType)
    (hc : c ∈ (e.classes.expansionClasses staticType).toOption.getD []) :
    ∃ fields, e.expandedFields c = .ok fields ∧
      (Descriptor.isArray c = false → ∀ f ∈ fields, Descriptor.Denotes f.descriptor) := by
  unfold expandedFields
  split
  · rename_i harray
    exact ⟨[], rfl, fun hinstance => absurd (hinstance.symm.trans harray) nofun⟩
  · rename_i harray
    obtain ⟨fields, hfields, hdenotes⟩ := hclasses c hc (Bool.eq_false_iff.2 harray)
    exact ⟨fields, hfields, fun _ => hdenotes⟩

theorem realizable_of_mem_decisions {r : RefSymbol} (hclasses : e.classes.Expandable r.staticType)
    {d : Decision} (hfree : s.isResolved r = false) (hd : d ∈ decisions e.classes s r) :
    Realizable e s d := by
  rcases mem_decisions.1 hd with rfl | ⟨a, o, ho, -, rfl⟩ | ⟨c, hc, rfl⟩
  · exact hfree
  · exact ⟨hfree, o, ho⟩
  · exact ⟨hfree, exists_expandedFields hclasses hc⟩

theorem feasible_all (ho : e.oracle.AlwaysYes) (cs : List (Query × Decision)) :
    (e.feasible cs).Meets ses (fun ds _ => ds = cs.map (·.2)) fun _ _ => True := by
  induction cs generalizing ses with
  | nil => rfl
  | cons c rest ih =>
    unfold feasible
    rw [meets_bind]
    refine meets_query (fun _ => trivial) ((ho.ask _ _).mono (fun verdict o hyes => ?_)
      fun _ _ _ => trivial)
    cases hyes
    rw [meets_bind]
    refine ih.mono (fun others _ hothers => ?_) fun _ _ h => h
    rw [meets_pure, if_pos rfl, hothers, List.map_cons]

/-- What the alternatives of a load are. -/
def LoadChoices (e : Engine ω τ) (s : State) (v : Value) (alternatives : List Alternative) : Prop :=
  alternatives = [.create (.loads v) none] ∨
    ∃ r, v = .reference (.symbolic r) ∧ s.isResolved r = false ∧
      alternatives = (decisions e.classes s r).map fun d => .create d none

theorem decideLoad_choices (ho : e.oracle.AlwaysYes) (v : Value) :
    (e.decideLoad s v).Meets ses (fun alternatives _ => LoadChoices e s v alternatives)
      fun _ _ => True := by
  unfold decideLoad
  rw [meets_bind, Session.meets_count]
  split
  · rename_i r hr
    obtain ⟨hv, hfree⟩ := unresolved?_eq_some hr
    rw [meets_bind, meets_sync]
    refine (ho.answers.set _ _).mono (fun _ o _ => ?_) fun _ _ _ => trivial
    unfold referenceAlternatives
    rw [meets_bind]
    refine (feasible_all ho _).mono (fun ds _ hds => ?_) fun _ _ h => h
    exact .inr ⟨r, hv, hfree, congrArg (List.map fun d => Alternative.create d none) hds⟩
  · exact .inl rfl

/-- What the body of a load comes to. -/
def LoadResult (e : Engine ω τ) (s : State) : StepResult → Prop
  | .decided working alternatives => working.pathCondition = s.pathCondition ∧
      s.Mirrors working ∧ ∃ v, LoadChoices e working v alternatives ∧
        ∀ r, v = .reference (.symbolic r) → working.Loadable r
  | .forked _ => False
  | .done working => working.pathCondition = s.pathCondition ∧ s.Mirrors working

theorem decided_result (ho : e.oracle.AlwaysYes) {working : State} {v : Value}
    (hpath : working.pathCondition = s.pathCondition) (h : s.Mirrors working)
    (hv : ∀ r, v = .reference (.symbolic r) → working.Loadable r) :
    (e.decided working v).Meets ses (fun result _ => LoadResult e s result) fun _ _ => True := by
  unfold decided
  rw [meets_bind, meets_mapError]
  refine (decideLoad_choices ho v).mono (fun alternatives _ hchoices => ?_) fun _ _ h => h
  exact ⟨hpath, h, v, hchoices, hv⟩

theorem loadLocal_result (ho : e.oracle.AlwaysYes) (slot : Nat) :
    (e.loadLocal slot s).Meets ses (fun result _ => LoadResult e s result) fun _ _ => True := by
  unfold loadLocal
  rw [meets_bind, meets_fetched]
  refine ⟨fun v hv => ?_, fun _ _ => trivial⟩
  refine decided_result ho rfl (.refl s) fun r hr => .inl ?_
  rw [hr] at hv
  exact State.exists_frame_of_getLocal (getLocal_of_readLocal hv)

theorem getField_result (ho : e.oracle.AlwaysYes) (name : String) :
    (e.getField name s).Meets ses (fun result _ => LoadResult e s result) fun _ _ => True := by
  unfold getField
  rw [meets_bind]
  refine meets_popTarget (fun f rest r below target hf hr htarget => ?_)
    (fun _ _ _ _ _ _ _ _ => trivial) fun _ _ => trivial
  have hpopped : s.Mirrors (popped s f below rest) := State.mirrors_withFrame hf rfl
  cases target with
  | none => exact ⟨rfl, hpopped.trans (State.mirrors_throwNew _ _)⟩
  | some address =>
    rw [meets_bind, meets_fetched]
    refine ⟨fun o ho' => ?_, fun _ _ => trivial⟩
    rw [meets_bind, meets_fetched]
    refine ⟨fun v hv => ?_, fun _ _ => trivial⟩
    refine decided_result ho rfl hpopped fun r' hr' => .inr ⟨address, o, ho', ?_⟩
    cases hr'
    exact HeapObject.contains_of_getField hv

theorem apply_loads (he : e.triggers = .absent τ) (v : Value) {offset number : Nat} :
    (e.apply ⟨.loads v, none, number⟩ offset).Meets (s, ses)
      (fun _ w => w.1.pathCondition = s.pathCondition ∧ s.Mirrors w.1)
      fun _ w => w.1.pathCondition = s.pathCondition ∧ s.Mirrors w.1 := by
  unfold apply
  rw [meets_bind]
  change (e.load ⟨.loads v, none, number⟩ offset v).Meets (s, ses) _ _
  exact load_mirrors he rfl v

/-- The successors of a value that needs no decision. -/
theorem refine_loads (he : e.Exhaustive) (v : Value) (offset : Nat) :
    (e.refine s [.create (.loads v) none] offset).Meets ses
      (fun successors _ => ∃ t, successors = [t] ∧ t.pathCondition = s.pathCondition ∧ s.Mirrors t)
      fun _ _ => True := by
  have hsuccessor := s.mirrors_successorOf false 1
  unfold Engine.refine refineFrom
  rw [meets_bind]
  refine meets_refineOne ((apply_loads he.triggers v).mono (fun _ w hw => ?_)
    fun fault w hw => ⟨fun u hu => ?_, fun _ _ => trivial⟩)
  · exact ⟨w.1, rfl, hw.1, hsuccessor.trans hw.2⟩
  · obtain ⟨hpath, hwu⟩ := State.mirrors_of_settle hu
    exact ⟨u, rfl, hpath.trans hw.1, (hsuccessor.trans hw.2).trans hwu⟩

theorem conclude_outcome (he : e.Exhaustive) {result : StepResult} (h : LoadResult e s result)
    (offset : Nat) :
    (e.conclude s offset (.ok result)).Meets ses (fun successors _ => LoadOutcome e s successors)
      fun _ _ => True := by
  cases result with
  | forked successors => exact h.elim
  | done working => exact .single h.1 (h.2.trans ⟨rfl, Nat.le_refl _, fun h => h⟩)
  | decided working alternatives =>
    obtain ⟨hpath, hworking, v, rfl | ⟨r, rfl, hfree, rfl⟩, hv⟩ := h
    · refine (refine_loads he v offset).mono (fun successors _ ⟨t, ht, htpath, hwt⟩ => ?_)
        fun _ _ h => h
      subst ht
      exact .single (htpath.trans hpath) (hworking.trans hwt)
    · have hall : ∀ d ∈ decisions e.classes working r, Realizable e working d :=
        fun d hd => realizable_of_mem_decisions (he.classes.expandable _) hfree hd
      exact (refineFrom_realizes he _ 1 hall).mono
        (fun successors _ hsuccessors => .decided hpath hworking (hv r rfl) hsuccessors)
        fun _ _ h => h

/-- Whatever a load gives is one successor with the path condition of the state, or one successor
for each candidate of a reference. -/
theorem step_outcome (he : e.Exhaustive) {i : Instruction} (hi : i.IsLoad) :
    (e.step i s).Meets ses (fun successors _ => LoadOutcome e s successors) fun _ _ => True := by
  have hbody : (e.body i s).Meets ses (fun result _ => LoadResult e s result) fun _ _ => True := by
    cases i with
    | loadLocal slot length => exact loadLocal_result he.oracle slot
    | getField name => exact getField_result he.oracle name
    | _ => exact hi.elim
  refine meets_execute (hbody.mono (fun result ses' hresult => ?_) fun fault ses' _ => ?_)
  · exact (conclude_outcome he hresult _).mono (fun _ _ h => h) fun _ _ h => h
  · change Meets (ofExcept (fault.settle s) >>= fun failed => single failed) _ _ _
    rw [meets_bind, meets_ofExcept]
    refine ⟨fun t ht => ?_, fun _ _ => trivial⟩
    obtain ⟨hpath, hst⟩ := State.mirrors_of_settle ht
    exact .single hpath (hst.trans ⟨rfl, Nat.le_refl _, fun h => h⟩)

end Steps

end Engine

end SymbolicMachine
