import Mathlib.Data.List.Forall2
import SymbolicMachine.Proofs.Effects.Successors
import SymbolicMachine.Proofs.Explore.History
import SymbolicMachine.Proofs.Inputs.Loads
/-!
# Successors are isolated from each other

If the oracle answers from its assumptions, what becomes of an alternative is a matter of the
state that is refined, of the alternative and its number, and of whether there are several.  The
alternatives before it leave assumptions behind in the oracle, possibly a part of those of a
failed successor, but a successor replaces the assumptions before it uses them.

An alternative that fails ends its own path.  Classes that cannot be used, fields whose descriptors
denote nothing, operand stacks that are full and program counters outside the code all come to
this, and none of them is an error of the step.
-/
namespace SymbolicMachine

open SymbolicMachine.Action

variable {ω τ : Type}

namespace Engine

variable {e : Engine ω τ} {stack : ω → List Clause} {parent s t u : State} {branching : Bool}
  {offset number : Nat} {a : Alternative} {ses : Session ω τ} {l : List Alternative}
  {successors : List State}

/-! ## One alternative by itself -/

/-- An alternative by itself has a successor. -/
def ResultsIn (e : Engine ω τ) (parent : State) (branching : Bool) (offset number : Nat)
    (a : Alternative) (t : State) : Prop :=
  ∃ ses, ((e.refineOne parent branching offset number a).run ses).1 = .ok t

/-- An alternative by itself cannot be carried out. -/
def Fails (e : Engine ω τ) (parent : State) (branching : Bool) (offset number : Nat)
    (a : Alternative) : Prop :=
  ∃ ses fault w, (e.apply { a with branch := number } offset).run
    (successorOf parent branching number, ses) = (.error fault, w)

section Forgetting

variable (hanswers : e.oracle.AnswersFrom stack) (htriggers : e.triggers = .absent τ)

include hanswers htriggers

theorem refineOne_forgets (parent : State) (branching : Bool) (offset number : Nat)
    (a : Alternative) (x y : Session ω τ) :
    ((e.refineOne parent branching offset number a).run x).1 =
      ((e.refineOne parent branching offset number a).run y).1 := by
  have halike := alike_self (e := e.withWatchdog .lazy) hanswers htriggers
    (fun _ => rfl) x.statistics y.statistics
  have hrefined := halike.refineOne parent branching offset number a x y ⟨.zero, rfl, rfl⟩
  rw [refineOne_withWatchdog] at hrefined
  exact hrefined.1

theorem ResultsIn.run (h : e.ResultsIn parent branching offset number a t) (ses : Session ω τ) :
    ((e.refineOne parent branching offset number a).run ses).1 = .ok t := by
  obtain ⟨x, hx⟩ := h
  rw [← hx]
  exact refineOne_forgets hanswers htriggers parent branching offset number a ses x

theorem ResultsIn.unique (h : e.ResultsIn parent branching offset number a t)
    (h' : e.ResultsIn parent branching offset number a u) : t = u := by
  obtain ⟨x, hx⟩ := h'
  have ht := h.run hanswers htriggers x
  rw [hx] at ht
  exact (Except.ok.inj ht).symm

/-- If an alternative that fails has a successor, that is the end of a path. -/
theorem Fails.isStuck (h : e.Fails parent branching offset number a)
    (ht : e.ResultsIn parent branching offset number a t) : t.isStuck = true := by
  obtain ⟨x, fault, w, hrun⟩ := h
  have hsettled := ht.run hanswers htriggers x
  rw [run_refineOne, hrun] at hsettled
  obtain ⟨className, -, rfl⟩ := Fault.exists_throwNew_of_settle hsettled
  rfl

/-! ## All alternatives -/

/-- The alternatives have successors just if each of them by itself has one, and these are the
successors. -/
theorem refineFrom_eq_ok :
    ((e.refineFrom parent branching offset number l).run ses).1 = .ok successors ↔
      List.Forall₂ (fun p t => e.ResultsIn parent branching offset p.2 p.1 t) (l.zipIdx number)
        successors := by
  induction l generalizing number ses successors with
  | nil =>
    rw [List.zipIdx_nil, List.forall₂_nil_left_iff]
    exact ⟨fun h => (Except.ok.inj h).symm, fun h => congrArg Except.ok h.symm⟩
  | cons a rest ih =>
    rw [List.zipIdx_cons, List.forall₂_cons_left_iff, refineFrom]
    simp only [run_bind_eq_ok, ih]
    constructor
    · rintro ⟨t, hhead, -, -, others, htail, ⟨⟩⟩
      exact ⟨t, others, ⟨ses, hhead⟩, htail, rfl⟩
    · rintro ⟨t, others, hhead, htail, rfl⟩
      exact ⟨t, hhead.run hanswers htriggers ses, (), rfl, others, htail, rfl⟩

end Forgetting

/-! ## Alternatives that fit a state -/

/-- What an alternative is about is there: its reference is undecided, the object that it aliases
is an input, and there is the array in which a new member is recorded.  The search for the fields
of its class ends, with or without success. -/
structure Admissible (e : Engine ω τ) (s : State) (a : Alternative) : Prop where
  undecided : ∀ r, a.reference? = some r → s.isResolved r = false
  aliased : ∀ r address, a.decision = .aliases r address →
    ∃ o, s.initialHeap.get address = .ok o
  member : ∀ access, a.access = some access → access.fresh = true →
    ∃ array, s.getArray access.array = .ok array
  ends : ∀ r className, a.decision = .expands r className →
    Descriptor.isArray className = false → e.classes.isEndless className = false

theorem Admissible.successorOf (h : Admissible e s a) (branching : Bool) (number : Nat) :
    Admissible e (successorOf s branching number) { a with branch := number } := by
  rw [successorOf_eq]
  exact ⟨h.undecided, h.aliased, h.member, h.ends⟩

/-- An action on a successor does not fail the step, and its result is as it should be. -/
def Mild {α : Type} (m : Refinement ω τ α) (s : State) (post : α → State → Prop) : Prop :=
  ∀ ses, m.Meets (s, ses) (fun a w => post a w.1) fun fault _ => fault.EndsPath

section Mild

variable {α β : Type} {post : α → State → Prop}

theorem Mild.bind {m : Refinement ω τ α} {k : α → Refinement ω τ β} {post' : β → State → Prop}
    (hm : Mild m s post) (hk : ∀ a t, post a t → Mild (k a) t post') : Mild (m >>= k) s post' := by
  intro ses
  rw [meets_bind]
  exact (hm ses).mono (fun a w hw => hk a w.1 hw w.2) fun _ _ h => h

theorem mild_pure {a : α} (h : post a s) : Mild (pure a : Refinement ω τ α) s post := fun _ => h

theorem mild_updating {m : State.Update α}
    (h : m.Meets s post fun error _ => error.isEngineFault = false) :
    Mild (updating (ω := ω) (τ := τ) m) s post := by
  intro ses
  rw [meets_updating]
  exact h

theorem mild_value (r : Except ValueError α) :
    Mild (ofExcept (r.mapError (Fault.memory ∘ MemoryError.value)) : Refinement ω τ α) s
      fun _ t => t = s := by
  intro ses
  rw [meets_ofExcept_mapError]
  exact ⟨fun _ _ => rfl, fun _ _ => rfl⟩

theorem mild_consulting {m : Run ω τ ExecutionError α}
    (h : m.Always (fun _ => True) fun _ => False) : Mild (consulting m) s fun _ t => t = s := by
  intro ses
  rw [meets_consulting]
  exact (h ses).mono (fun _ _ _ => rfl) fun _ _ h => h.elim

theorem mild_assumeGuard (e : Engine ω τ) (a : Alternative) :
    Mild (assumeGuard (ω := ω) (τ := τ) a) s
      fun _ t => ∀ b : Alternative, Admissible e s b → Admissible e t b := by
  unfold assumeGuard
  split
  · split
    · exact mild_pure fun _ h => h
    · refine mild_updating (State.meets_assume (fun _ b h => ?_) fun _ hmild => hmild)
      exact ⟨h.undecided, h.aliased, h.member, h.ends⟩
  · exact mild_pure fun _ h => h

variable (hanswers : e.oracle.Answers)

include hanswers

theorem mild_assumeLength {address : Nat} (harray : ∃ array, s.getArray address = .ok array) :
    Mild (e.assumeLength address) s fun _ t => s.heap.Grows t.heap := by
  obtain ⟨array, harray⟩ := harray
  have hread : Mild (ω := ω) (τ := τ) (ofExcept ((s.getArray address).mapError .memory)) s
      fun _ t => t = s := by
    intro ses
    rw [harray]
    rfl
  have hlength : Mild (e.assumeLengthIn s address) s fun _ t => s.heap.Grows t.heap := by
    refine hread.bind fun a t ht => ?_
    cases ht
    refine (mild_value _).bind fun condition t ht => ?_
    cases ht
    have hset : (e.sync s).Always (fun _ => True) fun _ => False := fun ses =>
      meets_sync.2 ((hanswers.set _ _).mono (fun _ _ _ => trivial) fun _ _ h => h)
    refine (mild_consulting hset).bind fun _ t ht => ?_
    cases ht
    have hsimplify : (Session.consult (τ := τ) (e.oracle.simplify condition)).Always
        (fun _ => True) fun _ => False := fun ses => (Session.meets_consult _).2
      ((hanswers.simplify _ _).mono (fun _ _ _ => trivial) fun _ _ h => h)
    refine (mild_consulting hsimplify).bind fun simplified t ht => ?_
    cases ht
    exact mild_updating (State.meets_assume (fun _ => .refl _) fun _ hmild => hmild)
  exact fun ses => meets_assumeLength.2 (hlength ses)

theorem mild_expand {r : RefSymbol} (hfree : s.isResolved r = false) {className : String}
    (hends : Descriptor.isArray className = false → e.classes.isEndless className = false) :
    Mild (e.expand r className) s fun _ t => s.heap.Grows t.heap := by
  have hfields : Mild (ω := ω) (τ := τ)
      (ofExcept ((e.expandedFields className).mapError .linkage)) s fun _ t => t = s := by
    intro ses
    rw [meets_linked]
    refine ⟨fun _ _ => rfl, fun cause hcause => ?_⟩
    unfold expandedFields at hcause
    split at hcause
    · cases hcause
    · rename_i hinstance
      have hfound := hends (Bool.eq_false_iff.2 hinstance)
      rwa [ClassTable.isEndless, hcause] at hfound
  refine hfields.bind fun fields t ht => ?_
  cases ht
  have hexpands : Mild (updating (ω := ω) (τ := τ) (State.assumeExpands r className fields)) s
      fun address t => s.heap.Grows t.heap ∧
        (Descriptor.isArray className = true → ∃ array, t.getArray address = .ok array) := by
    refine mild_updating (State.meets_assumeExpands (fun object n p _ hobject _ => ?_)
      (fun htaken => ?_) fun _ _ _ _ _ _ _ _ => rfl)
    · refine ⟨s.heap.grows_allocate object, fun harray => ?_⟩
      cases hobject with
      | array _ => exact ⟨_, Heap.getArray_eq_ok.2 (s.heap.get_allocate_self _)⟩
      | object hinstance _ => exact absurd harray (Bool.eq_false_iff.1 hinstance)
    · exact absurd htaken (Bool.eq_false_iff.1 hfree)
  refine hexpands.bind fun address t hexpanded => ?_
  obtain ⟨hgrows, harray⟩ := hexpanded
  split
  · rename_i hassume
    intro ses
    refine (mild_assumeLength hanswers (harray (Bool.and_eq_true_iff.1 hassume).1) ses).mono
      (fun _ _ h => hgrows.trans h) fun _ _ h => h
  · exact mild_pure hgrows

theorem mild_assumeDecision (h : Admissible e s a) :
    Mild (e.assumeDecision a.decision) s fun _ t => s.heap.Grows t.heap := by
  have hfree : ∀ r, a.reference? = some r → ¬s.isResolved r = true :=
    fun r hr => Bool.eq_false_iff.1 (h.undecided r hr)
  have hdone : ∀ {t : State} (v : Option Value), s.heap.Grows t.heap →
      Mild (ω := ω) (τ := τ) (pure v) t fun _ u => s.heap.Grows u.heap :=
    fun _ hgrows => mild_pure hgrows
  cases hd : a.decision with
  | outOfRange => exact hdone none (.refl _)
  | loads v => exact hdone (some v) (.refl _)
  | null r =>
    have hr : a.reference? = some r := by rw [Alternative.reference?, hd]
    have hnull : Mild (updating (ω := ω) (τ := τ) (State.assumeNull r)) s
        fun _ t => s.heap.Grows t.heap := mild_updating <|
      State.meets_assumeNull (fun _ _ _ => .refl _) fun htaken => absurd htaken (hfree r hr)
    exact hnull.bind fun _ _ hgrows => hdone _ hgrows
  | aliases r address =>
    have hr : a.reference? = some r := by rw [Alternative.reference?, hd]
    obtain ⟨o, ho⟩ := h.aliased r address hd
    have haliases : Mild (updating (ω := ω) (τ := τ) (State.assumeAliases r address)) s
        fun _ t => s.heap.Grows t.heap := mild_updating <|
      State.meets_assumeAliases (fun _ _ _ _ _ => .refl _)
        (fun htaken => absurd htaken (hfree r hr))
        fun error herror => absurd (ho.symm.trans herror) nofun
    exact haliases.bind fun _ _ hgrows => hdone _ hgrows
  | expands r className =>
    have hr : a.reference? = some r := by rw [Alternative.reference?, hd]
    exact (mild_expand hanswers (h.undecided r hr) (h.ends r className hd)).bind
      fun _ _ hgrows => hdone _ hgrows

omit hanswers in
theorem mild_load (htriggers : e.triggers = .absent τ)
    (hmember : ∀ access, a.access = some access → access.fresh = true →
      ∃ array, s.getArray access.array = .ok array) (offset : Nat) (v : Value) :
    Mild (e.load a offset v) s fun _ _ => True := by
  have hrecord : Mild (recordFresh (ω := ω) (τ := τ) a v) s fun _ _ => True := by
    unfold recordFresh
    split
    · rename_i access haccess
      split
      · rename_i hfresh
        obtain ⟨array, harray⟩ := hmember access haccess hfresh
        exact mild_updating (State.meets_arraySet_of_get (Heap.getArray_eq_ok.1 harray) trivial)
      · exact mild_pure trivial
    · exact mild_pure trivial
  refine hrecord.bind fun _ t _ => (mild_value _).bind fun widened u _ => ?_
  have hpush : Mild (updating (ω := ω) (τ := τ) (State.pushOperand widened)) u fun _ _ => True :=
    mild_updating (State.meets_pushOperand (fun _ _ _ _ => trivial) fun _ hmild => hmild)
  refine hpush.bind fun _ x _ => ?_
  have hadvance : Mild (e.triggering a) x fun _ _ => True := by
    intro ses
    rw [meets_triggering, htriggers]
    trivial
  refine hadvance.bind fun advance y _ => ?_
  split
  · exact mild_updating (State.meets_incPc (fun _ _ _ _ => trivial) fun _ hmild => hmild)
  · exact mild_pure trivial

theorem mild_apply (htriggers : e.triggers = .absent τ) (h : Admissible e s a) (offset : Nat) :
    Mild (e.apply a offset) s fun _ _ => True := by
  refine (mild_assumeGuard e a).bind fun _ t hkept => ?_
  have ht := hkept a h
  refine (mild_assumeDecision hanswers ht).bind fun loaded u hgrows => ?_
  cases loaded with
  | none => exact fun _ => trivial
  | some v =>
    refine mild_load htriggers (fun access haccess hfresh => ?_) offset v
    obtain ⟨array, harray⟩ := ht.member access haccess hfresh
    exact Heap.getArray_of_grows hgrows harray

/-- An alternative that fits the state has a successor, be it the end of a path. -/
theorem exists_resultsIn (htriggers : e.triggers = .absent τ) (h : Admissible e parent a)
    (branching : Bool) (offset number : Nat) (ses : Session ω τ) :
    ∃ t, e.ResultsIn parent branching offset number a t := by
  have hrefined : (e.refineOne parent branching offset number a).Meets ses (fun _ _ => True)
      fun _ _ => False := by
    refine meets_refineOne ?_
    refine (mild_apply hanswers htriggers (h.successorOf branching number) offset ses).mono
      (fun _ _ _ => trivial) fun fault w hends => ⟨fun _ _ => trivial, fun x hx => ?_⟩
    obtain ⟨className, ht⟩ := hends.settle w.1
    rw [ht] at hx
    cases hx
  rcases hrun : (e.refineOne parent branching offset number a).run ses with ⟨error | t, ses'⟩
  · exact (hrefined.of_error hrun).elim
  · exact ⟨t, ses, congrArg Prod.fst hrun⟩

end Mild

/-! ## Flaws -/

/-- A flaw of the program that shows when an alternative is carried out. -/
inductive Flawed (e : Engine ω τ) (s : State) (offset : Nat) (a : Alternative) : Prop
  /-- The class of a new object, or a class above it, cannot be used. -/
  | linkage {r : RefSymbol} {className : String} {cause : ClassError}
      (hexpands : a.decision = .expands r className)
      (hfields : e.expandedFields className = .error cause)
  /-- A field of a new object has a descriptor that denotes nothing. -/
  | descriptor {r : RefSymbol} {className : String} {fields : List FieldInfo} {f : FieldInfo}
      (hexpands : a.decision = .expands r className)
      (hfields : e.expandedFields className = .ok fields) (hf : f ∈ fields)
      (hmalformed : ¬Descriptor.Denotes f.descriptor)
  /-- There is no room for another operand. -/
  | depth {f : Frame} {rest : List Frame} (hloads : a.decision ≠ .outOfRange)
      (hframes : s.frames = f :: rest) (hfull : f.operands.maxDepth ≤ f.operands.size)
  /-- The next instruction would be outside the code. -/
  | pc {f : Frame} {rest : List Frame} (hloads : a.decision ≠ .outOfRange)
      (hframes : s.frames = f :: rest) (houtside : f.code.length ≤ f.pc + offset)

theorem Flawed.successorOf (h : Flawed e s offset a) (branching : Bool) (number : Nat) :
    Flawed e (successorOf s branching number) offset { a with branch := number } := by
  rw [successorOf_eq]
  cases h with
  | linkage hexpands hfields => exact .linkage hexpands hfields
  | descriptor hexpands hfields hf hmalformed => exact .descriptor hexpands hfields hf hmalformed
  | depth hloads hframes hfull => exact .depth hloads hframes hfull
  | pc hloads hframes houtside => exact .pc hloads hframes houtside

theorem denotes_of_stands {d : String} {origin : Origin} {id : Nat} {v : Value}
    (h : Stands d origin id v) : Descriptor.Denotes d := by
  cases h with
  | primitive hprim => exact .inl (by rw [Descriptor.isPrimitive, hprim]; rfl)
  | reference _ hstatic =>
    refine .inr (Bool.or_eq_true_iff.2 ?_)
    unfold Descriptor.staticType at hstatic
    split at hstatic
    · rename_i harray
      exact .inl harray
    · split at hstatic
      · rename_i hname
        exact .inr (by rw [hname]; rfl)
      · cases hstatic

theorem denotes_of_fieldsStand {r : RefSymbol} {fields : List FieldInfo} {id n : Nat}
    {values : List (String × Value)} (h : FieldsStand r fields id values n) :
    ∀ f ∈ fields, Descriptor.Denotes f.descriptor := by
  induction h with
  | nil => exact nofun
  | cons hv _ ih => exact List.forall_mem_cons.2 ⟨denotes_of_stands hv, ih⟩

/-- A new object cannot be made if a field's descriptor denotes nothing. -/
theorem expand_malformed {r : RefSymbol} {className : String} {fields : List FieldInfo}
    {f : FieldInfo} (hfields : e.expandedFields className = .ok fields) (hf : f ∈ fields)
    (hmalformed : ¬Descriptor.Denotes f.descriptor) (w : State × Session ω τ) :
    (e.expand r className).Meets w (fun _ _ => False) fun _ _ => True := by
  unfold expand
  rw [meets_bind, meets_linked]
  refine ⟨fun fields' hfields' => ?_, fun _ _ => trivial⟩
  obtain rfl : fields = fields' := Except.ok.inj (hfields.symm.trans hfields')
  rw [meets_bind, meets_updating]
  refine State.meets_assumeExpands (fun object n p _ hobject _ => ?_) (fun _ => trivial)
    fun _ _ _ _ _ _ _ _ => trivial
  cases hobject with
  | array harray =>
    unfold expandedFields at hfields
    rw [if_pos harray] at hfields
    cases hfields
    cases hf
  | object _ hvalues => exact absurd (denotes_of_fieldsStand hvalues f hf) hmalformed

/-- What is decided brings no frame along, and gives a value unless the index is out of bounds. -/
theorem assumeDecision_frames {d : Decision} (hloads : d ≠ .outOfRange)
    (w : State × Session ω τ) :
    (e.assumeDecision d).Meets w (fun loaded w' => loaded ≠ none ∧ w'.1.frames = w.1.frames)
      fun _ _ => True := by
  have hdone : ∀ {m : Refinement ω τ Unit} (v : Value), Quiet m →
      (do m; pure (some v)).Meets w (fun loaded w' => loaded ≠ none ∧ w'.1.frames = w.1.frames)
        fun _ _ => True := by
    intro m v hm
    rw [meets_bind]
    refine (hm w).mono (fun _ w' hw => ⟨Option.some_ne_none v, ?_⟩) fun _ _ _ => trivial
    rw [hw.frames, dropOperands_zero]
  cases d with
  | outOfRange => exact absurd rfl hloads
  | loads v => exact ⟨Option.some_ne_none v, rfl⟩
  | null r => exact hdone _ (quiet_updating (State.quiet_assumeClause _))
  | aliases r address => exact hdone _ (quiet_updating (State.quiet_assumeAliases r address))
  | expands r className => exact hdone _ (quiet_expand r className)

theorem recordFresh_frames (a : Alternative) (v : Value) :
    (recordFresh a v).Meets (s, ses) (fun _ w => w.1.frames = s.frames) fun _ _ => True := by
  unfold recordFresh
  split
  · split
    · rw [meets_updating]
      exact State.meets_arraySet (fun _ _ => rfl) fun _ _ => trivial
    · rfl
  · rfl

/-- A value cannot be loaded if the operand stack is full or the code ends. -/
theorem load_flawed (htriggers : e.triggers = .absent τ) {f : Frame} {rest : List Frame}
    (hframes : s.frames = f :: rest)
    (hflaw : f.operands.maxDepth ≤ f.operands.size ∨ f.code.length ≤ f.pc + offset) (v : Value) :
    (e.load a offset v).Meets (s, ses) (fun _ _ => False) fun _ _ => True := by
  unfold load
  rw [meets_bind]
  refine (recordFresh_frames a v).mono (fun _ ⟨t, ses'⟩ ht => ?_) fun _ _ _ => trivial
  rw [meets_bind, meets_ofExcept_mapError]
  refine ⟨fun widened _ => ?_, fun _ _ => trivial⟩
  rw [meets_bind, meets_updating]
  refine State.meets_pushOperand (fun g below hg hroom => ?_) fun _ _ => trivial
  obtain ⟨rfl, rfl⟩ := List.cons.inj (hg.symm.trans (ht.trans hframes))
  rw [meets_bind, meets_triggering, htriggers]
  refine (meets_updating _).2 (State.meets_incPc (fun g' below' hg' hinside => ?_)
    fun _ _ => trivial)
  obtain ⟨rfl, rfl⟩ := List.cons.inj hg'
  rcases hflaw with hfull | houtside
  · exact Nat.not_succ_le_self _ (Nat.le_trans hroom hfull)
  · exact absurd hinside (Nat.not_lt.2 houtside)

/-- With a flaw an alternative cannot be carried out. -/
theorem Flawed.apply (h : Flawed e s offset a) (htriggers : e.triggers = .absent τ)
    (ses : Session ω τ) :
    (e.apply a offset).Meets (s, ses) (fun _ _ => False) fun _ _ => True := by
  unfold Engine.apply
  rw [meets_bind]
  refine (quiet_assumeGuard a (s, ses)).mono (fun _ w hw => ?_) fun _ _ _ => trivial
  have hkept : w.1.frames = s.frames := by rw [hw.frames, dropOperands_zero]
  rw [meets_bind]
  have hexpanded : ∀ {r className}, a.decision = .expands r className →
      (e.expand r className).Meets w (fun _ _ => False) (fun _ _ => True) →
        (e.assumeDecision a.decision).Meets w (fun _ _ => False) fun _ _ => True := by
    intro r className hexpands hexpand
    rw [hexpands, assumeDecision, meets_bind]
    exact hexpand.mono (fun _ _ hno => hno.elim) fun _ _ _ => trivial
  have hstopped : ∀ {f : Frame} {rest : List Frame}, a.decision ≠ .outOfRange →
      s.frames = f :: rest →
      f.operands.maxDepth ≤ f.operands.size ∨ f.code.length ≤ f.pc + offset →
        (e.assumeDecision a.decision).Meets w (fun loaded t => ∃ v, loaded = some v ∧
          (e.load a offset v).Meets t (fun _ _ => False) fun _ _ => True) fun _ _ => True := by
    intro f rest hloads hframes hflaw
    refine (assumeDecision_frames hloads w).mono (fun loaded t ⟨hsome, ht⟩ => ?_) fun _ _ h => h
    obtain ⟨v, rfl⟩ := Option.ne_none_iff_exists'.1 hsome
    exact ⟨v, rfl, load_flawed htriggers (ht.trans (hkept.trans hframes)) hflaw v⟩
  cases h with
  | linkage hexpands hfields =>
    refine (hexpanded hexpands ?_).mono (fun _ _ hno => hno.elim) fun _ _ _ => trivial
    rw [expand, hfields]
    trivial
  | descriptor hexpands hfields hf hmalformed =>
    exact (hexpanded hexpands (expand_malformed hfields hf hmalformed w)).mono
      (fun _ _ hno => hno.elim) fun _ _ _ => trivial
  | depth hloads hframes hfull =>
    refine (hstopped hloads hframes (.inl hfull)).mono ?_ fun _ _ _ => trivial
    rintro _ t ⟨v, rfl, hload⟩
    exact hload
  | pc hloads hframes houtside =>
    refine (hstopped hloads hframes (.inr houtside)).mono ?_ fun _ _ _ => trivial
    rintro _ t ⟨v, rfl, hload⟩
    exact hload

theorem Flawed.fails (h : Flawed e parent offset a) (htriggers : e.triggers = .absent τ)
    (branching : Bool) (number : Nat) (ses : Session ω τ) :
    e.Fails parent branching offset number a := by
  have happly := (h.successorOf branching number).apply htriggers ses
  rcases hrun : (e.apply { a with branch := number } offset).run
    (Engine.successorOf parent branching number, ses) with ⟨fault | _, w⟩
  · exact ⟨ses, fault, w, hrun⟩
  · exact (happly.of_ok hrun).elim

/-! ## Isolation -/

section Refine

variable (hanswers : e.oracle.AnswersFrom stack) (htriggers : e.triggers = .absent τ)

include hanswers htriggers

/-- The successor at a position is the one that the alternative at the position has by itself. -/
theorem refine_resultsIn {after : Session ω τ}
    (h : (e.refine parent l offset).run ses = (.ok successors, after)) :
    successors.length = l.length ∧ ∀ i a, l[i]? = some a → ∃ t, successors[i]? = some t ∧
      e.ResultsIn parent (decide (1 < l.length)) offset (i + 1) a t := by
  have hall := (refineFrom_eq_ok hanswers htriggers).1 (congrArg Prod.fst h)
  have hlength : l.length = successors.length := List.length_zipIdx.symm.trans hall.length_eq
  refine ⟨hlength.symm, fun i a ha => ?_⟩
  obtain ⟨hi, rfl⟩ := List.getElem?_eq_some_iff.1 ha
  have hi' : i < successors.length := hlength ▸ hi
  refine ⟨successors[i], List.getElem?_eq_getElem hi', ?_⟩
  have hresult := hall.get (List.length_zipIdx.symm ▸ hi) hi'
  simpa [Nat.add_comm] using hresult

/-- If each alternative by itself has a successor, the state is refined. -/
theorem exists_refineFrom
    (h : ∀ i a, l[i]? = some a → ∃ t, e.ResultsIn parent branching offset (number + i) a t)
    (ses : Session ω τ) :
    ∃ successors, ((e.refineFrom parent branching offset number l).run ses).1 = .ok successors := by
  simp only [refineFrom_eq_ok hanswers htriggers]
  induction l generalizing number with
  | nil => exact ⟨[], .nil⟩
  | cons a rest ih =>
    obtain ⟨t, ht⟩ := h 0 a rfl
    have hrest : ∀ i b, rest[i]? = some b →
        ∃ t, e.ResultsIn parent branching offset (number + 1 + i) b t := by
      intro i b hb
      rw [Nat.add_assoc, Nat.add_comm 1 i]
      exact h (i + 1) b hb
    obtain ⟨others, hothers⟩ := ih hrest
    exact ⟨t :: others, .cons ht hothers⟩

/-- Successors are isolated from each other.  Each is the same as in any other refinement of the
state that has the same alternative at its position and agrees on whether there are several, and
that of an alternative that fails is the end of a path.  Other alternatives may be put in the
place of some: whatever they run into, the state is refined, and each of them that is flawed comes
to an end of its own. -/
theorem successors_are_isolated {after : Session ω τ}
    (hrefine : (e.refine parent l offset).run ses = (.ok successors, after))
    (l' : List Alternative) (ses' : Session ω τ) (hbranching : 1 < l'.length ↔ 1 < l.length) :
    successors.length = l.length ∧
      (∀ i a, l[i]? = some a → e.Fails parent (decide (1 < l.length)) offset (i + 1) a →
        ∃ t, successors[i]? = some t ∧ t.isStuck = true) ∧
      (∀ successors' after', (e.refine parent l' offset).run ses' = (.ok successors', after') →
        ∀ i < l.length, l'[i]? = l[i]? → successors'[i]? = successors[i]?) ∧
      (e.oracle.Answers →
        (∀ (i : Nat) a, l'[i]? = some a → l[i]? = some a ∨ Admissible e parent a) →
        ∃ (successors' : List State) (after' : Session ω τ),
          (e.refine parent l' offset).run ses' = (.ok successors', after') ∧
            ∀ (i : Nat) a, l'[i]? = some a → Flawed e parent offset a →
              ∃ t, successors'[i]? = some t ∧ t.isStuck = true) := by
  have hbranching' : decide (1 < l'.length) = decide (1 < l.length) := decide_eq_decide.2 hbranching
  have hstuck : ∀ {l : List Alternative} {successors : List State} {ses after : Session ω τ},
      (e.refine parent l offset).run ses = (.ok successors, after) → ∀ (i : Nat) a, l[i]? = some a →
        e.Fails parent (decide (1 < l.length)) offset (i + 1) a →
          ∃ t, successors[i]? = some t ∧ t.isStuck = true := by
    intro l successors ses after hrefine i a ha hfails
    obtain ⟨t, ht, hresult⟩ := (refine_resultsIn hanswers htriggers hrefine).2 i a ha
    exact ⟨t, ht, hfails.isStuck hanswers htriggers hresult⟩
  obtain ⟨hlength, hresults⟩ := refine_resultsIn hanswers htriggers hrefine
  refine ⟨hlength, hstuck hrefine, fun successors' after' hrefine' i hi hsame => ?_,
    fun hanswer hothers => ?_⟩
  · have ha : l[i]? = some l[i] := List.getElem?_eq_getElem hi
    obtain ⟨t, ht, hresult⟩ := hresults i _ ha
    obtain ⟨t', ht', hresult'⟩ :=
      (refine_resultsIn hanswers htriggers hrefine').2 i _ (hsame.trans ha)
    rw [hbranching'] at hresult'
    rw [ht, ht', hresult.unique hanswers htriggers hresult']
  · have hall : ∀ i a, l'[i]? = some a →
        ∃ t, e.ResultsIn parent (decide (1 < l'.length)) offset (1 + i) a t := by
      intro i a ha
      rw [hbranching', Nat.add_comm]
      rcases hothers i a ha with ha' | hadmissible
      · obtain ⟨t, -, hresult⟩ := hresults i a ha'
        exact ⟨t, hresult⟩
      · exact exists_resultsIn hanswer htriggers hadmissible _ _ _ ses'
    obtain ⟨successors', hsuccessors'⟩ := exists_refineFrom hanswers htriggers hall ses'
    have hrefine' : (e.refine parent l' offset).run ses' = (.ok successors', _) :=
      Prod.ext hsuccessors' rfl
    refine ⟨successors', _, hrefine', fun i a ha hflawed => ?_⟩
    exact hstuck hrefine' i a ha (hflawed.fails htriggers _ _ ses')

end Refine

/-- A class that is missing ends the path of its own successor.  The successor for null is the same
with it as with another class in its place. -/
theorem missing_class_ends_its_own_path :
    let e := permissive .initial
    let r : RefSymbol := ⟨0, rootClass, .root "x"⟩
    let alternatives (className : String) : List Alternative :=
      [.create (.null r) none, .create (.expands r className) none]
    ∃ successors successors' after after',
      (e.refine .root (alternatives "Gone") 1).run (.start [] ()) = (.ok successors, after) ∧
        (e.refine .root (alternatives rootClass) 1).run (.start [] ()) =
          (.ok successors', after') ∧
        (∃ t, successors[1]? = some t ∧ t.isStuck = true) ∧ successors'[0]? = successors[0]? := by
  intro e r alternatives
  have hadmissible : ∀ className, ∀ a ∈ alternatives className, Admissible e .root a := by
    intro className a ha
    simp only [alternatives, List.mem_cons, List.not_mem_nil, or_false] at ha
    rcases ha with rfl | rfl <;>
      exact ⟨fun _ _ => rfl, nofun, nofun,
        fun _ _ _ _ => ClassTable.initial_acyclic.isEndless_eq_false _⟩
  have hmissing : e.expandedFields "Gone" = .error (.notFound "Gone") := by
    rw [expandedFields, if_neg (by decide), ClassTable.instanceFields, ClassTable.fieldsFrom]
    rfl
  have hflawed : Flawed e .root 1 (.create (.expands r "Gone") none) := .linkage rfl hmissing
  obtain ⟨successors, hsuccessors⟩ : ∃ successors,
      ((e.refineFrom .root true 1 1 (alternatives "Gone")).run (.start [] ())).1 =
        .ok successors := by
    refine exists_refineFrom Oracle.permissive_answersFrom rfl (fun i a ha => ?_) _
    exact exists_resultsIn Oracle.permissive_answers rfl
      (hadmissible _ a (List.mem_of_getElem? ha)) _ _ _ (.start [] ())
  have hrefine : (e.refine .root (alternatives "Gone") 1).run (.start [] ()) =
      (.ok successors, _) := Prod.ext hsuccessors rfl
  obtain ⟨-, hfailing, hothers, hexists⟩ := successors_are_isolated
    Oracle.permissive_answersFrom rfl hrefine (alternatives rootClass) (.start [] ()) Iff.rfl
  obtain ⟨successors', after', hrefine', -⟩ := hexists Oracle.permissive_answers
    fun i a ha => .inr (hadmissible _ a (List.mem_of_getElem? ha))
  refine ⟨successors, successors', _, after', hrefine, hrefine', ?_, ?_⟩
  · exact hfailing 1 _ rfl (hflawed.fails rfl _ _ (.start [] ()))
  · exact hothers successors' after' hrefine' 0 (by decide) rfl

end Engine

end SymbolicMachine
