import SymbolicMachine.Proofs.Safety.Reachable
import SymbolicMachine.Proofs.Inputs.Invariants
/-!
# Loads partition the inputs

An object that a reference denotes is decided when the reference is first loaded.  Of the
successors that a load makes for this, every concrete input that followed the path so far follows
exactly one: the reference is null in the input, or its object is bound to an address already, or
it is bound to none, and then its class is one of those that are tried.  So, however far the
paths from a root are followed, each input that is possible at the root follows exactly one.
-/
namespace SymbolicMachine

open SymbolicMachine.Action

variable {ω τ : Type}

/-- Every element on the right is related to one on the left. -/
theorem exists_left_of_forall₂ {α β : Type} {r : α → β → Prop} {l : List α} {m : List β}
    (h : List.Forall₂ r l m) {b : β} (hb : b ∈ m) : ∃ a ∈ l, r a b := by
  induction h with
  | nil => cases hb
  | cons hab _ ih =>
    rcases List.mem_cons.1 hb with rfl | hb
    · exact ⟨_, List.mem_cons_self, hab⟩
    · obtain ⟨a, ha, hr⟩ := ih hb
      exact ⟨a, List.mem_cons_of_mem _ ha, hr⟩

/-! ## Exactly one -/

/-- Exactly one position of a list holds an element with a property. -/
inductive ExactlyOne {α : Type} (p : α → Prop) : List α → Prop
  | here {a l} : p a → (∀ b ∈ l, ¬p b) → ExactlyOne p (a :: l)
  | later {a l} : ¬p a → ExactlyOne p l → ExactlyOne p (a :: l)

namespace ExactlyOne

variable {α β : Type} {p : α → Prop} {l m : List α} {a : α}

theorem of_nodup (hl : l.Nodup) (ha : a ∈ l) (hp : p a) (hunique : ∀ b ∈ l, p b → b = a) :
    ExactlyOne p l := by
  induction l with
  | nil => cases ha
  | cons x rest ih =>
    obtain ⟨hx, hrest⟩ := List.nodup_cons.1 hl
    rcases List.mem_cons.1 ha with rfl | ha
    · apply here hp
      intro b hb hpb
      have heq := hunique b (List.mem_cons_of_mem _ hb) hpb
      exact hx (heq ▸ hb)
    · apply later
      · intro hpx
        have heq := hunique x List.mem_cons_self hpx
        exact hx (heq ▸ ha)
      · exact ih hrest ha fun b hb => hunique b (List.mem_cons_of_mem _ hb)

theorem exists_mem (h : ExactlyOne p l) : ∃ a ∈ l, p a := by
  induction h with
  | here ha _ => exact ⟨_, List.mem_cons_self, ha⟩
  | later _ _ ih =>
    obtain ⟨a, ha, hp⟩ := ih
    exact ⟨a, List.mem_cons_of_mem _ ha, hp⟩

theorem append_left (h : ExactlyOne p l) (hm : ∀ b ∈ m, ¬p b) : ExactlyOne p (l ++ m) := by
  induction h with
  | here ha hl =>
    apply here ha
    intro b hb
    rcases List.mem_append.1 hb with hb | hb
    · exact hl b hb
    · exact hm b hb
  | later ha _ ih => exact later ha ih

theorem append_right (hl : ∀ a ∈ l, ¬p a) (h : ExactlyOne p m) : ExactlyOne p (l ++ m) := by
  induction l with
  | nil => exact h
  | cons a rest ih =>
    have ha := hl a List.mem_cons_self
    exact later ha (ih fun b hb => hl b (List.mem_cons_of_mem _ hb))

theorem transfer {q : β → Prop} {r : α → β → Prop} {l : List α} {m : List β}
    (hlm : List.Forall₂ r l m) (hr : ∀ a b, r a b → (p a ↔ q b)) (h : ExactlyOne p l) :
    ExactlyOne q m := by
  induction hlm with
  | nil => cases h
  | cons hab hrest ih =>
    cases h with
    | here ha hl =>
      apply here ((hr _ _ hab).1 ha)
      intro b hb hqb
      obtain ⟨c, hc, hcb⟩ := exists_left_of_forall₂ hrest hb
      exact hl c hc ((hr c b hcb).2 hqb)
    | later ha h => exact later (fun hb => ha ((hr _ _ hab).2 hb)) (ih h)

/-- An element may give way to others of which exactly one has the property if it has, and none
if it has not. -/
theorem replace {before after : List α} (h : ExactlyOne p (before ++ a :: after))
    (hyes : p a → ExactlyOne p m) (hno : ¬p a → ∀ b ∈ m, ¬p b) :
    ExactlyOne p (before ++ (m ++ after)) := by
  induction before with
  | nil =>
    rw [List.nil_append]
    cases h with
    | here ha hafter => exact (hyes ha).append_left hafter
    | later ha hafter => exact append_right (hno ha) hafter
  | cons x before ih =>
    cases h with
    | here hx hrest =>
      apply here hx
      have ha := hrest a (List.mem_append_right _ List.mem_cons_self)
      intro b hb
      rcases List.mem_append.1 hb with hb | hb
      · exact hrest b (List.mem_append_left _ hb)
      · rcases List.mem_append.1 hb with hb | hb
        · exact hno ha b hb
        · exact hrest b (List.mem_append_right _ (List.mem_cons_of_mem _ hb))
    | later hx h => exact later hx (ih h)

end ExactlyOne

namespace ObjectGraph

variable {O : Type} {e : Engine ω τ} {g : ObjectGraph O} {I : Interpretation} {s t : State}
  {d : Decision}

/-! ## Choices -/

/-- The choice between the decisions for a reference that an input makes in a state. -/
def Chooses (g : ObjectGraph O) (s : State) : Decision → Prop
  | .null r => g.target r = none
  | .aliases r a => ∃ r' c, .expands r' a c ∈ s.pathCondition.clauses ∧ g.target r = g.target r'
  | .expands r c => ∃ o, g.target r = some o ∧ g.classOf o = c ∧
      ∀ r' a' c', .expands r' a' c' ∈ s.pathCondition.clauses → g.target r' ≠ some o
  | _ => False

theorem satisfies_of_append_lengths {r : RefSymbol} {before extra : List Clause}
    (hextra : ∀ c ∈ extra, c.LengthOf r) (h : g.Satisfies I (before ++ extra)) :
    g.Satisfies I before := by
  induction extra generalizing before with
  | nil => rwa [List.append_nil] at h
  | cons c rest ih =>
    rw [List.append_cons] at h
    have hone := ih (fun d hd => hextra d (List.mem_cons_of_mem _ hd)) h
    obtain ⟨_, _, _, rfl⟩ := hextra c List.mem_cons_self
    exact ((satisfies_append (binds_of_expanded? rfl)).1 hone).1

/-- An input follows the path of a successor if it follows the path of the state and chooses the
decision. -/
theorem satisfies_realizes (hs : s.Charted) (h : Engine.Realizes e s d t) :
    g.Satisfies I t.pathCondition.clauses ↔
      g.Satisfies I s.pathCondition.clauses ∧ g.Chooses s d := by
  cases h with
  | null hclauses _ =>
    rw [hclauses]
    exact satisfies_append (binds_of_expanded? rfl)
  | aliases hclauses _ =>
    rw [hclauses]
    exact satisfies_append (binds_of_expanded? rfl)
  | @expands r c _ _ _ _ extra _ _ _ hextra hclauses _ =>
    have hone : g.Satisfies I (s.pathCondition.clauses ++ [.expands r s.heap.next c]) ↔
        g.Satisfies I s.pathCondition.clauses ∧ g.Chooses s (.expands r c) :=
      satisfies_append (hs.binds r c)
    rw [hclauses, List.append_cons, ← hone]
    constructor
    · exact satisfies_of_append_lengths hextra
    · intro h
      obtain ⟨o, ho, -⟩ := (hone.1 h).2
      exact satisfies_append_lengths ho hextra h

theorem isAssignable_of_mem_expansionClasses {t : ClassTable} {staticType c : String}
    (hc : c ∈ (t.expansionClasses staticType).toOption.getD []) :
    t.isAssignable c staticType = true := by
  rcases ClassTable.mem_expansionClasses hc with ⟨-, rfl⟩ | ⟨_, -, -, hassignable⟩
  · rw [ClassTable.isAssignable, if_pos (.inl rfl)]
  · exact hassignable

theorem nodup_expansionClasses (t : ClassTable) (staticType : String) :
    ((t.expansionClasses staticType).toOption.getD []).Nodup := by
  unfold ClassTable.expansionClasses
  split
  · exact List.pairwise_singleton _ _
  · cases t.find staticType with
    | error error => exact List.nodup_nil
    | ok found =>
      apply List.pairwise_map.2
      apply (t.classes.sorted.filter _).imp
      intro b c hbc
      exact String.ne_of_lt hbc

theorem nodup_decisions (t : ClassTable) (s : State) (r : RefSymbol) :
    (Engine.decisions t s r).Nodup := by
  unfold Engine.decisions Engine.candidates Engine.aliasCandidates Engine.expansionCandidates
  rw [List.cons_append, List.map_cons, List.map_append, List.map_map, List.map_map]
  apply List.nodup_cons.2
  constructor
  · intro hnull
    rcases List.mem_append.1 hnull with h | h
    · obtain ⟨_, _, heq⟩ := List.mem_map.1 h
      cases heq
    · obtain ⟨_, _, heq⟩ := List.mem_map.1 h
      cases heq
  · apply List.nodup_append.2
    refine ⟨?_, ?_, ?_⟩
    · apply List.pairwise_map.2
      apply (s.initialHeap.objects.sorted.filter _).imp
      intro b c hbc heq
      have haddress : b.1 = c.1 := (Decision.aliases.inj heq).2
      omega
    · apply List.pairwise_map.2
      apply (nodup_expansionClasses t r.staticType).imp
      intro b c hbc heq
      exact hbc (Decision.expands.inj heq).2
    · intro d hd d' hd' heq
      obtain ⟨_, _, rfl⟩ := List.mem_map.1 hd
      obtain ⟨_, _, rfl⟩ := List.mem_map.1 hd'
      cases heq

section Decisions

variable {table : ClassTable} {r : RefSymbol}

/-- A reference that is null in the input. -/
theorem exactlyOne_of_null (hsat : g.Satisfies I s.pathCondition.clauses)
    (htarget : g.target r = none) : ExactlyOne (g.Chooses s) (Engine.decisions table s r) := by
  apply ExactlyOne.of_nodup (nodup_decisions table s r) (Engine.mem_decisions.2 (.inl rfl)) htarget
  intro d hd hchooses
  rcases Engine.mem_decisions.1 hd with rfl | ⟨a, o, -, -, rfl⟩ | ⟨c, -, rfl⟩
  · rfl
  · obtain ⟨r', c, hr', heq⟩ := hchooses
    obtain ⟨o', ho', -⟩ := hsat.expanded hr'
    rw [htarget, ho'] at heq
    cases heq
  · obtain ⟨o, ho, -⟩ := hchooses
    rw [htarget] at ho
    cases ho

/-- A reference to an object that the path has bound to an address. -/
theorem exactlyOne_of_bound {r' : RefSymbol} {o : O} {a : Nat} {c : String} (hs : s.Charted)
    (hsat : g.Satisfies I s.pathCondition.clauses)
    (hclass : g.classOf o ∈ (table.expansionClasses r.staticType).toOption.getD [])
    (htarget : g.target r = some o) (hr' : .expands r' a c ∈ s.pathCondition.clauses)
    (hbound : g.target r' = some o) :
    ExactlyOne (g.Chooses s) (Engine.decisions table s r) := by
  have hsame : g.target r = g.target r' := htarget.trans hbound.symm
  -- The object at the address has the class that the input gives it, which fits the reference.
  have hmem : .aliases r a ∈ Engine.decisions table s r := by
    obtain ⟨p, hp, hpclass⟩ := hs.expanded hr'
    obtain ⟨o', ho', hoclass⟩ := hsat.expanded hr'
    rw [hbound] at ho'
    cases ho'
    refine Engine.mem_decisions.2 (.inr (.inl ⟨a, p, hp, ?_, rfl⟩))
    rw [hpclass, ← hoclass]
    exact isAssignable_of_mem_expansionClasses hclass
  apply ExactlyOne.of_nodup (nodup_decisions table s r) hmem ⟨r', c, hr', hsame⟩
  intro d hd hchooses
  rcases Engine.mem_decisions.1 hd with rfl | ⟨a', _, -, -, rfl⟩ | ⟨c', -, rfl⟩
  · exact absurd (htarget.symm.trans hchooses) nofun
  · obtain ⟨r'', c'', hr'', heq⟩ := hchooses
    rw [hsat.address_eq hr' hr'' (hsame.symm.trans heq)]
  · obtain ⟨o', ho', -, hfresh⟩ := hchooses
    exact absurd (hbound.trans (htarget.symm.trans ho')) (hfresh r' a c hr')

/-- A reference to an object that the path has not met. -/
theorem exactlyOne_of_fresh {o : O}
    (hclass : g.classOf o ∈ (table.expansionClasses r.staticType).toOption.getD [])
    (htarget : g.target r = some o)
    (hfresh : ∀ r' a c, .expands r' a c ∈ s.pathCondition.clauses → g.target r' ≠ some o) :
    ExactlyOne (g.Chooses s) (Engine.decisions table s r) := by
  have hmem : .expands r (g.classOf o) ∈ Engine.decisions table s r :=
    Engine.mem_decisions.2 (.inr (.inr ⟨_, hclass, rfl⟩))
  apply ExactlyOne.of_nodup (nodup_decisions table s r) hmem ⟨o, htarget, rfl, hfresh⟩
  intro d hd hchooses
  rcases Engine.mem_decisions.1 hd with rfl | ⟨a', _, -, -, rfl⟩ | ⟨c', -, rfl⟩
  · exact absurd (htarget.symm.trans hchooses) nofun
  · obtain ⟨r', c, hr', heq⟩ := hchooses
    exact absurd (heq.symm.trans htarget) (hfresh r' a' c hr')
  · obtain ⟨o', ho', hclass', -⟩ := hchooses
    rw [htarget] at ho'
    cases ho'
    rw [hclass']

/-- An input chooses exactly one of the decisions for a reference that fits in it. -/
theorem exactlyOne_decisions (hs : s.Charted) (hsat : g.Satisfies I s.pathCondition.clauses)
    (hfits : g.Fits table r.staticType (g.content r)) :
    ExactlyOne (g.Chooses s) (Engine.decisions table s r) := by
  cases htarget : g.target r with
  | none => exact exactlyOne_of_null hsat htarget
  | some o =>
    have hclass := hfits.mem_expansionClasses htarget
    by_cases hbound : ∃ r' a c, .expands r' a c ∈ s.pathCondition.clauses ∧ g.target r' = some o
    · obtain ⟨r', a, c, hr', ho⟩ := hbound
      exact exactlyOne_of_bound hs hsat hclass htarget hr' ho
    · apply exactlyOne_of_fresh hclass htarget
      intro r' a c hr' ho
      exact hbound ⟨r', a, c, hr', ho⟩

end Decisions

/-! ## Steps -/

/-- The path condition is charted, and the references that can be loaded fit in an input that
follows the path. -/
structure InStep (g : ObjectGraph O) (I : Interpretation) (t : ClassTable) (s : State) : Prop where
  charted : s.Charted
  fits : g.Satisfies I s.pathCondition.clauses → g.FitsState t s

theorem InStep.mirrors {table : ClassTable} (hs : InStep g I table s)
    (hpath : t.pathCondition = s.pathCondition) (h : s.Mirrors t) : InStep g I table t := by
  constructor
  · exact hs.charted.mirrors hpath h
  · intro hsat
    rw [hpath] at hsat
    exact (hs.fits hsat).mirrors h

theorem InStep.realizes (hg : g.FitsFields e.classes) (hs : InStep g I e.classes s)
    (h : Engine.Realizes e s d t)
    (hd : ∀ r a, d = .aliases r a → ∃ o, s.initialHeap.get a = .ok o) :
    InStep g I e.classes t := by
  constructor
  · exact hs.charted.realizes h hd
  · intro hsat
    have hearlier := ((satisfies_realizes hs.charted h).1 hsat).1
    exact (hs.fits hearlier).realizes hg h hsat

section Outcomes

variable {successors : List State} (hs : InStep g I e.classes s)
  (h : Engine.LoadOutcome e s successors)

include hs h

theorem inStep_outcome (hg : g.FitsFields e.classes) (ht : t ∈ successors) :
    InStep g I e.classes t ∧
      (g.Satisfies I t.pathCondition.clauses → g.Satisfies I s.pathCondition.clauses) := by
  cases h with
  | single hpath h =>
    cases List.mem_singleton.1 ht
    exact ⟨hs.mirrors hpath h, fun hsat => hpath ▸ hsat⟩
  | @decided working r _ hpath h _ hall =>
    have hworking := hs.mirrors hpath h
    obtain ⟨d, hd, hrealizes⟩ := exists_left_of_forall₂ hall ht
    have halias : ∀ r a, d = .aliases r a → ∃ o, working.initialHeap.get a = .ok o := by
      intro r' a heq
      rw [heq] at hd
      rcases Engine.mem_decisions.1 hd with hd | ⟨a', o, ho, -, hd⟩ | ⟨c, -, hd⟩
      · cases hd
      · cases hd
        exact ⟨o, ho⟩
      · cases hd
    refine ⟨hworking.realizes hg hrealizes halias, fun hsat => ?_⟩
    rw [← hpath]
    exact ((satisfies_realizes hworking.charted hrealizes).1 hsat).1

/-- An input that follows the path of a state follows exactly one of the successors of a load. -/
theorem exactlyOne_outcome (hsat : g.Satisfies I s.pathCondition.clauses) :
    ExactlyOne (fun t => g.Satisfies I t.pathCondition.clauses) successors := by
  cases h with
  | single hpath h =>
    rw [← hpath] at hsat
    exact .here hsat (List.forall_mem_nil _)
  | @decided working r _ hpath h hr hall =>
    have hworking := hs.mirrors hpath h
    rw [← hpath] at hsat
    have hone := exactlyOne_decisions hworking.charted hsat (hworking.fits hsat r hr)
    apply hone.transfer hall
    intro d t hrealizes
    rw [satisfies_realizes hworking.charted hrealizes]
    exact ⟨fun hchooses => ⟨hsat, hchooses⟩, fun hboth => hboth.2⟩

end Outcomes

/-- A concrete input for a root state: the arguments and the fields fit their types. -/
structure Inhabits (g : ObjectGraph O) (t : ClassTable) (root : State) : Prop where
  arguments : ∀ f ∈ root.frames, ∀ r, some (.reference (.symbolic r)) ∈ f.locals.slots →
    g.Fits t r.staticType (g.content r)
  fields : g.FitsFields t

theorem inStep_root : InStep g I e.classes .root := by
  constructor
  · constructor
    · intro r a c hr
      cases hr
    · intro r a hr
      cases hr
    · intro a o ho
      cases ho
  · intro _ r hr
    rcases hr with ⟨f, hf, -⟩ | ⟨a, o, ho, -⟩
    · cases hf
    · cases ho

theorem mirrors_withSymbols (s : State) (n : Nat) : s.Mirrors (s.withSymbols n) :=
  ⟨rfl, Nat.le_refl _, fun h => h⟩

theorem createArguments_mirrors (table : List LocalVariable) (slot : Nat)
    (descriptors : List String) :
    (Engine.createArguments table slot descriptors).Meets s
      (fun _ t => t.pathCondition = s.pathCondition ∧ s.Mirrors t) fun _ _ => True := by
  induction descriptors generalizing s slot with
  | nil => exact ⟨rfl, .refl s⟩
  | cons descriptor rest ih =>
    unfold Engine.createArguments
    rw [meets_bind]
    refine State.meets_createSymbol (fun v _ => ?_) fun _ _ _ => trivial
    rw [meets_bind]
    exact (ih (slot + v.slots)).mono
      (fun _ _ ht => ⟨ht.1, (mirrors_withSymbols s _).trans ht.2⟩) fun _ _ h => h

theorem createReceiver_inStep (hg : g.FitsFields e.classes) (className name : String) :
    (e.createReceiver className name).Meets .root (fun _ t => InStep g I e.classes t)
      fun _ _ => True := by
  have hroot : InStep g I e.classes (State.root.withSymbols 1) :=
    inStep_root.mirrors rfl (mirrors_withSymbols _ 1)
  have hfields : ∀ fields, (e.classes.instanceFields className).toOption.getD [] = fields →
      fields = [] ∨ e.classes.instanceFields className = .ok fields := by
    rintro fields rfl
    cases e.classes.instanceFields className with
    | error error => exact .inl rfl
    | ok fields => exact .inr rfl
  unfold Engine.createReceiver
  rw [meets_bind]
  change Meets _ (State.root.withSymbols 1) _ _
  rw [meets_bind]
  refine State.meets_assumeExpands (fun object n p _ hobject hp => ?_) (fun _ => trivial)
    fun _ _ _ _ _ _ _ _ => trivial
  have hinput : ((State.root.withSymbols 1).withInput object).Mirrors
      ((((State.root.withSymbols 1).withSymbols n).withInput object).withPath p) :=
    ⟨rfl, Nat.le_refl _, fun h => h⟩
  have hrealizes : Engine.Realizes e (State.root.withSymbols 1)
      (.expands ⟨0, className, .root name⟩ className)
      ((((State.root.withSymbols 1).withSymbols n).withInput object).withPath p) :=
    .expands (hfields _ rfl) hobject (List.forall_mem_nil _)
      (PathCondition.clauses_of_push hp) hinput
  exact hroot.realizes hg hrealizes nofun

theorem createInputs_inStep (hg : g.FitsFields e.classes) (method : MethodSignature)
    (isStatic : Bool) (table : List LocalVariable) :
    (e.createInputs method isStatic table).Meets .root (fun _ t => InStep g I e.classes t)
      fun _ _ => True := by
  have harguments : ∀ {s : State} (slot : Nat) (descriptors : List String),
      InStep g I e.classes s → (Engine.createArguments table slot descriptors).Meets s
        (fun _ t => InStep g I e.classes t) fun _ _ => True :=
    fun slot descriptors hs => (createArguments_mirrors table slot descriptors).mono
      (fun _ _ ht => hs.mirrors ht.1 ht.2) fun _ _ h => h
  unfold Engine.createInputs
  split
  · rw [meets_bind, meets_ofExcept]
    exact ⟨fun descriptors _ => harguments 0 descriptors inStep_root, fun _ _ => trivial⟩
  · rw [meets_bind]
    refine (createReceiver_inStep (I := I) hg _ _).mono (fun receiver t ht => ?_) fun _ _ h => h
    rw [meets_bind, meets_ofExcept]
    refine ⟨fun descriptors _ => ?_, fun _ _ => trivial⟩
    rw [meets_bind]
    exact (harguments 1 descriptors ht).mono (fun _ _ hu => hu) fun _ _ h => h

theorem inStep_initialState {method : MethodSignature} {isStatic : Bool} {code : List UInt8}
    {maxLocals maxStack : Nat} {table : List LocalVariable} {root : State}
    (h : e.initialState method isStatic code maxLocals table maxStack = .ok root)
    (hg : g.Inhabits e.classes root) : InStep g I e.classes root := by
  unfold Engine.initialState at h
  split at h
  · cases h
  · rename_i args s hrun
    have hs := (createInputs_inStep (I := I) hg.fields method isStatic table).of_ok hrun
    split at h
    · cases h
    · cases h
      constructor
      · exact ⟨hs.charted.expanded, hs.charted.aliased, hs.charted.inUse⟩
      · intro hsat r hr
        rcases hr with ⟨f, hf, hr⟩ | hr
        · exact hg.arguments f hf r hr
        · exact hs.fits hsat r (.inr hr)

end ObjectGraph

namespace Engine

/-! ## Runs -/

section Runs

variable {O : Type} {e : Engine ω τ} {g : ObjectGraph O} {I : Interpretation} {root s : State}

/-- The states that are reached from a root by loads. -/
inductive LoadsFrom (e : Engine ω τ) (root : State) : State → Prop
  | root : LoadsFrom e root root
  | step {s i ses ses' successors t} : LoadsFrom e root s → i.IsLoad →
      (e.step i s).run ses = (.ok successors, ses') → t ∈ successors → LoadsFrom e root t

/-- The states at the ends of all paths from a root, after some of them were followed by some
loads in some order. -/
inductive Frontier (e : Engine ω τ) (root : State) : List State → Prop
  | root : Frontier e root [root]
  | step {before s after i ses ses' successors} : Frontier e root (before ++ s :: after) →
      i.IsLoad → (e.step i s).run ses = (.ok successors, ses') →
        Frontier e root (before ++ (successors ++ after))

theorem Frontier.loadsFrom {frontier : List State} (h : Frontier e root frontier) :
    ∀ t ∈ frontier, LoadsFrom e root t := by
  induction h with
  | root =>
    intro t ht
    cases List.mem_singleton.1 ht
    exact .root
  | step _ hi hrun ih =>
    intro t ht
    rcases List.mem_append.1 ht with ht | ht
    · exact ih t (List.mem_append_left _ ht)
    · rcases List.mem_append.1 ht with ht | ht
      · exact .step (ih _ (List.mem_append_right _ List.mem_cons_self)) hi hrun ht
      · exact ih t (List.mem_append_right _ (List.mem_cons_of_mem _ ht))

theorem LoadsFrom.inStep (he : e.Exhaustive) (hg : g.FitsFields e.classes)
    (hroot : g.InStep I e.classes root) (h : LoadsFrom e root s) : g.InStep I e.classes s := by
  induction h with
  | root => exact hroot
  | step _ hi hrun ht ih =>
    have houtcome := (step_outcome he hi).of_ok hrun
    exact (ObjectGraph.inStep_outcome ih houtcome hg ht).1

theorem load_always (he : e.Steady) (hs : s.Sound) {i : Instruction} (hi : i.IsLoad) :
    (e.step i s).Always (fun successors => ∀ t ∈ successors, s.Follows t)
      fun x => x.cause.Hangs e.classes := by
  intro ses
  have hbody : (e.body i s).Always (SafeResult e.classes s) (MayFault e.classes i) := by
    cases i with
    | loadLocal slot length => exact Always.mayFault_of_endsPath (loadLocal_always he hs slot)
    | getField name => exact Always.mayFault_of_endsPath (getField_always he hs name)
    | _ => exact hi.elim
  refine (execute_always he hs hbody ses).mono (fun _ _ h => h) fun x _ hx => ?_
  rcases hx with ⟨⟨method, isStatic, length, rfl⟩, -⟩ | hhangs
  · exact hi.elim
  · exact hhangs

theorem LoadsFrom.sound (he : e.Steady) (hroot : root.Sound) (h : LoadsFrom e root s) :
    s.Sound := by
  induction h with
  | root => exact hroot
  | step _ hi hrun ht ih =>
    have hfollows := (load_always he ih hi _).of_ok hrun
    exact (hfollows _ ht).sound

theorem load_succeeds (he : e.Steady) (hcomplete : e.classes.Complete) (hs : s.Sound)
    {i : Instruction} (hi : i.IsLoad) (ses : Session ω τ) :
    ∃ successors, ((e.step i s).run ses).1 = .ok successors := by
  have hstep := load_always he hs hi ses
  rcases hrun : (e.step i s).run ses with ⟨x | successors, ses'⟩
  · obtain ⟨cause, hhangs, -⟩ := hstep.of_error hrun
    exact absurd hhangs hcomplete.not_hangs
  · exact ⟨successors, rfl⟩

theorem frontier_exactlyOne (he : e.Exhaustive) (hg : g.FitsFields e.classes)
    (hroot : g.InStep I e.classes root) (hsat : g.Satisfies I root.pathCondition.clauses)
    {frontier : List State} (h : Frontier e root frontier) :
    ExactlyOne (fun t => g.Satisfies I t.pathCondition.clauses) frontier := by
  induction h with
  | root => exact .here hsat (List.forall_mem_nil _)
  | @step before s after i ses ses' successors hfrontier hi hrun ih =>
    have hs : LoadsFrom e root s :=
      hfrontier.loadsFrom s (List.mem_append_right _ List.mem_cons_self)
    have hinStep := hs.inStep he hg hroot
    have houtcome := (step_outcome he hi).of_ok hrun
    apply ih.replace
    · exact ObjectGraph.exactlyOne_outcome hinStep houtcome
    · intro hno t ht hyes
      exact hno ((ObjectGraph.inStep_outcome hinStep houtcome hg ht).2 hyes)

/-- Of the successors of a load, a concrete input that follows the path of the state follows
exactly one, and so it follows exactly one of all paths from the root.  The load gives its
successors unless the watchdog stops it. -/
theorem loads_partition_inputs (he : e.Exhaustive) {method : MethodSignature} {isStatic : Bool}
    {code : List UInt8} {maxLocals maxStack : Nat} {table : List LocalVariable}
    (hroot : e.initialState method isStatic code maxLocals table maxStack = .ok root)
    (hg : g.Inhabits e.classes root) (I : Interpretation) :
    (∀ s i ses, LoadsFrom e root s → i.IsLoad → g.Satisfies I s.pathCondition.clauses →
      (∀ successors, ((e.step i s).run ses).1 = .ok successors →
        ExactlyOne (fun t => g.Satisfies I t.pathCondition.clauses) successors) ∧
      ((∀ queries, e.watchdog.shouldStop queries = false) →
        ∃ successors, ((e.step i s).run ses).1 = .ok successors)) ∧
    ∀ frontier, Frontier e root frontier → g.Satisfies I root.pathCondition.clauses →
      ExactlyOne (fun t => g.Satisfies I t.pathCondition.clauses) frontier := by
  have hinStep : g.InStep I e.classes root := ObjectGraph.inStep_initialState hroot hg
  constructor
  · intro s i ses hs hi hsat
    constructor
    · intro successors hrun
      have houtcome : LoadOutcome e s successors := by
        rcases heq : (e.step i s).run ses with ⟨result, ses'⟩
        rw [heq] at hrun
        cases hrun
        exact (step_outcome he hi).of_ok heq
      exact ObjectGraph.exactlyOne_outcome (hs.inStep he hg.fields hinStep) houtcome hsat
    · intro hwatchdog
      have hsteady : e.Steady := ⟨he.oracle.answers, he.triggers, hwatchdog⟩
      exact load_succeeds hsteady he.classes (hs.sound hsteady (sound_initialState hroot)) hi ses
  · intro frontier hfrontier hsat
    exact frontier_exactlyOne he hg.fields hinStep hsat hfrontier

end Runs

/-- An engine whose oracle answers yes to whatever it is asked. -/
def agreeable (t : ClassTable) : Engine (List Clause) Unit :=
  { permissive t with oracle := { Oracle.permissive with ask := fun _ => pure true } }

theorem agreeable_exhaustive {t : ClassTable} (ht : t.Complete) : (agreeable t).Exhaustive where
  oracle :=
    { answers :=
        { set := Oracle.permissive_answers.set
          push := Oracle.permissive_answers.push
          ask := fun _ _ => trivial
          simplify := Oracle.permissive_answers.simplify }
      ask := fun _ _ => rfl
      simplify := fun _ _ => rfl }
  triggers := rfl
  classes := ht

/-- A class of nodes that refer to other nodes. -/
def nodeClasses : ClassTable :=
  ClassTable.initial.insert ((ClassInfo.named "Node").withField "next" "LNode;")

theorem instanceFields_node :
    nodeClasses.instanceFields "Node" = .ok [⟨"next", "LNode;", false⟩] := by
  have hinherited : nodeClasses.fieldsFrom ["Node"] rootClass = .ok [] := by
    rw [ClassTable.fieldsFrom]
    rfl
  exact ClassTable.fieldsFrom_of_superclass rfl rfl rfl hinherited

theorem nodeClasses_complete : nodeClasses.Complete := by
  have hroot : nodeClasses.instanceFields rootClass = .ok [] := by
    rw [ClassTable.instanceFields, ClassTable.fieldsFrom]
    rfl
  intro name c hfind _
  by_cases hname : name = "Node"
  · subst hname
    refine ⟨_, instanceFields_node, fun f hf => ?_⟩
    cases List.mem_singleton.1 hf
    exact .inr rfl
  · have hname' : name = rootClass := by
      by_contra hne
      have hnone : nodeClasses.classes.get? name = none :=
        (OrderedMap.get?_insert_of_ne _ hname _).trans (OrderedMap.get?_insert_of_ne _ hne _)
      cases hnone.symm.trans (ClassTable.find_eq_ok.1 hfind)
    subst hname'
    exact ⟨[], hroot, List.forall_mem_nil _⟩

/-- The root of a method with two nodes as its parameters. -/
def nodesRoot : State :=
  (State.root.withSymbols 2).pushFrame
    (.create ⟨"Main", "run", "(LNode;LNode;)V"⟩ [0, 0]
      ⟨[some (.reference (.symbolic ⟨0, "Node", .root "arg0"⟩)),
        some (.reference (.symbolic ⟨1, "Node", .root "arg1"⟩))], []⟩ 4)

theorem initialState_nodesRoot :
    (agreeable nodeClasses).initialState ⟨"Main", "run", "(LNode;LNode;)V"⟩ true [0, 0] 2 [] 4 =
      .ok nodesRoot := by
  have hparameters : Descriptor.parameterTypes "(LNode;LNode;)V" = .ok ["LNode;", "LNode;"] := by
    cbv
  simp only [initialState, createInputs, hparameters]
  rfl

/-- The input in which both arguments are one node that refers to itself. -/
def sharedNode : ObjectGraph Unit :=
  { argument := fun _ => .object ()
    classOf := fun _ => "Node"
    field := fun _ _ => .object ()
    length := fun _ => 0
    length_nonneg := fun _ => Int32.le_refl 0 }

theorem sharedNode_inhabits : sharedNode.Inhabits nodeClasses nodesRoot := by
  have hfits : ∀ content, sharedNode.Fits nodeClasses "Node" content := by
    intro content o _
    exact ClassTable.mem_expansionClasses_self rfl rfl rfl
  constructor
  · intro f hf r hr
    cases List.mem_singleton.1 hf
    rcases List.mem_cons.1 hr with hr | hr
    · cases hr
      exact hfits _
    · cases List.mem_singleton.1 hr
      exact hfits _
  · intro o fields name descriptor staticType hfields hdescriptor _ hstatic
    change nodeClasses.instanceFields "Node" = _ at hfields
    rw [instanceFields_node] at hfields
    cases hfields
    by_cases hname : name = "next"
    · subst hname
      cases hdescriptor
      cases hstatic
      exact hfits _
    · have hnone : (ObjectGraph.descriptors [⟨"next", "LNode;", false⟩]).get? name = none :=
        OrderedMap.get?_insert_of_ne _ hname _
      rw [hnone] at hdescriptor
      cases hdescriptor

/-- If both arguments are one node, there is a path on which the first was loaded, and when the
second is loaded there as well, one of the successors is that for this input. -/
theorem shared_node_follows_one_path :
    let e := agreeable nodeClasses
    ∃ s successors, LoadsFrom e nodesRoot s ∧ sharedNode.Satisfies .zero s.pathCondition.clauses ∧
      ((e.step (.loadLocal 1 1) s).run (.start [] ())).1 = .ok successors ∧
        ExactlyOne (fun t => sharedNode.Satisfies .zero t.pathCondition.clauses) successors := by
  intro e
  obtain ⟨hsteps, -⟩ := loads_partition_inputs (agreeable_exhaustive nodeClasses_complete)
    initialState_nodesRoot sharedNode_inhabits .zero
  obtain ⟨hone, hok⟩ := hsteps nodesRoot (.loadLocal 0 1) (.start [] ()) .root trivial
    ObjectGraph.satisfies_nil
  obtain ⟨first, hfirst⟩ := hok fun _ => rfl
  obtain ⟨s, hs, hsat⟩ := (hone first hfirst).exists_mem
  have hloads : LoadsFrom e nodesRoot s := by
    rcases hrun : (e.step (.loadLocal 0 1) nodesRoot).run (.start [] ()) with ⟨result, ses⟩
    rw [hrun] at hfirst
    cases hfirst
    have hload : (Instruction.loadLocal 0 1).IsLoad := trivial
    exact .step .root hload hrun hs
  obtain ⟨hone', hok'⟩ := hsteps s (.loadLocal 1 1) (.start [] ()) hloads trivial hsat
  obtain ⟨second, hsecond⟩ := hok' fun _ => rfl
  exact ⟨s, second, hloads, hsat, hsecond, hone' second hsecond⟩

end Engine

end SymbolicMachine
