import SymbolicMachine.Proofs.Explore.Counting
import SymbolicMachine.Proofs.Explore.Rules
/-!
# Engines that step alike

Two engines that differ in their oracles only take the same steps as long as their oracles give
the same answers.  What their answers depend on is described by two relations between sessions:
`rested` holds between any two steps, and `synced` holds from the moment the oracles were handed
over to one state until something else is assumed.  If every service of the oracles respects the
relations, then a step does: it has the same successors or the same error, and it leaves
sessions behind that are related again.
-/
namespace SymbolicMachine

open SymbolicMachine.Action

variable {ω₁ ω₂ τ α : Type}

namespace Session

/-- One successor in two sessions. -/
def Beside (R : Session ω₁ τ → Session ω₂ τ → Prop) (a : State × Session ω₁ τ)
    (b : State × Session ω₂ τ) : Prop :=
  a.1 = b.1 ∧ R a.2 b.2

/-- Counting in this way keeps two sessions related. -/
def Bears (R : Session ω₁ τ → Session ω₂ τ → Prop) (f : Statistics → Statistics) : Prop :=
  ∀ a b, R a b →
    R { a with statistics := f a.statistics } { b with statistics := f b.statistics }

/-- Counting the same amount in two sessions keeps them related. -/
def Counts (R : Session ω₁ τ → Session ω₂ τ → Prop) : Prop :=
  ∀ f amount, Statistics.Adds f amount → Bears R f

variable {R : Session ω₁ τ → Session ω₂ τ → Prop}

theorem Counts.deciding (h : Counts R) : Bears R (·.addDecisionPoint) :=
  h _ _ Statistics.adds_addDecisionPoint

theorem Counts.making (h : Counts R) (count : Nat) : Bears R (·.addSuccessors count) :=
  h _ _ (Statistics.adds_addSuccessors count)

end Session

open Session (Beside Bears Counts)

/-- Two engines whose oracles answer alike in related sessions, as long as no successors are
counted. -/
structure Engine.Attuned (e₁ : Engine ω₁ τ) (e₂ : Engine ω₂ τ)
    (rested synced : Session ω₁ τ → Session ω₂ τ → Prop) : Prop where
  classes : e₁.classes = e₂.classes
  natives : e₁.natives = e₂.natives
  config : e₁.config = e₂.config
  rest : ∀ a b, synced a b → rested a b
  deciding : Bears rested (·.addDecisionPoint)
  triggering : ∀ a, Couples (Beside rested) (Beside rested) (Beside rested) (e₁.triggering a)
    (e₂.triggering a)
  sync : ∀ s, Couples rested synced rested (e₁.sync s) (e₂.sync s)
  query : ∀ q, Couples synced synced rested (e₁.query q) (e₂.query q)
  push : ∀ c, Couples synced synced rested (Session.consult (e₁.oracle.push c))
    (Session.consult (e₂.oracle.push c))
  simplify : ∀ t, Couples synced rested rested (Session.consult (e₁.oracle.simplify t))
    (Session.consult (e₂.oracle.simplify t))

/-- Two engines whose oracles answer alike in related sessions. -/
structure Engine.Alike (e₁ : Engine ω₁ τ) (e₂ : Engine ω₂ τ)
    (rested synced : Session ω₁ τ → Session ω₂ τ → Prop) : Prop
    extends Engine.Attuned e₁ e₂ rested synced where
  making : ∀ count, Bears rested (·.addSuccessors count)

theorem Oracle.couples_pushAll {P E : ω₁ → ω₂ → Prop}
    {push₁ : Clause → Action ω₁ DecisionError Unit}
    {push₂ : Clause → Action ω₂ DecisionError Unit}
    (h : ∀ c, Couples P P E (push₁ c) (push₂ c)) (cs : List Clause) :
    Couples P P E (pushAll push₁ cs) (pushAll push₂ cs) := by
  induction cs with
  | nil => exact couples_pure_self _
  | cons c rest ih => exact (h c).bind fun _ => ih

namespace Engine

variable {e₁ : Engine ω₁ τ} {e₂ : Engine ω₂ τ}
  {rested synced : Session ω₁ τ → Session ω₂ τ → Prop}

/-- Queries go alike if the watchdogs agree and the oracles answer alike. -/
theorem couples_query {R E : Session ω₁ τ → Session ω₂ τ → Prop} {q : Query}
    (hstops : ∀ a b, R a b → e₁.stops a = e₂.stops b) (hE : ∀ a b, R a b → E a b)
    (hqueries : ∀ a b, R a b →
      R { a with queries := a.queries + 1 } { b with queries := b.queries + 1 })
    (hcounts : Counts R)
    (hask : Couples R R E (Session.consult (e₁.oracle.ask q))
      (Session.consult (e₂.oracle.ask q))) :
    Couples R R E (e₁.query q) (e₂.query q) := by
  have hasking : Couples R R E (e₁.asking q) (e₂.asking q) := by
    refine (couples_update hqueries).bind fun _ => hask.bind fun verdict => ?_
    exact (couples_update (hcounts _ _ (Statistics.adds_recordVerdict verdict))).bind fun _ =>
      couples_pure_self _
  intro a b hab
  rw [run_query, run_query, hstops a b hab]
  split
  · exact ⟨rfl, hE a b hab⟩
  · exact hasking a b hab

/-! ## Decisions -/

section Decisions

theorem couples_onState {R E : Session ω₁ τ → Session ω₂ τ → Prop} (hE : ∀ a b, R a b → E a b)
    (s : State) (m : State.Update α) :
    Couples R R E (onState (ω := ω₁) (τ := τ) s m) (onState s m) := by
  unfold onState
  split
  · exact couples_pure_self _
  · exact couples_fail hE _

theorem couples_onState_self {R : Session ω₁ τ → Session ω₂ τ → Prop} (s : State)
    (m : State.Update α) :
    Couples R R R (onState (ω := ω₁) (τ := τ) s m) (onState s m) :=
  couples_onState (fun _ _ hr => hr) s m

variable (h : Attuned e₁ e₂ rested synced)

include h

theorem Attuned.countingDecision {ε : Type} :
    Couples rested rested rested
      (Session.count (ω := ω₁) (τ := τ) (ε := ε) (·.addDecisionPoint))
      (Session.count (·.addDecisionPoint)) :=
  couples_update h.deciding

theorem Attuned.feasible (candidates : List (Query × Decision)) :
    Couples synced synced rested (e₁.feasible candidates) (e₂.feasible candidates) := by
  induction candidates with
  | nil => exact couples_pure_self _
  | cons c rest ih =>
    refine (h.query c.1).bind fun verdict => ih.bind fun others => ?_
    exact couples_pure_self _

theorem Attuned.referenceAlternatives (s : State) (r : RefSymbol) (access : Option ArrayAccess) :
    Couples synced rested rested (e₁.referenceAlternatives s r access)
      (e₂.referenceAlternatives s r access) := by
  unfold Engine.referenceAlternatives
  rw [h.classes]
  exact (h.feasible _).bind fun _ => couples_pure h.rest _

theorem Attuned.decideLoad (s : State) (v : Value) :
    Couples rested rested rested (e₁.decideLoad s v) (e₂.decideLoad s v) := by
  refine (h.countingDecision).bind fun _ => ?_
  split
  · exact (h.sync s).bind fun _ => h.referenceAlternatives s _ none
  · exact couples_pure_self _

theorem Attuned.memberAlternatives (s : State) (v : Value) (access : ArrayAccess) :
    Couples synced rested rested (e₁.memberAlternatives s v access)
      (e₂.memberAlternatives s v access) := by
  unfold Engine.memberAlternatives
  split
  · exact (h.push _).bind fun _ => h.referenceAlternatives s _ _
  · exact couples_pure h.rest _

theorem Attuned.unrecordedMember (s : State) (a : ArrayObject) (index : Term) :
    Couples synced synced rested (unrecordedMember (ω := ω₁) (τ := τ) s a index)
      (unrecordedMember s a index) := by
  unfold Engine.unrecordedMember
  split
  · exact (couples_onState h.rest s _).bind fun _ => couples_pure_self _
  · refine Couples.bind (couples_ofExcept (fun _ _ hr => hr) h.rest _) fun _ => ?_
    exact couples_pure_self _

theorem Attuned.outcomeAlternatives (s : State) (address : Nat) (a : ArrayObject) (index : Term)
    (outcome : AccessOutcome) :
    Couples synced rested rested (e₁.outcomeAlternatives s address a index outcome)
      (e₂.outcomeAlternatives s address a index outcome) := by
  cases outcome with
  | outOfRange guard => exact couples_pure h.rest _
  | entry guard v =>
    exact ((h.memberAlternatives s v _).mapError _).bind fun _ =>
      couples_pure_self _
  | unknown guard =>
    refine (h.unrecordedMember s a index).bind fun member => ?_
    exact ((h.memberAlternatives _ _ _).mapError _).bind fun _ =>
      couples_pure_self _

theorem Attuned.decideOutcomes (address : Nat) (a : ArrayObject) (index : Term)
    (outcomes : List AccessOutcome) (s : State) :
    Couples rested rested rested (e₁.decideOutcomes address a index s outcomes)
      (e₂.decideOutcomes address a index s outcomes) := by
  induction outcomes generalizing s with
  | nil => exact couples_pure_self _
  | cons outcome rest ih =>
    refine ((h.sync s).mapError _).bind fun _ => ((h.query _).mapError _).bind fun verdict => ?_
    split
    · refine (h.outcomeAlternatives s address a index outcome).bind fun here => ?_
      exact (ih here.1).bind fun _ => couples_pure_self _
    · exact (ih s).mono h.rest (fun _ _ hr => hr) fun _ _ hr => hr

theorem Attuned.decideArrayLoad (s : State) (address : Nat) (index : Term) :
    Couples rested rested rested (e₁.decideArrayLoad s address index)
      (e₂.decideArrayLoad s address index) := by
  refine (h.countingDecision).bind fun _ => ?_
  refine (couples_ofExcept_self _).bind fun a => ?_
  refine (couples_ofExcept_self _).bind fun outcomes => ?_
  exact h.decideOutcomes address a index outcomes s

end Decisions

/-! ## Successors -/

theorem couples_updating {R : Session ω₁ τ → Session ω₂ τ → Prop} (m : State.Update α) :
    Couples (Beside R) (Beside R) (Beside R) (updating (ω := ω₁) (τ := τ) m) (updating m) := by
  refine Couples.mapError ?_ _
  rintro ⟨s, a⟩ ⟨t, b⟩ ⟨heq, hab⟩
  cases heq
  refine ⟨rfl, ?_⟩
  rw [run_onPart, run_onPart]
  split <;> exact ⟨rfl, hab⟩

theorem couples_consulting {P Q E : Session ω₁ τ → Session ω₂ τ → Prop}
    {m₁ : Run ω₁ τ ExecutionError α} {m₂ : Run ω₂ τ ExecutionError α} (h : Couples P Q E m₁ m₂) :
    Couples (Beside P) (Beside Q) (Beside E) (consulting m₁) (consulting m₂) := by
  refine Couples.mapError ?_ _
  rintro ⟨s, a⟩ ⟨t, b⟩ ⟨heq, hab⟩
  cases heq
  obtain ⟨hresult, hafter⟩ := h a b hab
  refine ⟨hresult, ?_⟩
  rw [run_onPart, run_onPart]
  split at hafter <;> rename_i hrun <;> rw [hrun] <;> exact ⟨rfl, hafter⟩

/-- The same triggers act alike on sessions that agree on what the triggers keep. -/
theorem couples_triggering {R : Session ω₁ τ → Session ω₂ τ → Prop}
    (htriggers : e₁.triggers = e₂.triggers) (htrail : ∀ a b, R a b → a.trail = b.trail)
    (hleave : ∀ a b t, R a b → R { a with trail := t } { b with trail := t })
    (a : Alternative) :
    Couples (Beside R) (Beside R) (Beside R) (e₁.triggering a) (e₂.triggering a) := by
  refine Couples.mapError ?_ _
  rintro ⟨s, x⟩ ⟨t, y⟩ ⟨heq, hxy⟩
  cases heq
  rw [run_onPart, run_onPart, htriggers, htrail x y hxy]
  refine ⟨rfl, ?_⟩
  split <;> exact ⟨rfl, hleave x y _ hxy⟩

/-- Absent triggers leave sessions as they are. -/
theorem couples_triggering_absent {R : Session ω₁ τ → Session ω₂ τ → Prop}
    (h₁ : e₁.triggers = .absent τ) (h₂ : e₂.triggers = .absent τ) (a : Alternative) :
    Couples (Beside R) (Beside R) (Beside R) (e₁.triggering a) (e₂.triggering a) := by
  refine Couples.mapError ?_ _
  intro x y hxy
  rw [run_onPart, run_onPart, h₁, h₂]
  exact ⟨rfl, hxy⟩

section Attuned

variable (h : Attuned e₁ e₂ rested synced)

include h

theorem Attuned.assumeLength (address : Nat) :
    Couples (Beside rested) (Beside rested) (Beside rested) (e₁.assumeLength address)
      (e₂.assumeLength address) := by
  rintro ⟨s, x⟩ ⟨t, y⟩ ⟨heq, hxy⟩
  cases heq
  have hgo : Couples (Beside rested) (Beside rested) (Beside rested) (e₁.assumeLengthIn s address)
      (e₂.assumeLengthIn s address) := by
    refine (couples_ofExcept_self _).bind fun a => ?_
    refine (couples_ofExcept_self _).bind fun condition => ?_
    refine (couples_consulting (h.sync s)).bind fun _ => ?_
    refine (couples_consulting (h.simplify condition)).bind fun simplified => ?_
    exact couples_updating _
  rw [run_assumeLength, run_assumeLength]
  exact hgo (s, x) (s, y) ⟨rfl, hxy⟩

theorem Attuned.expand (r : RefSymbol) (className : String) :
    Couples (Beside rested) (Beside rested) (Beside rested) (e₁.expand r className)
      (e₂.expand r className) := by
  unfold Engine.expand Engine.expandedFields
  rw [h.classes, h.config]
  refine (couples_ofExcept_self _).bind fun fields => ?_
  refine (couples_updating _).bind fun address => ?_
  split
  · exact h.assumeLength address
  · exact couples_pure_self _

omit h in
theorem couples_assumeGuard (a : Alternative) :
    Couples (Beside rested) (Beside rested) (Beside rested) (assumeGuard (ω := ω₁) (τ := τ) a)
      (assumeGuard a) := by
  unfold assumeGuard
  split
  · split
    · exact couples_pure_self _
    · exact couples_updating _
  · exact couples_pure_self _

theorem Attuned.assumeDecision (d : Decision) :
    Couples (Beside rested) (Beside rested) (Beside rested) (e₁.assumeDecision d)
      (e₂.assumeDecision d) := by
  have hdone : ∀ v : Option Value, Couples (Beside rested) (Beside rested) (Beside rested)
      (pure v : Refinement ω₁ τ (Option Value)) (pure v : Refinement ω₂ τ (Option Value)) :=
    couples_pure_self
  cases d with
  | outOfRange => exact hdone none
  | loads v => exact hdone (some v)
  | null r => exact (couples_updating _).bind fun _ => hdone _
  | aliases r address => exact (couples_updating _).bind fun _ => hdone _
  | expands r className => exact (h.expand r className).bind fun _ => hdone _

omit h in
theorem couples_recordFresh (a : Alternative) (v : Value) :
    Couples (Beside rested) (Beside rested) (Beside rested)
      (recordFresh (ω := ω₁) (τ := τ) a v) (recordFresh a v) := by
  unfold recordFresh
  split
  · split
    · exact couples_updating _
    · exact couples_pure_self _
  · exact couples_pure_self _

theorem Attuned.load (a : Alternative) (offset : Nat) (v : Value) :
    Couples (Beside rested) (Beside rested) (Beside rested) (e₁.load a offset v)
      (e₂.load a offset v) := by
  refine (couples_recordFresh a v).bind fun _ => ?_
  refine (couples_ofExcept_self _).bind fun widened => ?_
  refine (couples_updating _).bind fun _ => ?_
  refine (h.triggering a).bind fun advance => ?_
  split
  · exact couples_updating _
  · exact couples_pure_self _

theorem Attuned.apply (a : Alternative) (offset : Nat) :
    Couples (Beside rested) (Beside rested) (Beside rested) (e₁.apply a offset)
      (e₂.apply a offset) := by
  refine (couples_assumeGuard a).bind fun _ => ?_
  refine (h.assumeDecision a.decision).bind fun loaded => ?_
  cases loaded with
  | none =>
    refine couples_update ?_
    rintro ⟨s, x⟩ ⟨t, y⟩ ⟨heq, hxy⟩
    cases heq
    exact ⟨rfl, hxy⟩
  | some v => exact h.load a offset v

theorem Attuned.refineOne (parent : State) (branching : Bool) (offset number : Nat)
    (a : Alternative) :
    Couples rested rested rested (e₁.refineOne parent branching offset number a)
      (e₂.refineOne parent branching offset number a) := by
  intro x y hxy
  obtain ⟨hresult, hafter⟩ := h.apply { a with branch := number } offset
    (successorOf parent branching number, x) (successorOf parent branching number, y) ⟨rfl, hxy⟩
  rw [run_refineOne, run_refineOne]
  rcases hx : (e₁.apply { a with branch := number } offset).run
      (successorOf parent branching number, x) with ⟨fault | _, s, x'⟩ <;>
    rcases hy : (e₂.apply { a with branch := number } offset).run
      (successorOf parent branching number, y) with ⟨_ | _, t, y'⟩ <;>
    rw [hx, hy] at hresult hafter <;> cases hresult <;> obtain ⟨heq, hrelated⟩ := hafter <;>
    cases heq
  · refine ⟨rfl, ?_⟩
    split <;> exact hrelated
  · exact ⟨rfl, hrelated⟩

/-! ## Instructions -/

theorem Attuned.decided (s : State) (v : Value) :
    Couples rested rested rested (e₁.decided s v) (e₂.decided s v) :=
  ((h.decideLoad s v).mapError _).bind fun _ => couples_pure_self _

omit h

theorem couples_checked (r : Except ValueError α) :
    Couples rested rested rested (checked (ω := ω₁) (τ := τ) r) (checked r) :=
  couples_ofExcept_self _

theorem couples_fetched (r : Except MemoryError α) :
    Couples rested rested rested (fetched (ω := ω₁) (τ := τ) r) (fetched r) :=
  couples_ofExcept_self _

theorem couples_popInt (s : State) :
    Couples rested rested rested (popInt (ω := ω₁) (τ := τ) s) (popInt s) := by
  refine (couples_onState_self s _).bind fun popped => ?_
  refine (couples_checked _).bind fun t => (couples_checked _).bind fun _ => ?_
  exact couples_pure_self _

theorem couples_popTarget (s : State) :
    Couples rested rested rested (popTarget (ω := ω₁) (τ := τ) s) (popTarget s) := by
  refine (couples_onState_self s _).bind fun popped => ?_
  refine (couples_checked _).bind fun r => (couples_fetched _).bind fun target => ?_
  exact couples_pure_self _

theorem couples_popArguments (s : State) (count : Nat) (isStatic : Bool) :
    Couples rested rested rested (popArguments (ω := ω₁) (τ := τ) s count isStatic)
      (popArguments s count isStatic) := by
  unfold popArguments
  split
  · exact couples_onState_self s _
  · refine (couples_onState_self s _).bind fun popped => ?_
    rcases popped with ⟨_ | ⟨receiver, args⟩, t⟩
    · exact couples_pure_self _
    · exact (couples_checked _).bind fun _ => couples_pure_self _

include h

theorem Attuned.loadLocal (slot : Nat) (s : State) :
    Couples rested rested rested (e₁.loadLocal slot s) (e₂.loadLocal slot s) := by
  unfold Engine.loadLocal
  rw [h.config]
  exact (couples_fetched _).bind fun v => h.decided s v

theorem Attuned.getField (name : String) (s : State) :
    Couples rested rested rested (e₁.getField name s) (e₂.getField name s) := by
  refine (couples_popTarget s).bind fun popped => ?_
  rcases popped with ⟨_ | address, t⟩
  · exact couples_pure_self _
  · refine (couples_fetched _).bind fun object => (couples_fetched _).bind fun v => ?_
    exact h.decided t v

theorem Attuned.arrayLoad (s : State) :
    Couples rested rested rested (e₁.arrayLoad s) (e₂.arrayLoad s) := by
  refine (couples_popInt s).bind fun popped => (couples_popTarget _).bind fun popped' => ?_
  rcases popped' with ⟨_ | address, t⟩
  · exact couples_pure_self _
  · refine (couples_fetched _).bind fun object => ?_
    cases object with
    | object i => exact couples_checked _
    | array a =>
      exact (h.decideArrayLoad t address popped.1).bind fun _ => couples_pure_self _

theorem Attuned.assumed (s : State) (m : State.Update Unit) :
    Couples synced rested rested
      (do let ((), t) ← onState s m
          pure (some t) : Run ω₁ τ Fault (Option State))
      (do let ((), t) ← onState s m
          pure (some t)) :=
  (couples_onState h.rest s m).bind fun _ => couples_pure h.rest _

theorem Attuned.assumeInitialization (s : State) (className : String) :
    Couples rested rested rested (e₁.assumeInitialization s className)
      (e₂.assumeInitialization s className) := by
  unfold Engine.assumeInitialization
  split
  · exact couples_pure_self _
  · refine ((h.sync s).mapError _).bind fun _ => ((h.query _).mapError _).bind fun before => ?_
    split
    · exact h.assumed s _
    · refine ((h.query _).mapError _).bind fun after => ?_
      split
      · exact h.assumed s _
      · exact couples_pure h.rest _

theorem Attuned.newInstance (className : String) (s : State) :
    Couples rested rested rested (e₁.newInstance className s) (e₂.newInstance className s) := by
  unfold Engine.newInstance
  rw [h.classes]
  refine (couples_fetched _).bind fun f => ?_
  refine (couples_ofExcept_self _).bind fun c => ?_
  split
  · refine (couples_ofExcept_self _).bind fun fields => ?_
    refine (h.assumeInitialization s className).bind fun assumed => ?_
    cases assumed with
    | none => exact couples_pure_self _
    | some t =>
      exact (couples_onState_self t _).bind fun _ => couples_pure_self _
  · exact couples_pure_self _

theorem Attuned.forkIf (condition : Term) (fork : Except ExecutionError State) :
    Couples synced synced rested (e₁.forkIf condition fork) (e₂.forkIf condition fork) := by
  refine ((h.query _).mapError _).bind fun verdict => ?_
  split
  · exact (couples_ofExcept (fun _ _ hr => hr) h.rest _).bind fun _ =>
      couples_pure_self _
  · exact couples_pure_self _

theorem Attuned.invokeNative (method : MethodSignature) (isStatic : Bool) (offset : Nat)
    (s : State) :
    Couples rested rested rested (e₁.invokeNative method isStatic offset s)
      (e₂.invokeNative method isStatic offset s) := by
  unfold Engine.invokeNative
  rw [h.natives]
  refine (couples_checked _).bind fun parameters => (couples_popArguments _ _ _).bind fun args => ?_
  refine (couples_ofExcept_self _).bind fun result => ?_
  exact (couples_onState_self _ _).bind fun _ => couples_pure_self _

omit h in
theorem couples_invokeIsExplored (s : State) :
    Couples rested rested rested (invokeIsExplored (ω := ω₁) (τ := τ) s) (invokeIsExplored s) :=
  (couples_onState_self _ _).bind fun _ => couples_pure_self _

end Attuned

/-! ## Steps -/

section Alike

variable (h : Alike e₁ e₂ rested synced)

include h

theorem Alike.countingSuccessors {ε : Type} (count : Nat) :
    Couples rested rested rested
      (Session.count (ω := ω₁) (τ := τ) (ε := ε) (·.addSuccessors count))
      (Session.count (·.addSuccessors count)) :=
  couples_update (h.making count)

theorem Alike.refineFrom (parent : State) (branching : Bool) (offset number : Nat)
    (alternatives : List Alternative) :
    Couples rested rested rested (e₁.refineFrom parent branching offset number alternatives)
      (e₂.refineFrom parent branching offset number alternatives) := by
  induction alternatives generalizing number with
  | nil => exact couples_pure_self _
  | cons a rest ih =>
    refine (h.refineOne parent branching offset number a).bind fun s => ?_
    refine (h.countingSuccessors 1).bind fun _ => (ih (number + 1)).bind fun others => ?_
    exact couples_pure_self _

theorem Alike.single (s : State) :
    Couples rested rested rested (single (ω := ω₁) (τ := τ) s) (single s) :=
  (h.countingSuccessors 1).bind fun _ => couples_pure_self _

theorem Alike.conclude (s : State) (offset : Nat) (result : Except Fault StepResult) :
    Couples rested rested rested (e₁.conclude s offset result)
      (e₂.conclude s offset result) := by
  match result with
  | .ok (.decided working alternatives) => exact h.refineFrom working _ offset 1 alternatives
  | .ok (.forked successors) => exact couples_pure_self _
  | .ok (.done working) => exact h.single working
  | .error fault =>
    refine (couples_ofExcept_self _).bind fun failed => ?_
    exact h.single failed

theorem Alike.execute {offset : Nat} {b₁ : Body ω₁ τ} {b₂ : Body ω₂ τ} {s : State}
    (hbody : Couples rested rested rested (b₁ s) (b₂ s)) :
    Couples rested rested rested (e₁.execute offset b₁ s) (e₂.execute offset b₂ s) := by
  intro x y hxy
  obtain ⟨hresult, hafter⟩ := hbody x y hxy
  have hrested : rested ((b₁ s).run x).2 ((b₂ s).run y).2 := by
    split at hafter <;> exact hafter
  have hconclude := (h.conclude s offset ((b₁ s).run x).1).mapError (Located.mk (locationOf s))
    _ _ hrested
  rw [Action.run_mapError, Action.run_mapError] at hconclude
  simpa only [run_execute, ← hresult] using hconclude

theorem Alike.forkOnLength (s : State) (className : String) (length : Term) (offset : Nat) :
    Couples rested rested rested (e₁.forkOnLength s className length offset)
      (e₂.forkOnLength s className length offset) := by
  refine (h.countingDecision).bind fun _ => ((h.sync s).mapError _).bind fun _ => ?_
  refine (couples_ofExcept (fun _ _ hr => hr) h.rest _).bind fun negative => ?_
  refine (couples_ofExcept (fun _ _ hr => hr) h.rest _).bind fun nonnegative => ?_
  refine (h.forkIf negative _).bind fun failing => (h.forkIf nonnegative _).bind fun passing => ?_
  refine Couples.mono (P := rested) ?_ h.rest (fun _ _ hr => hr) fun _ _ hr => hr
  exact (h.countingSuccessors _).bind fun _ => couples_pure_self _

theorem Alike.newArray (memberType : String) (s : State) :
    Couples rested rested rested (e₁.newArray memberType s) (e₂.newArray memberType s) := by
  refine (couples_popInt s).bind fun popped => ?_
  dsimp only
  split
  · split
    · exact couples_pure_self _
    · exact (couples_onState_self _ _).bind fun _ => couples_pure_self _
  · exact h.forkOnLength _ _ _ _

/-- Engines whose oracles answer alike take the same steps: the same successors or the same
error. -/
theorem Alike.step (i : Instruction) (s : State) :
    Couples rested rested rested (e₁.step i s) (e₂.step i s) := by
  refine h.execute ?_
  cases i with
  | loadLocal slot length => exact h.loadLocal slot s
  | getField name => exact h.getField name s
  | arrayLoad => exact h.arrayLoad s
  | newInstance className => exact h.newInstance className s
  | newArray memberType => exact h.newArray memberType s
  | invokeNative method isStatic length => exact h.invokeNative method isStatic length s
  | invokeIsExplored => exact couples_invokeIsExplored s

end Alike

end Engine

end SymbolicMachine
