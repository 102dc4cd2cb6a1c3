import SymbolicMachine.Explore.Step
import SymbolicMachine.Proofs.State.Operations
/-!
# Rules for the engine

What a step establishes is computed along its definition.  Each building block of the engine has
a rule that says what it meets in terms of the update, the oracle call or the trigger inside it.
The sessions and states that a rule speaks of are written out, so that an assertion about the
oracle's state or about a successor can be followed through every layer of a step.
-/
namespace SymbolicMachine

open SymbolicMachine.Action

variable {ω τ ε α β : Type}

namespace Session

variable {ses : Session ω τ}

@[simp] theorem meets_consult (m : Action ω DecisionError α) {good : α → Session ω τ → Prop}
    {bad : ExecutionError → Session ω τ → Prop} :
    (consult m).Meets ses good bad ↔
      m.Meets ses.oracle (fun a o => good a { ses with oracle := o })
        fun d o => bad (.decision d) { ses with oracle := o } := by
  simp [consult]

@[simp] theorem meets_count (f : Statistics → Statistics) {good : Unit → Session ω τ → Prop}
    {bad : ε → Session ω τ → Prop} :
    (count f).Meets ses good bad ↔ good () { ses with statistics := f ses.statistics } := Iff.rfl

end Session

/-- The classes of the exceptions by which a step can end a path. -/
def thrownClasses : List String :=
  [verifyError, "java/lang/NoClassDefFoundError", "java/lang/IllegalAccessError", nullPointer,
    Engine.indexOutOfBounds, negativeArraySize, instantiationError]

theorem ClassError.mem_thrownClasses {cause : ClassError} {className : String}
    (h : cause.thrownClass? = some className) : className ∈ thrownClasses := by
  cases cause <;> cases h <;> simp [thrownClasses]

/-- A fault that ends a path does so by an exception. -/
theorem Fault.exists_throwNew_of_settle {fault : Fault} {s t : State}
    (h : fault.settle s = .ok t) :
    ∃ className, className ∈ thrownClasses ∧ t = (s.throwNew className).2 := by
  unfold settle at h
  split at h
  · split at h
    · cases h
    · cases h
      exact ⟨_, List.mem_cons_self, rfl⟩
  · split at h
    · rename_i hthrown
      cases h
      exact ⟨_, ClassError.mem_thrownClasses hthrown, rfl⟩
    · cases h
  · cases h

namespace Engine

variable {e : Engine ω τ} {s : State} {ses : Session ω τ}

/-! ## Asking -/

def stops (e : Engine ω τ) (ses : Session ω τ) : Bool :=
  ses.queries % max e.watchdog.pollEvery 1 == 0 && e.watchdog.shouldStop ses.queries

def asking (e : Engine ω τ) (q : Query) : Run ω τ ExecutionError Bool := do
  Action.update fun ses => { ses with queries := ses.queries + 1 }
  let verdict ← Session.consult (e.oracle.ask q)
  Session.count (·.recordVerdict verdict)
  pure verdict

theorem run_query (q : Query) (ses : Session ω τ) :
    (e.query q).run ses =
      if e.stops ses then (.error .stoppedByWatchdog, ses) else (e.asking q).run ses := by
  unfold query
  rw [run_bind, run_read]
  by_cases h : e.stops ses = true
  · rw [if_pos h]
    exact congrArg (fun m : Run ω τ ExecutionError Bool => m.run ses) (if_pos h)
  · rw [if_neg h]
    exact congrArg (fun m : Run ω τ ExecutionError Bool => m.run ses) (if_neg h)

theorem meets_query {q : Query} {good : Bool → Session ω τ → Prop}
    {bad : ExecutionError → Session ω τ → Prop}
    (hstop : e.stops ses = true → bad .stoppedByWatchdog ses)
    (hask : (e.oracle.ask q).Meets ses.oracle
      (fun v o => good v ⟨o, ses.trail, ses.queries + 1, ses.statistics.recordVerdict v⟩)
      fun d o => bad (.decision d) ⟨o, ses.trail, ses.queries + 1, ses.statistics⟩) :
    (e.query q).Meets ses good bad := by
  have hasking : (e.asking q).Meets ses good bad := by
    simpa only [asking, meets_bind, meets_update, Session.meets_consult, Session.meets_count,
      meets_pure] using hask
  unfold Meets at hasking ⊢
  rw [run_query]
  by_cases h : e.stops ses = true
  · rw [if_pos h]
    exact hstop h
  · rw [if_neg h]
    exact hasking

@[simp] theorem meets_sync {good : Unit → Session ω τ → Prop}
    {bad : ExecutionError → Session ω τ → Prop} :
    (e.sync s).Meets ses good bad ↔
      (e.oracle.set s.pathCondition.clauses).Meets ses.oracle
        (fun _ o => good () { ses with oracle := o })
        fun d o => bad (.decision d) { ses with oracle := o } := by
  simp [sync, Oracle.syncWith]

/-! ## Bodies -/

theorem unresolved?_eq_some {v : Value} {r : RefSymbol} (h : unresolved? s v = some r) :
    v = .reference (.symbolic r) ∧ s.isResolved r = false := by
  unfold unresolved? at h
  split at h
  · rename_i r'
    split at h
    · cases h
    · rename_i hfree
      cases h
      exact ⟨rfl, Bool.eq_false_iff.2 hfree⟩
  · cases h

@[simp] theorem meets_onState (m : State.Update α) {good : α × State → Session ω τ → Prop}
    {bad : Fault → Session ω τ → Prop} :
    (onState s m).Meets ses good bad ↔
      m.Meets s (fun a t => good (a, t) ses) fun error _ => bad (.memory error) ses := by
  unfold onState Meets
  rcases m.run s with ⟨_ | _, _⟩ <;> rfl

theorem meets_checked {r : Except ValueError α} {good : α → Session ω τ → Prop}
    {bad : Fault → Session ω τ → Prop} :
    (checked r).Meets ses good bad ↔
      (∀ a, r = .ok a → good a ses) ∧
        ∀ error, r = .error error → bad (.memory (.value error)) ses :=
  meets_ofExcept_mapError

theorem meets_fetched {r : Except MemoryError α} {good : α → Session ω τ → Prop}
    {bad : Fault → Session ω τ → Prop} :
    (fetched r).Meets ses good bad ↔
      (∀ a, r = .ok a → good a ses) ∧ ∀ error, r = .error error → bad (.memory error) ses :=
  meets_ofExcept_mapError

@[simp] theorem meets_checked_ok (a : α) {good : α → Session ω τ → Prop}
    {bad : Fault → Session ω τ → Prop} :
    (checked (.ok a)).Meets ses good bad ↔ good a ses := Iff.rfl

@[simp] theorem meets_fetched_ok (a : α) {good : α → Session ω τ → Prop}
    {bad : Fault → Session ω τ → Prop} :
    (fetched (.ok a)).Meets ses good bad ↔ good a ses := Iff.rfl

theorem meets_linked {σ : Type} {w : σ} {r : Except ClassError α} {good : α → σ → Prop}
    {bad : Fault → σ → Prop} :
    (ofExcept (r.mapError Fault.linkage)).Meets w good bad ↔
      (∀ a, r = .ok a → good a w) ∧ ∀ error, r = .error error → bad (.linkage error) w :=
  meets_ofExcept_mapError

/-- The state without the topmost operand of its first frame. -/
def popped (s : State) (f : Frame) (below : List Value) (rest : List Frame) : State :=
  s.withFrames ({ f with operands := { f.operands with operands := below } } :: rest)

theorem meets_popInt {good : Term × State → Session ω τ → Prop}
    {bad : Fault → Session ω τ → Prop}
    (hgood : ∀ f rest t below, s.frames = f :: rest → f.operands.operands = .primitive t :: below →
      t.type = .int → good (t, popped s f below rest) ses)
    (hbad : ∀ error : MemoryError, error.isEngineFault = false → bad (.memory error) ses) :
    (popInt s).Meets ses good bad := by
  unfold popInt
  rw [meets_bind, meets_onState]
  refine State.meets_popOperand (fun f rest v below hf hv => ?_) hbad
  rw [meets_bind, meets_checked]
  refine ⟨fun t ht => ?_, fun error _ => hbad _ rfl⟩
  cases v with
  | reference r => cases ht
  | primitive t' =>
    cases ht
    rw [meets_bind, meets_checked]
    refine ⟨fun _ hint => ?_, fun error _ => hbad _ rfl⟩
    unfold expectInt at hint
    split at hint
    · rename_i htype
      exact hgood f rest t below hf hv htype
    · cases hint

theorem meets_popTarget {good : Option Nat × State → Session ω τ → Prop}
    {bad : Fault → Session ω τ → Prop}
    (hgood : ∀ f rest r below target, s.frames = f :: rest →
      f.operands.operands = .reference r :: below → s.deref r = .ok target →
        good (target, popped s f below rest) ses)
    (hderef : ∀ f rest r below error, s.frames = f :: rest →
      f.operands.operands = .reference r :: below → s.deref r = .error error →
        bad (.memory error) ses)
    (hbad : ∀ error : MemoryError, error.isEngineFault = false → bad (.memory error) ses) :
    (popTarget s).Meets ses good bad := by
  unfold popTarget
  rw [meets_bind, meets_onState]
  refine State.meets_popOperand (fun f rest v below hf hv => ?_) hbad
  rw [meets_bind, meets_checked]
  refine ⟨fun r hr => ?_, fun error _ => hbad _ rfl⟩
  cases v with
  | primitive t => cases hr
  | reference r' =>
    cases hr
    rw [meets_bind, meets_fetched]
    exact ⟨fun target htarget => hgood f rest r below target hf hv htarget,
      fun error herror => hderef f rest r below error hf hv herror⟩

theorem meets_popInt_cons {f : Frame} {rest : List Frame} {t : Term} {below : List Value}
    (hframes : s.frames = f :: rest) (hoperands : f.operands.operands = .primitive t :: below)
    (hint : t.type = .int) {good : Term × State → Session ω τ → Prop}
    {bad : Fault → Session ω τ → Prop} :
    (popInt s).Meets ses good bad ↔ good (t, popped s f below rest) ses := by
  have hexpect : expectInt t = .ok () := if_pos hint
  unfold popInt
  rw [meets_bind, meets_onState, State.meets_popOperand_cons hframes hoperands]
  simp only [Value.expectTerm, meets_bind, meets_checked_ok, hexpect, meets_pure]
  rfl

theorem meets_popTarget_cons {f : Frame} {rest : List Frame} {r : Reference}
    {below : List Value} {target : Option Nat} (hframes : s.frames = f :: rest)
    (hoperands : f.operands.operands = .reference r :: below) (htarget : s.deref r = .ok target)
    {good : Option Nat × State → Session ω τ → Prop} {bad : Fault → Session ω τ → Prop} :
    (popTarget s).Meets ses good bad ↔ good (target, popped s f below rest) ses := by
  have hderef : (popped s f below rest).deref r = .ok target := htarget
  unfold popTarget
  rw [meets_bind, meets_onState, State.meets_popOperand_cons hframes hoperands]
  change Meets (checked (Value.expectReference (.reference r)) >>= fun r => _) _ _ _ ↔ _
  simp only [Value.expectReference, meets_bind, meets_checked_ok]
  change Meets (fetched ((popped s f below rest).deref r)) _ _ _ ↔ _
  rw [hderef]
  rfl

theorem getLocal_of_readLocal {slot : Nat} {policy : UnwrittenSlot} {r : RefSymbol}
    (h : readLocal s slot policy = .ok (.reference (.symbolic r))) :
    s.getLocal slot = .ok (.reference (.symbolic r)) := by
  unfold readLocal at h
  split at h
  · rename_i v hv
    cases h
    exact hv
  · split at h
    · split at h
      · cases h
      · split at h
        · -- A default value is a constant or null.
          simp only [Value.default, mapError_eq_ok] at h
          split at h
          · cases h
          · split at h <;> cases h
        · cases h
    · cases h

/-! ## Successors -/

@[simp] theorem meets_updating (m : State.Update α) {good : α → State × Session ω τ → Prop}
    {bad : Fault → State × Session ω τ → Prop} :
    (updating m).Meets (s, ses) good bad ↔
      m.Meets s (fun a t => good a (t, ses)) fun error t => bad (.memory error) (t, ses) := by
  simp [updating]

@[simp] theorem meets_consulting (m : Run ω τ ExecutionError α)
    {good : α → State × Session ω τ → Prop} {bad : Fault → State × Session ω τ → Prop} :
    (consulting m).Meets (s, ses) good bad ↔
      m.Meets ses (fun a ses' => good a (s, ses')) fun x ses' => bad (.execution x) (s, ses') := by
  simp [consulting]

@[simp] theorem meets_triggering (a : Alternative) {good : Bool → State × Session ω τ → Prop}
    {bad : Fault → State × Session ω τ → Prop} :
    (e.triggering a).Meets (s, ses) good bad ↔
      (e.triggers.run a).Meets (s, ses.trail)
        (fun b w => good b (w.1, { ses with trail := w.2 }))
        fun x w => bad (.execution x) (w.1, { ses with trail := w.2 }) := by
  simp [triggering]

/-- Assumes that the length of an input array is not negative, once the successor was read. -/
def assumeLengthIn (e : Engine ω τ) (s : State) (address : Nat) : Refinement ω τ Unit := do
  let a ← Action.ofExcept ((s.getArray address).mapError .memory)
  let nonnegative ← Action.ofExcept ((a.length.mkGe (.ofInt 0)).mapError (.memory ∘ .value))
  consulting (e.sync s)
  let simplified ← consulting (Session.consult (e.oracle.simplify nonnegative))
  updating (State.assume simplified)

theorem run_assumeLength (address : Nat) (w : State × Session ω τ) :
    (e.assumeLength address).run w = (e.assumeLengthIn w.1 address).run w := rfl

theorem meets_assumeLength {address : Nat} {w : State × Session ω τ}
    {good : Unit → State × Session ω τ → Prop} {bad : Fault → State × Session ω τ → Prop} :
    (e.assumeLength address).Meets w good bad ↔
      (e.assumeLengthIn w.1 address).Meets w good bad := Iff.rfl

/-- The engine with another watchdog. -/
def withWatchdog (e : Engine ω τ) (w : Watchdog) : Engine ω τ := { e with watchdog := w }

/-- A successor does not ask the watchdog. -/
theorem refineOne_withWatchdog (w : Watchdog) : (e.withWatchdog w).refineOne = e.refineOne := rfl

theorem run_refineOne (parent : State) (branching : Bool) (offset number : Nat)
    (a : Alternative) (ses : Session ω τ) :
    (e.refineOne parent branching offset number a).run ses =
      match (e.apply { a with branch := number } offset).run
        (successorOf parent branching number, ses) with
      | (.ok _, w) => (.ok w.1, w.2)
      | (.error fault, w) => (fault.settle w.1, w.2) := by
  unfold refineOne run
  split <;> rename_i hrun <;> simp only [hrun]

theorem meets_refineOne {parent : State} {branching : Bool} {offset number : Nat}
    {a : Alternative} {good : State → Session ω τ → Prop}
    {bad : ExecutionError → Session ω τ → Prop}
    (h : (e.apply { a with branch := number } offset).Meets
      (successorOf parent branching number, ses)
      (fun _ w => good w.1 w.2)
      fun fault w =>
        (∀ t, fault.settle w.1 = .ok t → good t w.2) ∧
          ∀ x, fault.settle w.1 = .error x → bad x w.2) :
    (e.refineOne parent branching offset number a).Meets ses good bad := by
  unfold Meets at h ⊢
  rw [run_refineOne]
  split at h
  · rename_i w hw
    rw [hw]
    exact h
  · rename_i fault w hw
    rw [hw]
    cases hsettled : fault.settle w.1 with
    | ok t =>
      simp only [hsettled]
      exact h.1 t hsettled
    | error x =>
      simp only [hsettled]
      exact h.2 x hsettled

@[simp] theorem meets_single {good : List State → Session ω τ → Prop}
    {bad : ExecutionError → Session ω τ → Prop} :
    (single s).Meets ses good bad ↔
      good [s.incSequence] { ses with statistics := ses.statistics.addSuccessors 1 } := Iff.rfl

theorem run_execute (offset : Nat) (body : Body ω τ) (s : State) (ses : Session ω τ) :
    (e.execute offset body s).run ses =
      let result := (body s).run ses
      let successors := (e.conclude s offset result.1).run result.2
      (successors.1.mapError (Located.mk (locationOf s)), successors.2) :=
  Action.run_mapError (Located.mk (locationOf s))
    (fun ses => (e.conclude s offset ((body s).run ses).1).run ((body s).run ses).2) ses

theorem meets_execute {offset : Nat} {body : Body ω τ}
    {good : List State → Session ω τ → Prop}
    {bad : Located ExecutionError → Session ω τ → Prop}
    (h : (body s).Meets ses
      (fun result ses' => (e.conclude s offset (.ok result)).Meets ses' good
        fun x => bad ⟨locationOf s, x⟩)
      fun fault ses' => (e.conclude s offset (.error fault)).Meets ses' good
        fun x => bad ⟨locationOf s, x⟩) :
    (e.execute offset body s).Meets ses good bad := by
  have hconclude : (e.conclude s offset ((body s).run ses).1).Meets ((body s).run ses).2 good
      fun x => bad ⟨locationOf s, x⟩ := by
    unfold Meets at h
    split at h <;> rename_i hrun <;> rw [hrun] <;> exact h
  unfold Meets at hconclude ⊢
  rw [run_execute]
  split at hconclude <;> rename_i hrun <;> simp only [hrun] <;> exact hconclude

/-- A reference is null, or an alias of an input object that fits it, or a fresh object. -/
theorem mem_candidates {t : ClassTable} {r : RefSymbol} {c : Query × Decision} :
    c ∈ candidates t s r ↔ c = (.null r, .null r) ∨
      (∃ a o, s.initialHeap.get a = .ok o ∧ t.isAssignable o.className r.staticType = true ∧
        c = (.aliases r a o, .aliases r a)) ∨
      ∃ n ∈ (t.expansionClasses r.staticType).toOption.getD [],
        c = (.expands r n, .expands r n) := by
  have haliases : c ∈ aliasCandidates t r s.initialHeap.toList ↔
      ∃ a o, s.initialHeap.get a = .ok o ∧ t.isAssignable o.className r.staticType = true ∧
        c = (.aliases r a o, .aliases r a) := by
    constructor
    · intro hc
      obtain ⟨⟨a, o⟩, ho, rfl⟩ := List.mem_map.1 hc
      obtain ⟨hentry, hassignable⟩ := List.mem_filter.1 ho
      exact ⟨a, o, Heap.mem_toList_iff.1 hentry, hassignable, rfl⟩
    · rintro ⟨a, o, ho, hassignable, rfl⟩
      refine List.mem_map.2 ⟨(a, o), List.mem_filter.2 ⟨?_, hassignable⟩, rfl⟩
      exact Heap.mem_toList_iff.2 ho
  have hexpansions : c ∈ expansionCandidates t r ↔
      ∃ n ∈ (t.expansionClasses r.staticType).toOption.getD [],
        c = (.expands r n, .expands r n) := by
    constructor
    · intro hc
      obtain ⟨n, hn, rfl⟩ := List.mem_map.1 hc
      exact ⟨n, hn, rfl⟩
    · rintro ⟨n, hn, rfl⟩
      exact List.mem_map.2 ⟨n, hn, rfl⟩
  unfold candidates
  rw [List.cons_append, List.mem_cons, List.mem_append, haliases, hexpansions]

/-- What is feasible is among the candidates. -/
theorem exists_candidate {c : Query × Decision} {rest : List (Query × Decision)}
    {others : List Decision} {d : Decision} (verdict : Bool)
    (hothers : ∀ d ∈ others, ∃ q, (q, d) ∈ rest)
    (hd : d ∈ if verdict then c.2 :: others else others) : ∃ q, (q, d) ∈ c :: rest := by
  have hrest : d ∈ others → ∃ q, (q, d) ∈ c :: rest := fun hd => by
    obtain ⟨q, hq⟩ := hothers d hd
    exact ⟨q, List.mem_cons_of_mem _ hq⟩
  cases verdict with
  | false => exact hrest hd
  | true =>
    rcases List.mem_cons.1 hd with rfl | hd
    · exact ⟨c.1, List.mem_cons_self⟩
    · exact hrest hd

theorem meets_permissive_set (cs w : List Clause) {bad : DecisionError → List Clause → Prop} :
    (Oracle.permissive.set cs).Meets w (fun _ w' => w' = cs) bad := by
  have hpush : ∀ cs w, (Oracle.pushAll Oracle.permissive.push cs).Meets w
      (fun _ w' => w' = w ++ cs) bad := by
    intro cs
    induction cs with
    | nil => exact fun w => (List.append_nil w).symm
    | cons c rest ih =>
      intro w
      refine (ih (w ++ [c])).mono (fun _ w' hw => ?_) fun _ _ h => h
      rw [hw, List.append_assoc, List.singleton_append]
  change Meets (Oracle.clearAndPush _ _ cs) w _ _
  exact hpush cs []

/-- The engine that holds everything feasible, knows no native method, and is neither stopped nor
triggered. -/
def permissive (t : ClassTable) : Engine (List Clause) Unit :=
  { oracle := .permissive
    classes := t
    triggers := .absent Unit
    natives := .absent
    watchdog := .lazy
    config := .standard }

end Engine

end SymbolicMachine
