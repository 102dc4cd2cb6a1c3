import SymbolicMachine.Proofs.Explore.Invariants
/-!
# Interrupted steps

The watchdog is looked at before some of the queries of a step, and may stop the step there.  How a
step goes under a watchdog is described by the same step without one: if that makes no query that
the watchdog stops, the two are the same, and otherwise the step fails at the first such query.
-/
namespace SymbolicMachine

open SymbolicMachine.Action

variable {ω τ ε ε' α β : Type}

/-! ## Stopped queries -/

namespace Watchdog

/-- Whether the query is stopped that comes after a number of others. -/
def stopsAfter (w : Watchdog) (n : Nat) : Bool := n % max w.pollEvery 1 == 0 && w.shouldStop n

/-- None of the queries is stopped that take their number from `a` to `b`. -/
def Passes (w : Watchdog) (a b : Nat) : Prop := ∀ n, a ≤ n → n < b → w.stopsAfter n = false

/-- Of the queries that would take their number from `a` to `b`, the one after `n` is the first
that is stopped. -/
structure StopsFirst (w : Watchdog) (a b n : Nat) : Prop where
  le : a ≤ n
  lt : n < b
  stops : w.stopsAfter n = true
  passes : w.Passes a n

variable {w : Watchdog} {a b c n : Nat}

theorem passes_self (w : Watchdog) (a : Nat) : w.Passes a a := by
  intro n hle hlt
  omega

theorem Passes.trans (h : w.Passes a b) (h' : w.Passes b c) : w.Passes a c := by
  intro n hle hlt
  by_cases hn : n < b
  · exact h n hle hn
  · exact h' n (by omega) hlt

theorem Passes.mono (h : w.Passes a c) (hle : b ≤ c) : w.Passes a b :=
  fun n hn hlt => h n hn (by omega)

theorem Passes.le_of_stops (h : w.Passes a b) (hle : a ≤ n) (hstops : w.stopsAfter n = true) :
    b ≤ n := by
  refine Nat.le_of_not_lt fun hlt => ?_
  have hpasses := h n hle hlt
  rw [hstops] at hpasses
  cases hpasses

theorem StopsFirst.mono (h : w.StopsFirst a b n) (hle : b ≤ c) : w.StopsFirst a c n :=
  ⟨h.le, Nat.lt_of_lt_of_le h.lt hle, h.stops, h.passes⟩

theorem StopsFirst.after_passes (h : w.StopsFirst b c n) (hpasses : w.Passes a b) (hle : a ≤ b) :
    w.StopsFirst a c n :=
  ⟨Nat.le_trans hle h.le, h.lt, h.stops, hpasses.trans h.passes⟩

end Watchdog

/-- The first action does what the second one does, unless the watchdog stops one of the queries
that the second one makes: then the first one fails there. -/
def Interrupted (w : Watchdog) (halt : ε) (m m' : Run ω τ ε α) : Prop :=
  ∀ ses, ses.queries ≤ (m'.run ses).2.queries ∧
    ((w.Passes ses.queries (m'.run ses).2.queries ∧ m.run ses = m'.run ses) ∨
      ∃ n, w.StopsFirst ses.queries (m'.run ses).2.queries n ∧
        (m.run ses).1 = .error halt ∧ (m.run ses).2.queries = n)

/-! ## Sequences -/

section Sequences

variable {w : Watchdog} {halt : ε}

/-- An action that makes no query is not interrupted. -/
theorem interrupted_self {m : Run ω τ ε α}
    (h : ∀ n, Couples (Same fun ses : Session ω τ => ses.queries = n)
      (Same fun ses => ses.queries = n) (Same fun ses => ses.queries = n) m m) :
    Interrupted w halt m m := by
  intro ses
  have hqueries : (m.run ses).2.queries = ses.queries :=
    (couples_same_iff.1 (h ses.queries) ses rfl).of_run rfl
  rw [hqueries]
  exact ⟨Nat.le_refl _, .inl ⟨w.passes_self _, rfl⟩⟩

theorem interrupted_pure (a : α) : Interrupted w halt (pure a : Run ω τ ε α) (pure a) :=
  interrupted_self fun _ => couples_pure_self a

theorem interrupted_ofExcept (r : Except ε α) :
    Interrupted w halt (ofExcept r : Run ω τ ε α) (ofExcept r) :=
  interrupted_self fun _ => couples_ofExcept_self r

theorem interrupted_count (f : Statistics → Statistics) :
    Interrupted w halt (Session.count f : Run ω τ ε Unit) (Session.count f) :=
  interrupted_self fun _ => couples_same_iff.2 fun _ h => h

theorem interrupted_consult {x : ExecutionError} (m : Action ω DecisionError α) :
    Interrupted w x (Session.consult m : Run ω τ ExecutionError α) (Session.consult m) := by
  refine interrupted_self fun n => couples_same_iff.2 fun ses hses => ?_
  rw [Session.meets_consult]
  exact meets_iff.2 ⟨fun _ _ _ => hses, fun _ _ _ => hses⟩

theorem Interrupted.bind {m m' : Run ω τ ε α} {k k' : α → Run ω τ ε β}
    (hm : Interrupted w halt m m') (hk : ∀ a, Interrupted w halt (k a) (k' a)) :
    Interrupted w halt (m >>= k) (m' >>= k') := by
  intro ses
  have hgrows : (m'.run ses).2.queries ≤ ((m' >>= k').run ses).2.queries := by
    rcases hrun : m'.run ses with ⟨x | a, t⟩
    · exact Nat.le_of_eq (congrArg (·.2.queries) (run_bind_error hrun k').symm)
    · rw [run_bind_ok hrun]
      exact (hk a t).1
  obtain ⟨hle, ⟨hpasses, hsame⟩ | ⟨n, hfirst, herror, hcount⟩⟩ := hm ses
  · -- The first action is not interrupted, so it is the rest that may be.
    rcases hrun : m'.run ses with ⟨x | a, t⟩
    · rw [run_bind_error hrun, run_bind_error (hsame.trans hrun)]
      rw [hrun] at hle hpasses
      exact ⟨hle, .inl ⟨hpasses, rfl⟩⟩
    · rw [run_bind_ok hrun, run_bind_ok (hsame.trans hrun)]
      rw [hrun] at hle hpasses
      obtain ⟨hle', ⟨hpasses', hsame'⟩ | ⟨n, hfirst, hstopped⟩⟩ := hk a t
      · exact ⟨Nat.le_trans hle hle', .inl ⟨hpasses.trans hpasses', hsame'⟩⟩
      · exact ⟨Nat.le_trans hle hle', .inr ⟨n, hfirst.after_passes hpasses hle, hstopped⟩⟩
  · have hrun : m.run ses = (.error halt, (m.run ses).2) := Prod.ext herror rfl
    rw [run_bind_error hrun]
    exact ⟨Nat.le_trans hle hgrows, .inr ⟨n, hfirst.mono hgrows, rfl, hcount⟩⟩

theorem Interrupted.mapError {m m' : Run ω τ ε α} (h : Interrupted w halt m m') (f : ε → ε') :
    Interrupted w (f halt) (Action.mapError f m) (Action.mapError f m') := by
  intro ses
  obtain ⟨hle, ⟨hpasses, hsame⟩ | ⟨n, hfirst, herror, hcount⟩⟩ := h ses
  · rw [run_mapError, run_mapError, hsame]
    exact ⟨hle, .inl ⟨hpasses, rfl⟩⟩
  · rw [run_mapError, run_mapError, herror]
    exact ⟨hle, .inr ⟨n, hfirst, rfl, hcount⟩⟩

theorem interrupted_onState {halt : Fault} (s : State) (m : State.Update α) :
    Interrupted w halt (Engine.onState s m : Run ω τ Fault (α × State)) (Engine.onState s m) :=
  interrupted_self fun _ => Engine.couples_onState_self s m

end Sequences

namespace Engine

variable (e : Engine ω τ) {w : Watchdog}

/-- The engine with a watchdog that never stops it. -/
def unwatched : Engine ω τ := e.withWatchdog .lazy

/-! ## Queries -/

/-- A query that is made is counted, whether it is answered or fails. -/
theorem queries_asking (q : Query) (ses : Session ω τ) :
    ((e.asking q).run ses).2.queries = ses.queries + 1 := by
  have hcounts : (e.asking q).Meets ses (fun _ after => after.queries = ses.queries + 1)
      fun _ after => after.queries = ses.queries + 1 := by
    rw [asking, meets_bind, meets_update, meets_bind, Session.meets_consult]
    exact meets_iff.2 ⟨fun _ _ _ => rfl, fun _ _ _ => rfl⟩
  exact hcounts.of_run rfl

theorem run_query_unwatched (q : Query) (ses : Session ω τ) :
    (e.unwatched.query q).run ses = (e.asking q).run ses := by
  have hcalm : e.unwatched.stops ses = false := Bool.and_false _
  rw [run_query, hcalm]
  rfl

theorem interrupted_query (q : Query) :
    Interrupted e.watchdog .stoppedByWatchdog (e.query q) (e.unwatched.query q) := by
  intro ses
  rw [run_query_unwatched, run_query, queries_asking]
  refine ⟨Nat.le_succ _, ?_⟩
  cases hstops : e.stops ses with
  | true =>
    exact .inr ⟨ses.queries, ⟨Nat.le_refl _, Nat.lt_succ_self _, hstops, e.watchdog.passes_self _⟩,
      rfl, rfl⟩
  | false =>
    refine .inl ⟨fun n hle hlt => ?_, rfl⟩
    have hn : n = ses.queries := by omega
    rw [hn]
    exact hstops

theorem interrupted_queried (q : Query) :
    Interrupted e.watchdog (.execution .stoppedByWatchdog)
      (Action.mapError Fault.execution (e.query q))
      (Action.mapError Fault.execution (e.unwatched.query q)) :=
  (e.interrupted_query q).mapError _

theorem interrupted_synced (s : State) :
    Interrupted w (.execution .stoppedByWatchdog) (Action.mapError Fault.execution (e.sync s))
      (Action.mapError Fault.execution (e.unwatched.sync s)) :=
  (interrupted_consult (e.oracle.syncWith s)).mapError _

/-! ## Decisions -/

theorem interrupted_feasible (candidates : List (Query × Decision)) :
    Interrupted e.watchdog .stoppedByWatchdog (e.feasible candidates)
      (e.unwatched.feasible candidates) := by
  induction candidates with
  | nil => exact interrupted_pure _
  | cons c rest ih =>
    exact (e.interrupted_query c.1).bind fun _ => ih.bind fun _ => interrupted_pure _

theorem interrupted_referenceAlternatives (s : State) (r : RefSymbol)
    (access : Option ArrayAccess) :
    Interrupted e.watchdog .stoppedByWatchdog (e.referenceAlternatives s r access)
      (e.unwatched.referenceAlternatives s r access) :=
  (e.interrupted_feasible _).bind fun _ => interrupted_pure _

theorem interrupted_decideLoad (s : State) (v : Value) :
    Interrupted e.watchdog .stoppedByWatchdog (e.decideLoad s v) (e.unwatched.decideLoad s v) := by
  refine (interrupted_count _).bind fun _ => ?_
  split
  · exact (interrupted_consult _).bind fun _ => e.interrupted_referenceAlternatives s _ none
  · exact interrupted_pure _

theorem interrupted_memberAlternatives (s : State) (v : Value) (access : ArrayAccess) :
    Interrupted e.watchdog .stoppedByWatchdog (e.memberAlternatives s v access)
      (e.unwatched.memberAlternatives s v access) := by
  unfold memberAlternatives
  split
  · exact (interrupted_consult _).bind fun _ => e.interrupted_referenceAlternatives s _ _
  · exact interrupted_pure _

theorem interrupted_unrecordedMember {halt : Fault} (s : State) (a : ArrayObject) (index : Term) :
    Interrupted w halt (unrecordedMember s a index : Run ω τ Fault ((Value × Bool) × State))
      (unrecordedMember s a index) := by
  unfold unrecordedMember
  split
  · exact (interrupted_onState s _).bind fun _ => interrupted_pure _
  · exact (interrupted_ofExcept _).bind fun _ => interrupted_pure _

theorem interrupted_outcomeAlternatives (s : State) (address : Nat) (a : ArrayObject)
    (index : Term) (outcome : AccessOutcome) :
    Interrupted e.watchdog (.execution .stoppedByWatchdog)
      (e.outcomeAlternatives s address a index outcome)
      (e.unwatched.outcomeAlternatives s address a index outcome) := by
  cases outcome with
  | outOfRange guard => exact interrupted_pure _
  | entry guard v =>
    exact ((e.interrupted_memberAlternatives s v _).mapError _).bind fun _ => interrupted_pure _
  | unknown guard =>
    refine (interrupted_unrecordedMember s a index).bind fun member => ?_
    exact ((e.interrupted_memberAlternatives _ _ _).mapError _).bind fun _ => interrupted_pure _

theorem interrupted_decideOutcomes (address : Nat) (a : ArrayObject) (index : Term)
    (outcomes : List AccessOutcome) (s : State) :
    Interrupted e.watchdog (.execution .stoppedByWatchdog)
      (e.decideOutcomes address a index s outcomes)
      (e.unwatched.decideOutcomes address a index s outcomes) := by
  induction outcomes generalizing s with
  | nil => exact interrupted_pure _
  | cons outcome rest ih =>
    refine (e.interrupted_synced s).bind fun _ => ?_
    refine (e.interrupted_queried _).bind fun verdict => ?_
    cases verdict with
    | false => exact ih s
    | true =>
      refine (e.interrupted_outcomeAlternatives s address a index outcome).bind fun here => ?_
      exact (ih here.1).bind fun _ => interrupted_pure _

theorem interrupted_decideArrayLoad (s : State) (address : Nat) (index : Term) :
    Interrupted e.watchdog (.execution .stoppedByWatchdog) (e.decideArrayLoad s address index)
      (e.unwatched.decideArrayLoad s address index) := by
  refine (interrupted_count _).bind fun _ => (interrupted_ofExcept _).bind fun a => ?_
  refine (interrupted_ofExcept _).bind fun outcomes => ?_
  exact e.interrupted_decideOutcomes address a index outcomes s

/-! ## Instructions -/

theorem interrupted_decided (s : State) (v : Value) :
    Interrupted e.watchdog (.execution .stoppedByWatchdog) (e.decided s v)
      (e.unwatched.decided s v) :=
  ((e.interrupted_decideLoad s v).mapError _).bind fun _ => interrupted_pure _

theorem interrupted_getField (name : String) (s : State) :
    Interrupted e.watchdog (.execution .stoppedByWatchdog) (e.getField name s)
      (e.unwatched.getField name s) := by
  refine (interrupted_self fun _ => couples_popTarget s).bind fun popped => ?_
  obtain ⟨_ | address, t⟩ := popped
  · exact interrupted_pure _
  · refine (interrupted_ofExcept _).bind fun object => (interrupted_ofExcept _).bind fun v => ?_
    exact e.interrupted_decided t v

theorem interrupted_arrayLoad (s : State) :
    Interrupted e.watchdog (.execution .stoppedByWatchdog) (e.arrayLoad s)
      (e.unwatched.arrayLoad s) := by
  refine (interrupted_self fun _ => couples_popInt s).bind fun popped => ?_
  refine (interrupted_self fun _ => couples_popTarget _).bind fun popped' => ?_
  obtain ⟨_ | address, t⟩ := popped'
  · exact interrupted_pure _
  · refine (interrupted_ofExcept _).bind fun object => ?_
    cases object with
    | object i => exact interrupted_ofExcept _
    | array a =>
      exact (e.interrupted_decideArrayLoad t address popped.1).bind fun _ => interrupted_pure _

theorem interrupted_assumed {halt : Fault} (s : State) (m : State.Update Unit) :
    Interrupted w halt
      (do let ((), t) ← onState s m
          pure (some t) : Run ω τ Fault (Option State))
      (do let ((), t) ← onState s m
          pure (some t)) :=
  (interrupted_onState s m).bind fun _ => interrupted_pure _

theorem interrupted_assumeInitialization (s : State) (className : String) :
    Interrupted e.watchdog (.execution .stoppedByWatchdog) (e.assumeInitialization s className)
      (e.unwatched.assumeInitialization s className) := by
  unfold assumeInitialization
  split
  · exact interrupted_pure _
  · refine (e.interrupted_synced s).bind fun _ => ?_
    refine (e.interrupted_queried _).bind fun before => ?_
    cases before with
    | true => exact interrupted_assumed s _
    | false =>
      refine (e.interrupted_queried _).bind fun after => ?_
      cases after with
      | true => exact interrupted_assumed s _
      | false => exact interrupted_pure _

theorem interrupted_newInstance (className : String) (s : State) :
    Interrupted e.watchdog (.execution .stoppedByWatchdog) (e.newInstance className s)
      (e.unwatched.newInstance className s) := by
  refine (interrupted_ofExcept _).bind fun f => (interrupted_ofExcept _).bind fun c => ?_
  split
  · refine (interrupted_ofExcept _).bind fun fields => ?_
    refine (e.interrupted_assumeInitialization s className).bind fun assumed => ?_
    cases assumed with
    | none => exact interrupted_pure _
    | some t => exact (interrupted_onState t _).bind fun _ => interrupted_pure _
  · exact interrupted_pure _

theorem interrupted_forkIf (condition : Term) (fork : Except ExecutionError State) :
    Interrupted e.watchdog (.execution .stoppedByWatchdog) (e.forkIf condition fork)
      (e.unwatched.forkIf condition fork) := by
  refine (e.interrupted_queried _).bind fun verdict => ?_
  cases verdict with
  | true => exact (interrupted_ofExcept _).bind fun _ => interrupted_pure _
  | false => exact interrupted_pure _

theorem interrupted_forkOnLength (s : State) (className : String) (length : Term) (offset : Nat) :
    Interrupted e.watchdog (.execution .stoppedByWatchdog)
      (e.forkOnLength s className length offset)
      (e.unwatched.forkOnLength s className length offset) := by
  refine (interrupted_count _).bind fun _ => ?_
  refine (e.interrupted_synced s).bind fun _ => ?_
  refine (interrupted_ofExcept _).bind fun negative => ?_
  refine (interrupted_ofExcept _).bind fun nonnegative => ?_
  refine (e.interrupted_forkIf negative _).bind fun failing => ?_
  refine (e.interrupted_forkIf nonnegative _).bind fun passing => ?_
  exact (interrupted_count _).bind fun _ => interrupted_pure _

theorem interrupted_newArray (memberType : String) (s : State) :
    Interrupted e.watchdog (.execution .stoppedByWatchdog) (e.newArray memberType s)
      (e.unwatched.newArray memberType s) := by
  refine (interrupted_self fun _ => couples_popInt s).bind fun popped => ?_
  dsimp only
  split
  · split
    · exact interrupted_pure _
    · exact (interrupted_onState _ _).bind fun _ => interrupted_pure _
  · exact e.interrupted_forkOnLength _ _ _ _

theorem interrupted_invokeNative (method : MethodSignature) (isStatic : Bool) (offset : Nat)
    (s : State) :
    Interrupted e.watchdog (.execution .stoppedByWatchdog)
      (e.invokeNative method isStatic offset s)
      (e.unwatched.invokeNative method isStatic offset s) := by
  refine (interrupted_ofExcept _).bind fun parameters => ?_
  refine (interrupted_self fun _ => couples_popArguments s _ _).bind fun args => ?_
  refine (interrupted_ofExcept _).bind fun result => ?_
  exact (interrupted_onState _ _).bind fun _ => interrupted_pure _

theorem interrupted_body (i : Instruction) (s : State) :
    Interrupted e.watchdog (.execution .stoppedByWatchdog) (e.body i s)
      (e.unwatched.body i s) := by
  cases i with
  | loadLocal slot length =>
    exact (interrupted_ofExcept _).bind fun v => e.interrupted_decided s v
  | getField name => exact e.interrupted_getField name s
  | arrayLoad => exact e.interrupted_arrayLoad s
  | newInstance className => exact e.interrupted_newInstance className s
  | newArray memberType => exact e.interrupted_newArray memberType s
  | invokeNative method isStatic length => exact e.interrupted_invokeNative method isStatic length s
  | invokeIsExplored => exact interrupted_self fun _ => couples_invokeIsExplored s

/-! ## Steps -/

theorem refineFrom_withWatchdog (parent : State) (branching : Bool) (offset number : Nat)
    (alternatives : List Alternative) :
    (e.withWatchdog w).refineFrom parent branching offset number alternatives =
      e.refineFrom parent branching offset number alternatives := by
  induction alternatives generalizing number with
  | nil => rfl
  | cons a rest ih => simp only [refineFrom, refineOne_withWatchdog, ih]

theorem conclude_withWatchdog (s : State) (offset : Nat) (result : Except Fault StepResult) :
    (e.withWatchdog w).conclude s offset result = e.conclude s offset result := by
  match result with
  | .ok (.decided working alternatives) =>
    exact e.refineFrom_withWatchdog working _ offset 1 alternatives
  | .ok (.forked _) => rfl
  | .ok (.done _) => rfl
  | .error _ => rfl

/-- The successors are made without a query: they are the same if every query is stopped. -/
theorem queries_conclude (s : State) (offset : Nat) (result : Except Fault StepResult)
    (ses : Session ω τ) :
    ((e.conclude s offset result).run ses).2.queries = ses.queries := by
  have hkeeps : (e.withWatchdog (.flag true 1)).Keeps fun after => after.queries = ses.queries := by
    refine .of_counters (J := fun n _ => n = ses.queries) (fun h => h) fun q after hafter => ?_
    have hstops : (e.withWatchdog (.flag true 1)).stops after = true := by
      simp [stops, withWatchdog, Watchdog.flag, Nat.mod_one]
    unfold Meets
    rw [run_query, if_pos hstops]
    exact hafter
  have hconclude := (hkeeps.alike fun _ _ h => h).conclude s offset result
  rw [conclude_withWatchdog] at hconclude
  exact (couples_same_iff.1 hconclude ses rfl).of_run rfl

/-- A step does what it does without a watchdog, unless one of the queries is stopped that it then
makes: the step fails there. -/
theorem interrupted_step (i : Instruction) (s : State) :
    Interrupted e.watchdog ⟨locationOf s, .stoppedByWatchdog⟩ (e.step i s)
      (e.unwatched.step i s) := by
  intro ses
  have hcalm : (e.unwatched.step i s).run ses =
      let result := (e.unwatched.body i s).run ses
      let successors := (e.conclude s i.length result.1).run result.2
      (successors.1.mapError (Located.mk (locationOf s)), successors.2) := by
    simp only [step, run_execute, unwatched, conclude_withWatchdog]
  have hqueries : ((e.unwatched.step i s).run ses).2.queries =
      ((e.unwatched.body i s).run ses).2.queries := by
    rw [hcalm]
    exact e.queries_conclude s i.length _ _
  rw [hqueries]
  obtain ⟨hle, ⟨hpasses, hsame⟩ | ⟨n, hfirst, herror, hcount⟩⟩ := e.interrupted_body i s ses
  · refine ⟨hle, .inl ⟨hpasses, ?_⟩⟩
    rw [hcalm, step, run_execute, hsame]
  · refine ⟨hle, .inr ⟨n, hfirst, ?_⟩⟩
    rw [step, run_execute]
    dsimp only
    rw [herror]
    exact ⟨rfl, hcount⟩

end Engine

end SymbolicMachine
