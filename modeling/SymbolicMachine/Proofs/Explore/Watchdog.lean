import SymbolicMachine.Proofs.Explore.Interruption
import SymbolicMachine.Proofs.Oracle.Answers
/-!
# A raised flag stops an exploration

The watchdog follows a flag that others raise and lower, at any time, between two calls or while
one of them runs.  From the moment on from which the flag stays raised, no more queries reach the
oracle than are left until the watchdog is looked at again.  The call that would make one more is
stopped, and so is every call after it that needs a query; the others go as they would without a
watchdog.

A moment is told by the number of queries that were made.  A query counts from when it may no
longer be stopped, whether it is answered or fails.
-/
namespace SymbolicMachine

open SymbolicMachine.Action

variable {ω τ : Type}

/-! ## Looks -/

namespace Watchdog

/-- The number of queries after which the watchdog is next looked at, when `n` were made. -/
def nextLook (w : Watchdog) (n : Nat) : Nat :=
  (n + (max w.pollEvery 1 - 1)) / max w.pollEvery 1 * max w.pollEvery 1

variable (w : Watchdog) {n k : Nat}

theorem pollEvery_pos : 0 < max w.pollEvery 1 :=
  Nat.lt_of_lt_of_le Nat.one_pos (Nat.le_max_right _ _)

theorem le_nextLook (n : Nat) : n ≤ w.nextLook n := by
  have hpos := w.pollEvery_pos
  have hlt : n + (max w.pollEvery 1 - 1) < w.nextLook n + max w.pollEvery 1 :=
    Nat.lt_div_mul_add hpos
  omega

theorem nextLook_le (n : Nat) : w.nextLook n ≤ n + (max w.pollEvery 1 - 1) :=
  Nat.div_mul_le_self _ _

theorem nextLook_mod (n : Nat) : w.nextLook n % max w.pollEvery 1 = 0 := Nat.mul_mod_left _ _

/-- The watchdog is not looked at before. -/
theorem nextLook_le_of_mod (hle : n ≤ k) (hk : k % max w.pollEvery 1 = 0) : w.nextLook n ≤ k := by
  have hpos := w.pollEvery_pos
  obtain ⟨j, hj⟩ := Nat.dvd_of_mod_eq_zero hk
  have hlt : n + (max w.pollEvery 1 - 1) < (j + 1) * max w.pollEvery 1 := by
    rw [Nat.succ_mul, Nat.mul_comm, ← hj]
    omega
  have hquotient : (n + (max w.pollEvery 1 - 1)) / max w.pollEvery 1 ≤ j :=
    Nat.le_of_lt_succ ((Nat.div_lt_iff_lt_mul hpos).2 hlt)
  calc w.nextLook n ≤ j * max w.pollEvery 1 := Nat.mul_le_mul_right _ hquotient
    _ = k := by rw [hj, Nat.mul_comm]

end Watchdog

/-! ## Calls under a flag -/

/-- A call of an instruction while a flag is raised and lowered. -/
structure WatchedCall where
  instruction : Instruction
  state : State
  /-- Whether the flag is raised when a number of queries were made. -/
  raised : Nat → Bool

namespace Engine

/-- The engine with the watchdog on a flag. -/
def flagged (e : Engine ω τ) (raised : Nat → Bool) : Engine ω τ :=
  e.withWatchdog ⟨e.watchdog.pollEvery, raised⟩

def respond (e : Engine ω τ) (c : WatchedCall) : Run ω τ (Located ExecutionError) (List State) :=
  (e.flagged c.raised).step c.instruction c.state

/-- Responds to calls one after another.  A call that fails does not keep the next one from being
made. -/
def attend (e : Engine ω τ) (calls : List WatchedCall) :
    Run ω τ Empty (List (Except (Located ExecutionError) (List State))) :=
  Action.forEach (fun c => Action.attempt (e.respond c)) calls

/-- What a call does if no watchdog is there. -/
def respondFreely (e : Engine ω τ) (c : WatchedCall) :
    Run ω τ (Located ExecutionError) (List State) :=
  e.unwatched.step c.instruction c.state

variable {e : Engine ω τ} {ses : Session ω τ} {c : WatchedCall} {n : Nat}

theorem interrupted_respond (e : Engine ω τ) (c : WatchedCall) :
    Interrupted (e.flagged c.raised).watchdog ⟨locationOf c.state, .stoppedByWatchdog⟩
      (e.respond c) (e.respondFreely c) :=
  (e.flagged c.raised).interrupted_step c.instruction c.state

/-- The number of queries does not go down. -/
theorem queries_le_respond (e : Engine ω τ) (c : WatchedCall) (ses : Session ω τ) :
    ses.queries ≤ ((e.respond c).run ses).2.queries := by
  obtain ⟨hle, ⟨-, hsame⟩ | ⟨m, hfirst, -, hcount⟩⟩ := e.interrupted_respond c ses
  · rw [hsame]
    exact hle
  · rw [hcount]
    exact hfirst.le

/-- A call was not stopped before it made as many queries as it made. -/
theorem passes_of_respond (h : n ≤ ((e.respond c).run ses).2.queries) :
    (e.flagged c.raised).watchdog.Passes ses.queries n := by
  obtain ⟨-, ⟨hpasses, hsame⟩ | ⟨m, hfirst, -, hcount⟩⟩ := e.interrupted_respond c ses
  · rw [hsame] at h
    exact hpasses.mono h
  · rw [hcount] at h
    exact hfirst.passes.mono h

/-- Under a flag that is raised from `n` queries on, a call that was not stopped before goes on
until the watchdog is looked at. -/
theorem respond_of_raised (hraised : ∀ k, n ≤ k → c.raised k = true)
    (hpasses : (e.flagged c.raised).watchdog.Passes ses.queries n)
    (hle : ses.queries ≤ e.watchdog.nextLook n) :
    if ((e.respondFreely c).run ses).2.queries ≤ e.watchdog.nextLook n then
      (e.respond c).run ses = (e.respondFreely c).run ses
    else
      ((e.respond c).run ses).1 = .error ⟨locationOf c.state, .stoppedByWatchdog⟩ ∧
        ((e.respond c).run ses).2.queries = e.watchdog.nextLook n := by
  have hstops : (e.flagged c.raised).watchdog.stopsAfter (e.watchdog.nextLook n) = true := by
    have hlook : e.watchdog.nextLook n % max e.watchdog.pollEvery 1 = 0 :=
      e.watchdog.nextLook_mod n
    simp [Watchdog.stopsAfter, flagged, withWatchdog, hlook,
      hraised _ (e.watchdog.le_nextLook n)]
  have huntil : (e.flagged c.raised).watchdog.Passes ses.queries (e.watchdog.nextLook n) := by
    refine hpasses.trans fun k hk hlt => ?_
    cases hlook : (e.flagged c.raised).watchdog.stopsAfter k with
    | false => rfl
    | true =>
      have hmod : k % max e.watchdog.pollEvery 1 = 0 :=
        beq_iff_eq.1 (Bool.and_eq_true_iff.1 hlook).1
      exact absurd (e.watchdog.nextLook_le_of_mod hk hmod) (Nat.not_le_of_lt hlt)
  obtain ⟨-, ⟨hfree, hsame⟩ | ⟨m, hfirst, herror, hcount⟩⟩ := e.interrupted_respond c ses
  · rw [if_pos (hfree.le_of_stops hle hstops)]
    exact hsame
  · have hm : m = e.watchdog.nextLook n :=
      Nat.le_antisymm (hfirst.passes.le_of_stops hle hstops)
        (huntil.le_of_stops hfirst.le hfirst.stops)
    rw [hm] at hfirst hcount
    rw [if_neg (Nat.not_le_of_lt hfirst.lt)]
    exact ⟨herror, hcount⟩

/-! ## Runs -/

/-- The session in which a call of a run is made. -/
def sessionAt (e : Engine ω τ) (calls : List WatchedCall) (ses : Session ω τ) (k : Nat) :
    Session ω τ :=
  ((e.attend (calls.take k)).run ses).2

section Runs

variable {calls rest : List WatchedCall} {k : Nat}

theorem exists_attend (e : Engine ω τ) (calls : List WatchedCall) (ses : Session ω τ) :
    ∃ results, ((e.attend calls).run ses).1 = .ok results ∧ results.length = calls.length ∧
      ∀ k c, calls[k]? = some c →
        results[k]? = some ((e.respond c).run (e.sessionAt calls ses k)).1 ∧
          e.sessionAt calls ses (k + 1) = ((e.respond c).run (e.sessionAt calls ses k)).2 :=
  exists_attempts e.respond calls ses

theorem sessionAt_succ (h : calls[k]? = some c) :
    e.sessionAt calls ses (k + 1) = ((e.respond c).run (e.sessionAt calls ses k)).2 := by
  obtain ⟨results, -, -, hcalls⟩ := e.exists_attend calls ses
  exact (hcalls k c h).2

theorem sessionAt_succ_of_none (h : calls[k]? = none) :
    e.sessionAt calls ses (k + 1) = e.sessionAt calls ses k := by
  have hlength := List.getElem?_eq_none_iff.1 h
  rw [sessionAt, sessionAt, List.take_of_length_le hlength,
    List.take_of_length_le (Nat.le_succ_of_le hlength)]

theorem queries_sessionAt_mono (e : Engine ω τ) (calls : List WatchedCall) (ses : Session ω τ)
    {j k : Nat} (hjk : j ≤ k) :
    (e.sessionAt calls ses j).queries ≤ (e.sessionAt calls ses k).queries := by
  induction hjk with
  | refl => exact Nat.le_refl _
  | step _ ih =>
    rename_i k _
    cases hcall : calls[k]? with
    | none =>
      rw [sessionAt_succ_of_none hcall]
      exact ih
    | some c =>
      rw [sessionAt_succ hcall]
      exact Nat.le_trans ih (e.queries_le_respond c _)

/-- From the first call on in which the flag is raised for good, the sessions stay between the
moment at which it is raised and the next look. -/
theorem queries_sessionAt_of_raised (hbefore : ses.queries ≤ n)
    (hduring : n ≤ ((e.respond c).run ses).2.queries)
    (hraised : ∀ call ∈ c :: rest, ∀ k, n ≤ k → call.raised k = true) (k : Nat) :
    (e.sessionAt (c :: rest) ses k).queries ≤ e.watchdog.nextLook n ∧
      ∀ call, (c :: rest)[k]? = some call →
        (e.flagged call.raised).watchdog.Passes (e.sessionAt (c :: rest) ses k).queries n := by
  have hlook := e.watchdog.le_nextLook n
  induction k with
  | zero =>
    refine ⟨Nat.le_trans hbefore hlook, fun call hcall => ?_⟩
    cases hcall
    exact passes_of_respond hduring
  | succ k ih =>
    refine ⟨?_, fun call _ m hle hlt => ?_⟩
    · cases hcall : (c :: rest)[k]? with
      | none =>
        rw [sessionAt_succ_of_none hcall]
        exact ih.1
      | some call =>
        have hgoes := respond_of_raised (hraised call (List.mem_of_getElem? hcall))
          (ih.2 call hcall) ih.1
        rw [sessionAt_succ hcall]
        split at hgoes
        · rw [hgoes]
          assumption
        · exact Nat.le_of_eq hgoes.2
    · -- The moment came during the first call.
      have hfirst : n ≤ (e.sessionAt (c :: rest) ses 1).queries := by
        rw [sessionAt_succ (k := 0) rfl]
        exact hduring
      have hmono := e.queries_sessionAt_mono (c :: rest) ses (Nat.le_add_left 1 k)
      omega

end Runs

/-! ## Answers -/

section Answers

open Session (Parallel Tallied)

/-- The session after a run from the start, with what the oracle answered. -/
def sessionAfter (e : Engine ω τ) (w : ω) (t : τ) (calls : List WatchedCall) :
    Session (Answered ω) τ :=
  ((e.answering.attend calls).run (.start ⟨w, []⟩ t)).2

/-- How many queries would have reached the oracle after a call that is made without a
watchdog. -/
def wouldAsk (e : Engine ω τ) (c : WatchedCall) (ses : Session (Answered ω) τ) : Nat :=
  ((e.answering.respondFreely c).run ses).2.oracle.asked

/-- A call fails because it was stopped. -/
def IsStopped (e : Engine ω τ) (c : WatchedCall) (ses : Session (Answered ω) τ) : Prop :=
  ((e.answering.respond c).run ses).1 = .error ⟨locationOf c.state, .stoppedByWatchdog⟩

/-- A call goes as it would without a watchdog if no query beyond the `last` ones is needed for
that, and otherwise it is stopped when these were made. -/
def HeldTo (e : Engine ω τ) (last : Nat) (c : WatchedCall) (ses : Session (Answered ω) τ) : Prop :=
  if e.wouldAsk c ses ≤ last then
    (e.answering.respond c).run ses = (e.answering.respondFreely c).run ses
  else e.IsStopped c ses ∧ ((e.answering.respond c).run ses).2.oracle.asked = last

/-- No query reaches the oracle beyond the `last` ones. -/
structure StopsAt (e : Engine ω τ) (last : Nat) (calls : List WatchedCall)
    (ses : Session (Answered ω) τ) : Prop where
  results : ∃ results, ((e.answering.attend calls).run ses).1 = .ok results ∧
    ∀ k c, calls[k]? = some c →
      results[k]? = some ((e.answering.respond c).run (e.answering.sessionAt calls ses k)).1
  asked : ∀ k, (e.answering.sessionAt calls ses k).oracle.asked ≤ last
  held : ∀ k c, calls[k]? = some c → e.HeldTo last c (e.answering.sessionAt calls ses k)
  /-- After a call that would have needed one more, every call is stopped that needs any. -/
  stays : ∀ j k earlier later, j < k → calls[j]? = some earlier → calls[k]? = some later →
    last < e.wouldAsk earlier (e.answering.sessionAt calls ses j) →
      (e.answering.sessionAt calls ses k).oracle.asked <
        e.wouldAsk later (e.answering.sessionAt calls ses k) →
      e.IsStopped later (e.answering.sessionAt calls ses k)

variable {ses : Session (Answered ω) τ} {calls rest : List WatchedCall} {last : Nat}

theorem tallied_attend (e : Engine ω τ) (calls : List WatchedCall) (h : ses.Tallied) :
    ((e.answering.attend calls).run ses).2.Tallied := by
  induction calls generalizing ses with
  | nil => exact h
  | cons c rest ih =>
    have hrest := ih ((e.flagged c.raised).tallied_step c.instruction c.state h)
    rw [attend, run_attempts_cons]
    exact hrest

/-- Keeping the answers changes neither the results of a run nor what is counted. -/
theorem attend_answering (e : Engine ω τ) (calls : List WatchedCall) {plain : Session ω τ}
    (h : Parallel (fun r w => r.inner = w) ses plain) :
    ((e.answering.attend calls).run ses).1 = ((e.attend calls).run plain).1 ∧
      Parallel (fun r w => r.inner = w) ((e.answering.attend calls).run ses).2
        ((e.attend calls).run plain).2 := by
  have hcalls : Couples (Parallel fun r w => r.inner = w) (Parallel fun r w => r.inner = w)
      (Parallel fun r w => r.inner = w) (e.answering.attend calls) (e.attend calls) := by
    refine couples_forEach (fun c => ?_) calls
    have halike := alike_of_follows (e.flagged c.raised) e.oracle.answering_follows
    exact (halike.step c.instruction c.state).attempt
  exact couples_any.1 hcalls ses plain h

/-- Calls that are held to a number of queries stay stopped once one of them is. -/
theorem StopsAt.of_held (hasked : ∀ k, (e.answering.sessionAt calls ses k).oracle.asked ≤ last)
    (hmono : ∀ j k, j ≤ k → (e.answering.sessionAt calls ses j).oracle.asked ≤
      (e.answering.sessionAt calls ses k).oracle.asked)
    (hheld : ∀ k c, calls[k]? = some c → e.HeldTo last c (e.answering.sessionAt calls ses k)) :
    e.StopsAt last calls ses where
  results := by
    obtain ⟨results, hresults, -, hcalls⟩ := e.answering.exists_attend calls ses
    exact ⟨results, hresults, fun k c hc => (hcalls k c hc).1⟩
  asked := hasked
  held := hheld
  stays := by
    intro j k earlier later hjk hearlier hlater hbeyond hneeds
    have hstopped := hheld j earlier hearlier
    rw [HeldTo, if_neg (Nat.not_le_of_lt hbeyond), ← sessionAt_succ hearlier] at hstopped
    have hreached := hmono (j + 1) k hjk
    have hbound := hasked k
    have hover : last < e.wouldAsk later (e.answering.sessionAt calls ses k) := by
      have hlast := hstopped.2
      omega
    have hheldLater := hheld k later hlater
    rw [HeldTo, if_neg (Nat.not_le_of_lt hover)] at hheldLater
    exact hheldLater.1

/-- From the moment on from which the flag stays raised, the calls stop at the next look. -/
theorem stopsAt_nextLook {c : WatchedCall} (h : ses.Tallied) (hbefore : ses.oracle.asked ≤ n)
    (hduring : n ≤ ((e.answering.respond c).run ses).2.oracle.asked)
    (hraised : ∀ call ∈ c :: rest, ∀ k, n ≤ k → call.raised k = true) :
    e.StopsAt (e.watchdog.nextLook n) (c :: rest) ses := by
  have hsessions : ∀ k, (e.answering.sessionAt (c :: rest) ses k).Tallied := fun k =>
    e.tallied_attend _ h
  have hresponse : ∀ (call : WatchedCall) {ses : Session (Answered ω) τ}, ses.Tallied →
      ((e.answering.respond call).run ses).2.Tallied := fun call _ hses =>
    (e.flagged call.raised).tallied_step call.instruction call.state hses
  have hfree : ∀ (call : WatchedCall) {ses : Session (Answered ω) τ}, ses.Tallied →
      ((e.answering.respondFreely call).run ses).2.Tallied := fun call _ hses =>
    e.unwatched.tallied_step call.instruction call.state hses
  rw [← h.queries] at hbefore
  rw [← (hresponse c h).queries] at hduring
  have hruns := queries_sessionAt_of_raised hbefore hduring hraised
  refine .of_held (fun k => ?_) (fun j k hjk => ?_) fun k call hcall => ?_
  · rw [← (hsessions k).queries]
    exact (hruns k).1
  · rw [← (hsessions j).queries, ← (hsessions k).queries]
    exact e.answering.queries_sessionAt_mono (c :: rest) ses hjk
  · have hgoes := respond_of_raised (hraised call (List.mem_of_getElem? hcall))
      ((hruns k).2 call hcall) (hruns k).1
    rw [(hfree call (hsessions k)).queries, (hresponse call (hsessions k)).queries] at hgoes
    exact hgoes

/-- If the flag stays raised from some moment on, in the course of a call or between two calls,
then fewer queries than the polling interval reach the oracle from then on.  The call that would
make the next one is stopped, and so is every later one that needs a query, while the flag is
raised; a call that finds the flag lowered goes as it would without a watchdog.  In any run the
verdicts of the oracle are those that were counted as feasible or infeasible. -/
theorem watchdog_stops_within_interval (e : Engine ω τ) (w : ω) (t : τ) :
    (∀ before c rest n, (e.sessionAfter w t before).oracle.asked ≤ n →
      n ≤ ((e.answering.respond c).run (e.sessionAfter w t before)).2.oracle.asked →
      (∀ call ∈ c :: rest, ∀ k, n ≤ k → call.raised k = true) →
      ∃ last, n ≤ last ∧ last ≤ n + (max e.watchdog.pollEvery 1 - 1) ∧
        e.StopsAt last (c :: rest) (e.sessionAfter w t before)) ∧
      (∀ c ses, (∀ k, c.raised k = false) → (e.respond c).run ses = (e.respondFreely c).run ses) ∧
      ∀ calls, ((e.answering.attend calls).run (.start ⟨w, []⟩ t)).1 =
          ((e.attend calls).run (.start w t)).1 ∧
        Parallel (fun r w => r.inner = w) (e.sessionAfter w t calls)
          ((e.attend calls).run (.start w t)).2 ∧
        (e.sessionAfter w t calls).Tallied := by
  have hstart : (Session.start (⟨w, []⟩ : Answered ω) t).Tallied := ⟨rfl, rfl⟩
  refine ⟨fun before c rest n hbefore hduring hraised => ?_, fun c ses hlowered => ?_,
    fun calls => ?_⟩
  · exact ⟨e.watchdog.nextLook n, e.watchdog.le_nextLook n, e.watchdog.nextLook_le n,
      stopsAt_nextLook (e.tallied_attend before hstart) hbefore hduring hraised⟩
  · obtain ⟨-, ⟨-, hsame⟩ | ⟨n, hfirst, -⟩⟩ := e.interrupted_respond c ses
    · exact hsame
    · have hstops := (Bool.and_eq_true_iff.1 hfirst.stops).2
      exact absurd (hstops.symm.trans (hlowered n)) nofun
  · have hstarts : Parallel (fun (r : Answered ω) w => r.inner = w) (.start ⟨w, []⟩ t)
        (.start w t) := ⟨rfl, rfl, rfl, rfl⟩
    obtain ⟨hresults, hparallel⟩ := e.attend_answering calls hstarts
    exact ⟨hresults, hparallel, e.tallied_attend calls hstart⟩

/-- An engine that looks at the watchdog before every third query. -/
def polling : Engine (List Clause) Unit := (permissive .initial).withWatchdog (.flag false 3)

/-- A load of an array input, which needs two queries. -/
def loadUnder (raised : Nat → Bool) : WatchedCall := ⟨.loadLocal 0 1, arrayRoot, raised⟩

/-- The flag is raised in the course of the second load, after three queries, which is when the
watchdog is looked at: this load is stopped, and so is the next one. -/
theorem loads_are_stopped_by_raised_flag :
    let ses := polling.sessionAfter [] () [loadUnder fun _ => false]
    let second := loadUnder fun k => decide (3 ≤ k)
    let third := loadUnder fun _ => true
    ses.oracle.asked = 2 ∧ ((polling.answering.respond second).run ses).2.oracle.asked = 3 ∧
      (∃ last, 3 ≤ last ∧ last ≤ 3 + 2 ∧ polling.StopsAt last [second, third] ses) ∧
      ((polling.answering.attend [second, third]).run ses).1 =
        .ok [.error ⟨0, .stoppedByWatchdog⟩, .error ⟨0, .stoppedByWatchdog⟩] := by
  have hraised : ∀ call ∈ [loadUnder fun k => decide (3 ≤ k), loadUnder fun _ => true],
      ∀ k, 3 ≤ k → call.raised k = true := by
    simp [loadUnder]
  have hstops := (polling.watchdog_stops_within_interval [] ()).1 [loadUnder fun _ => false]
    (loadUnder fun k => decide (3 ≤ k)) [loadUnder fun _ => true] 3 (by decide +kernel)
    (by decide +kernel) hraised
  exact ⟨rfl, rfl, hstops, rfl⟩

end Answers

end Engine

end SymbolicMachine
