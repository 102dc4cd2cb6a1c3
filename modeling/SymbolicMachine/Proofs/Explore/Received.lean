import SymbolicMachine.Proofs.Explore.Invariants
import SymbolicMachine.Proofs.Oracle.Transparency
/-!
# Successors that are counted

A step that succeeds counts the successors that it gives.  One that fails gives none, and counts
none either unless it fails while it makes the successors for the alternatives of a decision: they
are counted one by one, so those that were made before the failing one stay counted.
-/
namespace SymbolicMachine

open SymbolicMachine.Action

variable {ω τ ε α β : Type}

/-- How many successors the session counted. -/
def Session.made (ses : Session ω τ) : Nat := ses.statistics.successors

/-- How many successors a body made itself. -/
def StepResult.forkCount : StepResult → Nat
  | .forked successors => successors.length
  | .decided _ _ => 0
  | .done _ => 0

namespace Engine

variable {e : Engine ω τ} {s : State} {ses : Session ω τ}

/-! ## Bodies -/

/-- Whatever is decided, no successors are counted for it. -/
theorem keeps_made (e : Engine ω τ) (n : Nat) : e.Keeps fun ses => ses.made = n := by
  refine .of_counters (J := fun _ a => a.successors = n) (fun h => h) ?_
  intro q ses hses
  refine meets_query (fun _ => hses) (meets_iff.2 ⟨fun v _ _ => ?_, fun _ _ _ => hses⟩)
  cases v <;> exact hses

/-- A sequence whose first action keeps an invariant goes on from there. -/
theorem meets_bind_of_keeps {σ : Type} {P : σ → Prop} {m : Action σ ε α} {k : α → Action σ ε β}
    {w : σ} {good : β → σ → Prop} (hm : Couples (Same P) (Same P) (Same P) m m) (hw : P w)
    (hk : ∀ a w', P w' → (k a).Meets w' good fun _ => P) :
    (m >>= k).Meets w good fun _ => P := by
  rw [meets_bind]
  exact (couples_same_iff.1 hm w hw).mono hk fun _ _ h => h

/-- The actions that give no forks. -/
def Unforked (m : Run ω τ Fault StepResult) : Prop :=
  ∀ ses, m.Meets ses (fun r _ => r.forkCount = 0) fun _ _ => True

theorem unforked_pure {r : StepResult} (h : r.forkCount = 0) :
    Unforked (pure r : Run ω τ Fault StepResult) := fun _ => h

theorem unforked_bind {m : Run ω τ Fault α} {k : α → Run ω τ Fault StepResult}
    (h : ∀ a, Unforked (k a)) : Unforked (m >>= k) := by
  intro ses
  rw [meets_bind]
  exact meets_iff.2 ⟨fun a t _ => h a t, fun _ _ _ => trivial⟩

theorem unforked_decided (e : Engine ω τ) (s : State) (v : Value) : Unforked (e.decided s v) :=
  unforked_bind fun _ => unforked_pure rfl

theorem unforked_thrown (s : State) (className : String) :
    Unforked (thrown s className : Run ω τ Fault StepResult) := unforked_pure rfl

theorem unforked_getField (e : Engine ω τ) (name : String) (s : State) :
    Unforked (e.getField name s) := by
  refine unforked_bind fun popped => ?_
  obtain ⟨_ | address, t⟩ := popped
  · exact unforked_thrown t _
  · exact unforked_bind fun _ => unforked_bind fun _ => unforked_decided e t _

theorem unforked_arrayLoad (e : Engine ω τ) (s : State) : Unforked (e.arrayLoad s) := by
  refine unforked_bind fun popped => unforked_bind fun popped' => ?_
  obtain ⟨_ | address, t⟩ := popped'
  · exact unforked_thrown t _
  · refine unforked_bind fun object => ?_
    cases object with
    | object i => exact fun _ => trivial
    | array a => exact unforked_bind fun _ => unforked_pure rfl

theorem unforked_newInstance (e : Engine ω τ) (className : String) (s : State) :
    Unforked (e.newInstance className s) := by
  refine unforked_bind fun f => unforked_bind fun c => ?_
  split
  · refine unforked_bind fun fields => unforked_bind fun assumed => ?_
    cases assumed with
    | none => exact unforked_pure rfl
    | some t => exact unforked_bind fun _ => unforked_pure rfl
  · exact unforked_thrown s _

/-- A body counts the forks that it makes itself, and nothing if it fails. -/
def CountsForks (m : Run ω τ Fault StepResult) : Prop :=
  ∀ ses, m.Meets ses (fun r ses' => ses'.made = ses.made + r.forkCount)
    fun _ ses' => ses'.made = ses.made

theorem Unforked.countsForks {m : Run ω τ Fault StepResult} (h : Unforked m)
    (hm : ∀ n, Couples (Same fun ses : Session ω τ => ses.made = n)
      (Same fun ses => ses.made = n) (Same fun ses => ses.made = n) m m) : CountsForks m := by
  intro ses
  have hmade := couples_same_iff.1 (hm ses.made) ses rfl
  refine (hmade.and (h ses)).mono (fun r ses' hr => ?_) fun _ _ hr => hr.1
  rw [hr.1, hr.2, Nat.add_zero]

theorem countsForks_forkOnLength (e : Engine ω τ) (s : State) (className : String) (length : Term)
    (offset : Nat) : CountsForks (e.forkOnLength s className length offset) := by
  intro ses
  have h := (e.keeps_made ses.made).attuned
  refine meets_bind_of_keeps h.countingDecision rfl fun _ ses₁ h₁ => ?_
  refine meets_bind_of_keeps ((h.sync s).mapError _) h₁ fun _ ses₂ h₂ => ?_
  refine meets_bind_of_keeps (couples_checked _) h₂ fun negative ses₃ h₃ => ?_
  refine meets_bind_of_keeps (couples_checked _) h₃ fun nonnegative ses₄ h₄ => ?_
  refine meets_bind_of_keeps (h.forkIf _ _) h₄ fun failing ses₅ h₅ => ?_
  refine meets_bind_of_keeps (h.forkIf _ _) h₅ fun passing ses₆ h₆ => ?_
  exact congrArg (· + _) h₆

theorem countsForks_newArray (e : Engine ω τ) (memberType : String) (s : State) :
    CountsForks (e.newArray memberType s) := by
  intro ses
  have hpop : Couples (Same fun ses' : Session ω τ => ses'.made = ses.made)
      (Same fun ses' => ses'.made = ses.made) (Same fun ses' => ses'.made = ses.made)
      (popInt s) (popInt s) := couples_popInt s
  refine meets_bind_of_keeps hpop rfl fun popped ses₁ h₁ => ?_
  cases hc : popped.1.constant? with
  | some c =>
    simp only [hc]
    split
    · exact h₁
    · exact meets_bind_of_keeps (couples_onState_self _ _) h₁ fun _ _ h₂ => h₂
  | none =>
    have hforks := countsForks_forkOnLength e popped.2 ("[" ++ memberType) popped.1
      (newArrayLength memberType) ses₁
    rw [h₁] at hforks
    simpa only [hc] using hforks

theorem countsForks_body (e : Engine ω τ) (i : Instruction) (s : State) :
    CountsForks (e.body i s) := by
  have h := fun n => (e.keeps_made n).attuned
  cases i with
  | loadLocal slot length =>
    have hdecided : Unforked (e.loadLocal slot s) := unforked_bind fun _ => unforked_decided e s _
    exact hdecided.countsForks fun n => (h n).loadLocal slot s
  | getField name => exact (unforked_getField e name s).countsForks fun n => (h n).getField name s
  | arrayLoad => exact (unforked_arrayLoad e s).countsForks fun n => (h n).arrayLoad s
  | newInstance className =>
    exact (unforked_newInstance e className s).countsForks fun n => (h n).newInstance className s
  | newArray memberType => exact countsForks_newArray e memberType s
  | invokeNative method isStatic length =>
    have hdone : Unforked (e.invokeNative method isStatic length s) :=
      unforked_bind fun _ => unforked_bind fun _ => unforked_bind fun _ => unforked_bind fun _ =>
        unforked_pure rfl
    exact hdone.countsForks fun n => (h n).invokeNative method isStatic length s
  | invokeIsExplored =>
    have hdone : Unforked (invokeIsExplored s : Run ω τ Fault StepResult) :=
      unforked_bind fun _ => unforked_pure rfl
    exact hdone.countsForks fun _ => couples_invokeIsExplored s

/-! ## Successors -/

/-- Making the successors for the alternatives fails at the one behind the first `n`, for which
successors were made. -/
def FailsBehind (e : Engine ω τ) (parent : State) (branching : Bool) (offset number : Nat)
    (alternatives : List Alternative) (n : Nat) (ses : Session ω τ) (x : ExecutionError)
    (after : Session ω τ) : Prop :=
  ∃ a successors between, alternatives[n]? = some a ∧
    (e.refineFrom parent branching offset number (alternatives.take n)).run ses =
      (.ok successors, between) ∧
    (e.refineOne parent branching offset (number + n) a).run between = (.error x, after)

/-- The rest of the alternatives after one for which a successor was made. -/
theorem run_refineFrom_cons {parent : State} {branching : Bool} {offset number : Nat}
    {a : Alternative} {t : State} {between : Session ω τ}
    (h : (e.refineOne parent branching offset number a).run ses = (.ok t, between))
    (rest : List Alternative) :
    (e.refineFrom parent branching offset number (a :: rest)).run ses =
      ((e.refineFrom parent branching offset (number + 1) rest) >>= fun others =>
        pure (t :: others)).run
          { between with statistics := between.statistics.addSuccessors 1 } := by
  rw [refineFrom, run_bind_ok h]
  rfl

theorem counts_refineFrom (e : Engine ω τ) (parent : State) (branching : Bool)
    (offset number : Nat) (alternatives : List Alternative) (ses : Session ω τ) :
    (e.refineFrom parent branching offset number alternatives).Meets ses
      (fun successors after => after.made = ses.made + successors.length)
      fun x after => ∃ n, e.FailsBehind parent branching offset number alternatives n ses x after ∧
        after.made = ses.made + n := by
  induction alternatives generalizing number ses with
  | nil => exact rfl
  | cons a rest ih =>
    have hone := couples_same_iff.1
      ((e.keeps_made ses.made).attuned.refineOne parent branching offset number a) ses rfl
    cases hrun : (e.refineOne parent branching offset number a).run ses with
    | mk result between =>
    cases result with
    | error x =>
      have hfail : (e.refineFrom parent branching offset number (a :: rest)).run ses =
          (.error x, between) := by
        rw [refineFrom]
        exact run_bind_error hrun _
      have hbehind : e.FailsBehind parent branching offset number (a :: rest) 0 ses x between :=
        ⟨a, [], ses, rfl, rfl, hrun⟩
      unfold Meets
      rw [hfail]
      exact ⟨0, hbehind, hone.of_error hrun⟩
    | ok t =>
      have hmade : between.made = ses.made := hone.of_ok hrun
      have hrest := ih (number + 1)
        { between with statistics := between.statistics.addSuccessors 1 }
      unfold Meets
      rw [run_refineFrom_cons hrun rest]
      change Meets _ _ _ _
      rw [meets_bind]
      refine hrest.mono (fun others after hafter => ?_) fun x after hafter => ?_
      · change after.made = between.made + 1 + others.length at hafter
        change after.made = ses.made + (others.length + 1)
        omega
      · obtain ⟨n, ⟨b, successors, last, hb, hbefore, hlast⟩, hcount⟩ := hafter
        change after.made = between.made + 1 + n at hcount
        refine ⟨n + 1, ⟨b, t :: successors, last, hb, ?_, ?_⟩, by omega⟩
        · rw [List.take_succ_cons, run_refineFrom_cons hrun, run_bind_ok hbefore]
          rfl
        · rw [← hlast, Nat.add_right_comm, Nat.add_assoc]

/-- A step fails while it makes the successors for the alternatives of a decision, after it has
made `n` of them. -/
def Drops (e : Engine ω τ) (i : Instruction) (s : State) (n : Nat) (ses : Session ω τ)
    (x : ExecutionError) (after : Session ω τ) : Prop :=
  ∃ working alternatives between,
    (e.body i s).run ses = (.ok (.decided working alternatives), between) ∧
      e.FailsBehind working (decide (1 < alternatives.length)) i.length 1 alternatives n between x
        after

/-- A step counts what it gives.  If its body fails it counts nothing, and otherwise it fails at an
alternative and counts what it made before. -/
theorem counts_step (e : Engine ω τ) (i : Instruction) (s : State) (ses : Session ω τ) :
    (e.step i s).Meets ses (fun successors after => after.made = ses.made + successors.length)
      fun x after => (after.made = ses.made ∧ ∃ fault, ((e.body i s).run ses).1 = .error fault) ∨
        ∃ n, e.Drops i s n ses x.cause after ∧ after.made = ses.made + n := by
  have hbody := countsForks_body e i s ses
  refine meets_execute (meets_iff.2 ⟨fun r between hrun => ?_, fun fault between hrun => ?_⟩)
  · have hmade := hbody.of_ok hrun
    cases r with
    | decided working alternatives =>
      have hrefine := counts_refineFrom e working (decide (1 < alternatives.length)) i.length 1
        alternatives between
      change between.made = ses.made at hmade
      rw [hmade] at hrefine
      refine hrefine.mono (fun _ _ h => h) fun x after h => .inr ?_
      obtain ⟨n, hbehind, hcount⟩ := h
      exact ⟨n, ⟨working, alternatives, between, hrun, hbehind⟩, hcount⟩
    | forked successors => exact hmade
    | done working => exact congrArg (· + 1) hmade
  · have hmade := hbody.of_error hrun
    have hfault : ((e.body i s).run ses).1 = .error fault := congrArg Prod.fst hrun
    rw [conclude, meets_bind, meets_ofExcept]
    exact ⟨fun _ _ => congrArg (· + 1) hmade, fun _ _ => .inl ⟨hmade, fault, hfault⟩⟩

/-! ## Runs -/

def total (counts : List Nat) : Nat := counts.foldr (· + ·) 0

/-- How many states the calls of a run gave. -/
def received (results : List (Except (Located ExecutionError) (List State))) : Nat :=
  total (results.map fun result => (result.toOption.getD []).length)

/-- What the calls of a run gave, and how many successors each of them made and did not give. -/
structure Account (e : Engine ω τ) (calls : List (Instruction × State)) (ses : Session ω τ)
    (results : List (Except (Located ExecutionError) (List State))) (dropped : List Nat) :
    Prop where
  outcomes : ((e.handle calls).run ses).1 = .ok results
  length_results : results.length = calls.length
  length_dropped : dropped.length = calls.length
  made : ((e.handle calls).run ses).2.made = ses.made + received results + total dropped
  /-- Only a call that fails at an alternative drops something. -/
  drops : ∀ k i s n, calls[k]? = some (i, s) → dropped[k]? = some n → n ≠ 0 →
    ∃ x after, results[k]? = some (.error x) ∧
      e.Drops i s n ((e.handle (calls.take k)).run ses).2 x.cause after

theorem run_handle_cons (e : Engine ω τ) (i : Instruction) (s : State)
    (rest : List (Instruction × State)) (ses : Session ω τ) :
    (e.handle ((i, s) :: rest)).run ses =
      let others := (e.handle rest).run ((e.step i s).run ses).2
      (others.1.map (((e.step i s).run ses).1 :: ·), others.2) :=
  run_attempts_cons (fun c : Instruction × State => e.step c.1 c.2) (i, s) rest ses

/-- A run counts what its calls gave, and what the failing ones had made for a decision. -/
theorem counts_handle (e : Engine ω τ) (calls : List (Instruction × State)) (ses : Session ω τ) :
    ∃ results dropped, e.Account calls ses results dropped := by
  induction calls generalizing ses with
  | nil => exact ⟨[], [], rfl, rfl, rfl, rfl, nofun⟩
  | cons call rest ih =>
    obtain ⟨i, s⟩ := call
    obtain ⟨results, dropped, hrest⟩ := ih ((e.step i s).run ses).2
    have hmade := hrest.made
    have hstep := counts_step e i s ses
    have hrun := run_handle_cons e i s rest ses
    dsimp only at hrun
    rw [hrest.outcomes] at hrun
    -- What the first call dropped: nothing, unless it failed at an alternative.
    obtain ⟨n, hn, hdrops⟩ : ∃ n,
        ((e.step i s).run ses).2.made = ses.made + received [((e.step i s).run ses).1] + n ∧
          (n ≠ 0 → ∃ x after, ((e.step i s).run ses).1 = .error x ∧
            e.Drops i s n ses x.cause after) := by
      unfold Meets at hstep
      rcases hrunStep : (e.step i s).run ses with ⟨x | successors, after⟩ <;>
        simp only [hrunStep] at hstep ⊢
      · rcases hstep with ⟨hsame, -⟩ | ⟨n, hn, hcount⟩
        · exact ⟨0, hsame, fun h => absurd rfl h⟩
        · exact ⟨n, hcount, fun _ => ⟨x, after, rfl, hn⟩⟩
      · exact ⟨0, hstep, fun h => absurd rfl h⟩
    refine ⟨((e.step i s).run ses).1 :: results, n :: dropped, ?_, ?_, ?_, ?_, ?_⟩
    · rw [hrun]
      rfl
    · exact congrArg (· + 1) hrest.length_results
    · exact congrArg (· + 1) hrest.length_dropped
    · rw [hrun]
      simp only [received, total, List.map_cons, List.map_nil, List.foldr_cons,
        List.foldr_nil] at hmade hn ⊢
      omega
    · intro k i' s' n' hcall hn' hne
      cases k with
      | zero =>
        cases hcall
        cases hn'
        obtain ⟨x, after, hx, hdrop⟩ := hdrops hne
        exact ⟨x, after, congrArg some hx, hdrop⟩
      | succ k =>
        obtain ⟨x, after, hx, hdrop⟩ := hrest.drops k i' s' n' hcall hn' hne
        rw [List.take_succ_cons, run_handle_cons]
        exact ⟨x, after, hx, hdrop⟩

/-- A call that succeeds counts the states that it gives.  One that fails counts nothing, or the
successors it had made for a decision before the alternative it fails at; these are all that a run
counts beside the states that its calls gave. -/
theorem successors_are_received_or_dropped (e : Engine ω τ) :
    (∀ i s ses, (e.step i s).Meets ses
      (fun successors after => after.made = ses.made + successors.length)
      fun x after => (after.made = ses.made ∧ ∃ fault, ((e.body i s).run ses).1 = .error fault) ∨
        ∃ n, e.Drops i s n ses x.cause after ∧ after.made = ses.made + n) ∧
      ∀ calls ses, ∃ results dropped, e.Account calls ses results dropped :=
  ⟨counts_step e, counts_handle e⟩

/-- The successor for null is made, and then the oracle fails on the length of the array that the
reference may denote: the call gives nothing and counts a successor. -/
theorem abandoned_successor_is_counted :
    let silent : Oracle (List Clause) :=
      { Oracle.permissive with simplify := fun _ => Action.fail .timeout }
    let e : Engine (List Clause) Unit := { permissive .initial with oracle := silent }
    let ses : Session (List Clause) Unit := .start [] ()
    let outcome := (e.step (.loadLocal 0 1) arrayRoot).run ses
    outcome.1 = .error ⟨0, .decision .timeout⟩ ∧ ses.made = 0 ∧ outcome.2.made = 1 :=
  ⟨rfl, rfl, rfl⟩

end Engine

end SymbolicMachine
