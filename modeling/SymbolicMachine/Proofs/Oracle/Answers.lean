import SymbolicMachine.Proofs.Explore.Invariants
import SymbolicMachine.Proofs.Oracle.Transparency
/-!
# What an oracle answered

A wrapped oracle keeps what it answered to every query that reached it, or why it gave no answer.
It is used as the oracle inside is, and what a session counts is told by its answers: the number
of queries is the number of all of them, and each verdict was counted as feasible or infeasible.
-/
namespace SymbolicMachine

open SymbolicMachine.Action

variable {ω τ α : Type}

/-- The state of an oracle whose answers are kept. -/
structure Answered (ω : Type) where
  inner : ω
  /-- The answers to the queries so far, or why there was none, latest first. -/
  answers : List (Except DecisionError Bool)

namespace Answered

def within (m : Action ω DecisionError α) : Action (Answered ω) DecisionError α :=
  Action.onPart inner (fun w r => { r with inner := w }) m

/-- Keeps the answer beside giving it. -/
def keeping (m : Action ω DecisionError Bool) : Action (Answered ω) DecisionError Bool := fun r =>
  let (answer, w) := m r.inner
  (answer, ⟨w, answer :: r.answers⟩)

/-- How many queries reached the oracle. -/
def asked (r : Answered ω) : Nat := r.answers.length

/-- How many of them it returned a verdict on. -/
def verdicts (r : Answered ω) : Nat := r.answers.countP (·.isOk)

variable {r : Answered ω}

@[simp] theorem meets_within (m : Action ω DecisionError α) {good : α → Answered ω → Prop}
    {bad : DecisionError → Answered ω → Prop} :
    (within m).Meets r good bad ↔
      m.Meets r.inner (fun a w => good a ⟨w, r.answers⟩) fun d w => bad d ⟨w, r.answers⟩ := by
  simp [within]

@[simp] theorem meets_keeping (m : Action ω DecisionError Bool) {good : Bool → Answered ω → Prop}
    {bad : DecisionError → Answered ω → Prop} :
    (keeping m).Meets r good bad ↔
      m.Meets r.inner (fun v w => good v ⟨w, .ok v :: r.answers⟩)
        fun d w => bad d ⟨w, .error d :: r.answers⟩ := by
  have hrun : (keeping m).run r =
      ((m.run r.inner).1, ⟨(m.run r.inner).2, (m.run r.inner).1 :: r.answers⟩) := rfl
  unfold Meets
  rw [hrun]
  rcases m.run r.inner with ⟨d | v, w⟩
  · rfl
  · rfl

end Answered

/-- An oracle that keeps its answers. -/
def Oracle.answering (o : Oracle ω) : Oracle (Answered ω) :=
  { push := fun c => Answered.within (o.push c)
    clear := Answered.within o.clear
    set := fun cs => Answered.within (o.set cs)
    assumptions := fun r => o.assumptions r.inner
    ask := fun q => Answered.keeping (o.ask q)
    simplify := fun t => Answered.within (o.simplify t) }

/-- Keeping the answers changes nothing about the oracle. -/
theorem Oracle.answering_follows (o : Oracle ω) :
    o.answering.Follows (fun r w => r.inner = w) o := by
  have hwithin : ∀ {α : Type} (m : Action ω DecisionError α),
      Couples (fun (r : Answered ω) w => r.inner = w) (fun r w => r.inner = w)
        (fun r w => r.inner = w) (Answered.within m) m := by
    intro α m
    refine couples_any.2 fun r w hr => ?_
    cases hr
    exact ⟨rfl, rfl⟩
  exact
    { push := fun _ => hwithin _
      clear := hwithin _
      set := fun _ => hwithin _
      assumptions := fun _ _ hr => congrArg o.assumptions hr
      ask := fun q => by
        refine couples_any.2 fun r w hr => ?_
        cases hr
        exact ⟨rfl, rfl⟩
      simplify := fun _ => hwithin _ }

/-- A verdict is counted one way or the other. -/
theorem Statistics.recordVerdict_counts (verdict : Bool) (a : Statistics) :
    (a.recordVerdict verdict).feasible + (a.recordVerdict verdict).infeasible =
      a.feasible + a.infeasible + 1 := by
  cases verdict with
  | true => exact Nat.add_right_comm _ _ _
  | false => rfl

/-- The session counted the queries and the verdicts that the oracle has answers for. -/
structure Session.Tallied (ses : Session (Answered ω) τ) : Prop where
  queries : ses.queries = ses.oracle.asked
  verdicts : ses.statistics.feasible + ses.statistics.infeasible = ses.oracle.verdicts

namespace Engine

open Session (Tallied)

def answering (e : Engine ω τ) : Engine (Answered ω) τ := e.withOracle e.oracle.answering

theorem tallied_query (e : Engine ω τ) (q : Query) {ses : Session (Answered ω) τ}
    (h : ses.Tallied) :
    (e.answering.query q).Meets ses (fun _ => Tallied) fun _ => Tallied := by
  have hqueries : ses.queries + 1 = ses.oracle.asked + 1 := congrArg (· + 1) h.queries
  refine meets_query (fun _ => h) ((Answered.meets_keeping _).2 (meets_iff.2 ⟨?_, ?_⟩))
  · intro v w _
    refine ⟨hqueries, ?_⟩
    have hkept : (⟨w, .ok v :: ses.oracle.answers⟩ : Answered ω).verdicts =
        ses.oracle.verdicts + 1 := List.countP_cons_of_pos rfl
    rw [hkept, ← h.verdicts]
    exact Statistics.recordVerdict_counts v ses.statistics
  · intro d w _
    refine ⟨hqueries, ?_⟩
    have hkept : (⟨w, .error d :: ses.oracle.answers⟩ : Answered ω).verdicts =
        ses.oracle.verdicts := List.countP_cons_of_neg nofun
    rw [hkept]
    exact h.verdicts

theorem keeps_tallied (e : Engine ω τ) : e.answering.Keeps Tallied := by
  have hwithin : ∀ {α : Type} (m : Action ω DecisionError α) {ses : Session (Answered ω) τ},
      ses.Tallied →
        (Session.consult (Answered.within m)).Meets ses (fun _ => Tallied) fun _ => Tallied := by
    intro α m ses hses
    rw [Session.meets_consult, Answered.meets_within]
    exact meets_iff.2 ⟨fun _ _ _ => ⟨hses.queries, hses.verdicts⟩,
      fun _ _ _ => ⟨hses.queries, hses.verdicts⟩⟩
  exact
    { deciding := fun hses => ⟨hses.queries, hses.verdicts⟩
      leaving := fun _ hses => ⟨hses.queries, hses.verdicts⟩
      sync := fun _ _ hses => hwithin _ hses
      query := fun q _ hses => e.tallied_query q hses
      push := fun _ _ hses => hwithin _ hses
      simplify := fun _ _ hses => hwithin _ hses }

/-- A step counts the queries that reach the oracle, and its verdicts. -/
theorem tallied_step (e : Engine ω τ) (i : Instruction) (s : State)
    {ses : Session (Answered ω) τ} (h : ses.Tallied) :
    ((e.answering.step i s).run ses).2.Tallied := by
  have halike := e.keeps_tallied.alike fun _ _ hses => ⟨hses.queries, hses.verdicts⟩
  exact (couples_same_iff.1 (halike.step i s) ses h).of_run rfl

end Engine

end SymbolicMachine
