import SymbolicMachine.Proofs.Arrays.Guards
import SymbolicMachine.Proofs.Safety.Undisturbed
/-!
# Conditions that can be satisfied

An interpretation satisfies a path condition if all conditions that are assumed there hold under
it.  An oracle may hold more feasible than is, but of what is assumed it must not reject a condition
that some interpretation satisfies together with that.  A list that is sifted by such an oracle
still has everything that happens.
-/
namespace SymbolicMachine

open SymbolicMachine.Action

variable {ω τ : Type}

/-- All conditions that are assumed hold. -/
def Interpretation.Satisfies (I : Interpretation) (clauses : List Clause) : Prop :=
  ∀ t, .assume t ∈ clauses → t.eval I = .boolean true

/-- Of some states an interpretation satisfies the path condition of exactly one, and that one is
as it should be. -/
def Interpretation.Selects (I : Interpretation) (states : List State) (good : State → Prop) :
    Prop :=
  ExactlyOne (fun t => I.Satisfies t.pathCondition.clauses) states ∧
    ∀ t ∈ states, I.Satisfies t.pathCondition.clauses → good t

/-- An oracle is where it gets to from the replacement of its assumptions by asking questions. -/
inductive Oracle.Holds (o : Oracle ω) (clauses : List Clause) : ω → Prop
  | set {w w' : ω} (h : (o.set clauses).run w = (.ok (), w')) : Holds o clauses w'
  | ask {w w' : ω} {q : Query} {v : Bool} (h : Holds o clauses w)
      (hask : (o.ask q).run w = (.ok v, w')) : Holds o clauses w'

/-- A condition is not rejected if some interpretation satisfies it together with the
assumptions. -/
def Oracle.NeverRejects (o : Oracle ω) (clauses : List Clause) : Prop :=
  ∀ w w' condition, o.Holds clauses w →
    (o.ask (.sat condition)).run w = (.ok false, w') →
      ∀ I : Interpretation, I.Satisfies clauses → condition.eval I ≠ .boolean true

/-- The permissive oracle rejects nothing but what is literally false. -/
theorem Oracle.permissive_neverRejects (clauses : List Clause) :
    Oracle.permissive.NeverRejects clauses := by
  intro w w' condition _ hask I _ htrue
  change (pure (!condition.isFalse) : Action _ DecisionError Bool).run w = _ at hask
  rw [run_pure] at hask
  cases hfalse : condition.isFalse with
  | true =>
    rw [Term.eval_of_isFalse hfalse] at htrue
    cases htrue
  | false =>
    rw [hfalse] at hask
    cases hask

namespace Interpretation

variable {I : Interpretation} {clauses : List Clause} {t : Term}

theorem satisfies_append_assume :
    I.Satisfies (clauses ++ [.assume t]) ↔ I.Satisfies clauses ∧ t.eval I = .boolean true := by
  constructor
  · exact fun h => ⟨fun u hu => h u (List.mem_append_left _ hu),
      h t (List.mem_append_right _ List.mem_cons_self)⟩
  · rintro ⟨h, ht⟩ u hu
    rcases List.mem_append.1 hu with hu | hu
    · exact h u hu
    · cases List.mem_singleton.1 hu
      exact ht

end Interpretation

/-! ## Asking -/

namespace Engine

variable {e : Engine ω τ} {s : State} {ses : Session ω τ} {clauses : List Clause}

/-- A body failed since the engine is disturbed from outside. -/
def Disturbed (e : Engine ω τ) (fault : Fault) : Prop :=
  (∃ cause, fault = .execution cause) ∧ ¬e.Steady

theorem Disturbed.conclude {fault : Fault} (h : e.Disturbed fault) {offset : Nat}
    {good : List State → Session ω τ → Prop} :
    (e.conclude s offset (.error fault)).Meets ses good fun _ _ => ¬e.Steady := by
  obtain ⟨⟨cause, rfl⟩, hsteady⟩ := h
  exact hsteady

/-- The assumptions get across, unless the engine is disturbed. -/
theorem meets_sync_unless {good : Unit → Session ω τ → Prop}
    (h : ∀ ses', e.oracle.Holds s.pathCondition.clauses ses'.oracle → good () ses') :
    (mapError .execution (e.sync s)).Meets ses good fun fault _ => e.Disturbed fault := by
  rw [meets_mapError, meets_sync]
  refine meets_iff.2 ⟨fun _ w hrun => h _ (.set hrun), fun d w hrun => ⟨⟨_, rfl⟩, ?_⟩⟩
  exact fun hsteady => (hsteady.oracle.set _ _).of_error hrun

/-- There is an answer, unless the engine is disturbed, and a condition is not rejected that can be
satisfied. -/
theorem meets_sat_unless (hrejects : e.oracle.NeverRejects clauses) {condition : Term}
    (hholds : e.oracle.Holds clauses ses.oracle) {good : Bool → Session ω τ → Prop}
    (h : ∀ verdict ses', e.oracle.Holds clauses ses'.oracle →
      (verdict = false → ∀ I : Interpretation, I.Satisfies clauses →
        condition.eval I ≠ .boolean true) → good verdict ses') :
    (mapError .execution (e.query (.sat condition))).Meets ses good
      fun fault _ => e.Disturbed fault := by
  rw [meets_mapError]
  refine meets_query (fun hstop => ⟨⟨_, rfl⟩, fun hsteady => ?_⟩) ?_
  · unfold stops at hstop
    rw [hsteady.watchdog, Bool.and_false] at hstop
    cases hstop
  · refine meets_iff.2 ⟨fun verdict w hrun => ?_, fun d w hrun => ⟨⟨_, rfl⟩, ?_⟩⟩
    · refine h verdict _ (.ask hholds hrun) fun hverdict => ?_
      subst hverdict
      exact hrejects _ _ _ hholds hrun
    · exact fun hsteady => (hsteady.oracle.ask _ _).of_error hrun

end Engine

/-! ## Sifting -/

/-- The second list has an element for each of the first, but for some that do not have a
property. -/
inductive Sifted {α β : Type} (p : α → Prop) (r : α → β → Prop) : List α → List β → Prop
  | nil : Sifted p r [] []
  | keep {a b l m} (hab : r a b) (h : Sifted p r l m) : Sifted p r (a :: l) (b :: m)
  | drop {a l m} (ha : ¬p a) (h : Sifted p r l m) : Sifted p r (a :: l) m

namespace Sifted

variable {α β : Type} {p : α → Prop} {q : β → Prop} {r : α → β → Prop} {l : List α} {m : List β}

theorem mono {r' : α → β → Prop} (h : Sifted p r l m) (hr : ∀ a b, r a b → r' a b) :
    Sifted p r' l m := by
  induction h with
  | nil => exact .nil
  | keep hab _ ih => exact .keep (hr _ _ hab) ih
  | drop ha _ ih => exact .drop ha ih

theorem exists_left (h : Sifted p r l m) {b : β} (hb : b ∈ m) : ∃ a ∈ l, r a b := by
  induction h with
  | nil => cases hb
  | keep hab _ ih =>
    rcases List.mem_cons.1 hb with rfl | hb
    · exact ⟨_, List.mem_cons_self, hab⟩
    · obtain ⟨a, ha, hr⟩ := ih hb
      exact ⟨a, List.mem_cons_of_mem _ ha, hr⟩
  | drop _ _ ih =>
    obtain ⟨a, ha, hr⟩ := ih hb
    exact ⟨a, List.mem_cons_of_mem _ ha, hr⟩

theorem forall_not (h : Sifted p r l m) (hr : ∀ a b, r a b → (p a ↔ q b)) (hl : ∀ a ∈ l, ¬p a) :
    ∀ b ∈ m, ¬q b := by
  intro b hb hqb
  obtain ⟨a, ha, hab⟩ := h.exists_left hb
  exact hl a ha ((hr a b hab).2 hqb)

/-- The one element with a property is not lost. -/
theorem exactlyOne (h : Sifted p r l m) (hr : ∀ a b, r a b → (p a ↔ q b))
    (hone : ExactlyOne p l) : ExactlyOne q m := by
  induction h with
  | nil => cases hone
  | keep hab hrest ih =>
    cases hone with
    | here ha hl => exact .here ((hr _ _ hab).1 ha) (hrest.forall_not hr hl)
    | later ha hone => exact .later (mt (hr _ _ hab).2 ha) (ih hone)
  | drop ha _ ih =>
    cases hone with
    | here ha' _ => exact absurd ha' ha
    | later _ hone => exact ih hone

end Sifted

end SymbolicMachine
