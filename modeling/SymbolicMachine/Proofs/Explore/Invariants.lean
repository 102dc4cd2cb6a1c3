import SymbolicMachine.Proofs.Explore.Simulation
/-!
# Invariants of sessions

What every service of an engine keeps true of the session, the actions that are made of them keep
true as well.  This is the simulation of an engine by itself, in sessions that are the same and
have the invariant.
-/
namespace SymbolicMachine

open SymbolicMachine.Action

variable {ω τ ε α : Type}

namespace Action

variable {σ : Type} {P Q E : σ → Prop}

/-- The same state, of which something holds. -/
def Same (P : σ → Prop) (s t : σ) : Prop := s = t ∧ P s

theorem couples_same_iff {m : Action σ ε α} :
    Couples (Same P) (Same Q) (Same E) m m ↔
      ∀ s, P s → m.Meets s (fun _ t => Q t) fun _ t => E t := by
  unfold Couples Meets Same
  constructor
  · intro h s hs
    obtain ⟨-, hafter⟩ := h s s ⟨rfl, hs⟩
    rcases hrun : m.run s with ⟨e | a, t⟩ <;> rw [hrun] at hafter <;> exact hafter.2
  · intro h s t hst
    obtain ⟨rfl, hs⟩ := hst
    have hafter := h s hs
    refine ⟨rfl, ?_⟩
    rcases hrun : m.run s with ⟨e | a, t⟩ <;> rw [hrun] at hafter <;> exact ⟨rfl, hafter⟩

end Action

namespace Engine

variable {e : Engine ω τ} {I : Session ω τ → Prop} {ses : Session ω τ}

/-- An invariant of sessions that the services of an engine keep. -/
structure Keeps (e : Engine ω τ) (I : Session ω τ → Prop) : Prop where
  deciding : ∀ {ses}, I ses → I { ses with statistics := ses.statistics.addDecisionPoint }
  leaving : ∀ {ses} t, I ses → I { ses with trail := t }
  sync : ∀ s {ses}, I ses → (e.sync s).Meets ses (fun _ => I) fun _ => I
  query : ∀ q {ses}, I ses → (e.query q).Meets ses (fun _ => I) fun _ => I
  push : ∀ c {ses}, I ses →
    (Session.consult (e.oracle.push c)).Meets ses (fun _ => I) fun _ => I
  simplify : ∀ t {ses}, I ses →
    (Session.consult (e.oracle.simplify t)).Meets ses (fun _ => I) fun _ => I

namespace Keeps

theorem attuned (h : e.Keeps I) : e.Attuned e (Same I) (Same I) where
  classes := rfl
  natives := rfl
  config := rfl
  rest _ _ hab := hab
  deciding := by
    intro a b hab
    obtain ⟨rfl, ha⟩ := hab
    exact ⟨rfl, h.deciding ha⟩
  triggering a := by
    refine couples_triggering rfl (fun _ _ hab => congrArg Session.trail hab.1) ?_ a
    intro x y t hxy
    obtain ⟨rfl, hx⟩ := hxy
    exact ⟨rfl, h.leaving t hx⟩
  sync s := couples_same_iff.2 fun _ => h.sync s
  query q := couples_same_iff.2 fun _ => h.query q
  push c := couples_same_iff.2 fun _ => h.push c
  simplify t := couples_same_iff.2 fun _ => h.simplify t

theorem alike (h : e.Keeps I)
    (hmaking : ∀ count {ses}, I ses →
      I { ses with statistics := ses.statistics.addSuccessors count }) :
    e.Alike e (Same I) (Same I) :=
  { h.attuned with
    making := by
      intro count a b hab
      obtain ⟨rfl, ha⟩ := hab
      exact ⟨rfl, hmaking count ha⟩ }

/-- Calls of the oracle and triggers leave alone what was counted. -/
theorem of_counters {J : Nat → Statistics → Prop}
    (hdeciding : ∀ {n a}, J n a → J n a.addDecisionPoint)
    (hquery : ∀ q {ses : Session ω τ}, J ses.queries ses.statistics →
      (e.query q).Meets ses (fun _ ses' => J ses'.queries ses'.statistics)
        fun _ ses' => J ses'.queries ses'.statistics) :
    e.Keeps fun ses => J ses.queries ses.statistics := by
  have hconsult : ∀ {α : Type} (m : Action ω DecisionError α) {ses : Session ω τ},
      J ses.queries ses.statistics →
        (Session.consult m).Meets ses (fun _ ses' => J ses'.queries ses'.statistics)
          fun _ ses' => J ses'.queries ses'.statistics := by
    intro α m ses hses
    rw [Session.meets_consult]
    exact meets_iff.2 ⟨fun _ _ _ => hses, fun _ _ _ => hses⟩
  exact
    { deciding := hdeciding
      leaving := fun _ hses => hses
      sync := fun s _ hses => hconsult _ hses
      query := hquery
      push := fun c _ hses => hconsult _ hses
      simplify := fun t _ hses => hconsult _ hses }

end Keeps

end Engine

end SymbolicMachine
