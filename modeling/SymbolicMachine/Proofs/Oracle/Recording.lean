import SymbolicMachine.Proofs.Explore.Simulation
/-!
# Recording what an oracle is asked

A wrapped oracle notes each question with the assumptions that the inner oracle holds when the
question is put to it.  What the inner oracle holds is read off its state by a function, which
is trusted only as far as `KeepsStack` says.  Recording changes nothing but the record: the
recording engine takes the steps of the engine inside.
-/
namespace SymbolicMachine

open SymbolicMachine.Action

variable {ω τ α : Type}

/-- The assumptions are a stack: replacing them puts the new ones in their place, adding one
puts it behind those there are, and asking leaves them alone.  After a failure they may be
anything. -/
structure Oracle.KeepsStack (o : Oracle ω) (stack : ω → List Clause) : Prop where
  set : ∀ cs w, (o.set cs).Meets w (fun _ w' => stack w' = cs) fun _ _ => True
  push : ∀ c w, (o.push c).Meets w (fun _ w' => stack w' = stack w ++ [c]) fun _ _ => True
  ask : ∀ q w, (o.ask q).Meets w (fun _ w' => stack w' = stack w) fun _ _ => True

/-- The permissive oracle keeps its assumptions as a stack. -/
theorem Oracle.permissive_keepsStack : Oracle.permissive.KeepsStack id where
  set cs w := Engine.meets_permissive_set cs w
  push c w := rfl
  ask q w := by cases q <;> rfl

/-- What an oracle is asked. -/
inductive Question where
  | query (query : Query)
  | simplify (term : Term)

/-- The questions put to an oracle with the assumptions held at the time, latest first. -/
abbrev Log : Type := List (Question × List Clause)

namespace Log

/-- Every question was put in circumstances that are allowed after what was asked before. -/
def Proper (P : Log → Question → List Clause → Prop) : Log → Prop
  | [] => True
  | (question, held) :: earlier => P earlier question held ∧ Proper P earlier

/-- The condition whose feasibility was asked for last. -/
def lastCondition? : Log → Option Term
  | [] => none
  | (.query (.sat condition), _) :: _ => some condition
  | _ :: earlier => lastCondition? earlier

variable {P : Log → Question → List Clause → Prop} {question : Question} {held : List Clause}

theorem Proper.mem {log : Log} (h : log.Proper P) (hmem : (question, held) ∈ log) :
    ∃ earlier, P earlier question held := by
  induction log with
  | nil => cases hmem
  | cons entry earlier ih =>
    rcases List.mem_cons.1 hmem with heq | hmem
    · cases heq
      exact ⟨earlier, h.1⟩
    · exact ih h.2 hmem

theorem Proper.mono {Q : Log → Question → List Clause → Prop} {log : Log} (h : log.Proper P)
    (hPQ : ∀ earlier question held, P earlier question held → Q earlier question held) :
    log.Proper Q := by
  induction log with
  | nil => trivial
  | cons entry earlier ih =>
    obtain ⟨question, held⟩ := entry
    exact ⟨hPQ _ _ _ h.1, ih h.2⟩

end Log

/-- The state of a recorded oracle. -/
structure Recorded (ω : Type) where
  inner : ω
  asked : Log

namespace Recorded

def within (m : Action ω DecisionError α) : Action (Recorded ω) DecisionError α :=
  Action.onPart inner (fun w r => { r with inner := w }) m

def note (stack : ω → List Clause) (question : Question) :
    Action (Recorded ω) DecisionError Unit :=
  Action.update fun r => { r with asked := (question, stack r.inner) :: r.asked }

@[simp] theorem meets_within (m : Action ω DecisionError α) {r : Recorded ω}
    {good : α → Recorded ω → Prop} {bad : DecisionError → Recorded ω → Prop} :
    (within m).Meets r good bad ↔
      m.Meets r.inner (fun a w => good a ⟨w, r.asked⟩) fun d w => bad d ⟨w, r.asked⟩ := by
  simp [within]

@[simp] theorem meets_note (stack : ω → List Clause) (question : Question) {r : Recorded ω}
    {good : Unit → Recorded ω → Prop} {bad : DecisionError → Recorded ω → Prop} :
    (note stack question).Meets r good bad ↔
      good () ⟨r.inner, (question, stack r.inner) :: r.asked⟩ := Iff.rfl

end Recorded

def Oracle.recorded (o : Oracle ω) (stack : ω → List Clause) : Oracle (Recorded ω) :=
  { push := fun c => Recorded.within (o.push c)
    clear := Recorded.within o.clear
    set := fun cs => Recorded.within (o.set cs)
    assumptions := fun r => o.assumptions r.inner
    ask := fun q => do
      Recorded.note stack (.query q)
      Recorded.within (o.ask q)
    simplify := fun t => do
      Recorded.note stack (.simplify t)
      Recorded.within (o.simplify t) }

def Engine.recording (e : Engine ω τ) (stack : ω → List Clause) : Engine (Recorded ω) τ :=
  { oracle := e.oracle.recorded stack
    classes := e.classes
    triggers := e.triggers
    natives := e.natives
    watchdog := e.watchdog
    config := e.config }

namespace Session

def recording (ses : Session ω τ) : Session (Recorded ω) τ :=
  ⟨⟨ses.oracle, []⟩, ses.trail, ses.queries, ses.statistics⟩

def forget (ses : Session (Recorded ω) τ) : Session ω τ :=
  ⟨ses.oracle.inner, ses.trail, ses.queries, ses.statistics⟩

/-- Two sessions that differ in the record only. -/
def Forgets (a : Session (Recorded ω) τ) (b : Session ω τ) : Prop := a.forget = b

end Session

namespace Engine

open Session (Forgets)

/-- An action that does on the inner oracle what another one does, does so in a session as well. -/
theorem couples_consult {m : Action (Recorded ω) DecisionError α} {m' : Action ω DecisionError α}
    (hresult : ∀ r, (m.run r).1 = (m'.run r.inner).1)
    (hinner : ∀ r, (m.run r).2.inner = (m'.run r.inner).2) :
    Couples (Forgets (τ := τ)) Forgets Forgets (Session.consult m) (Session.consult m') := by
  rintro a b rfl
  have hsession : Forgets ((Session.consult m).run a).2 ((Session.consult m').run a.forget).2 := by
    unfold Session.consult
    rw [run_mapError, run_mapError]
    exact congrArg (fun w : ω => { a.forget with oracle := w }) (hinner a.oracle)
  constructor
  · unfold Session.consult
    rw [run_mapError, run_mapError]
    exact congrArg (Except.mapError ExecutionError.decision) (hresult a.oracle)
  · split <;> exact hsession

theorem recording_alike (e : Engine ω τ) (stack : ω → List Clause) :
    (e.recording stack).Alike e Forgets Forgets where
  classes := rfl
  natives := rfl
  config := rfl
  rest _ _ h := h
  deciding _ _ h := by cases h; rfl
  making _ _ _ h := by cases h; rfl
  triggering a := by
    have hsame : (e.recording stack).triggers = e.triggers := rfl
    refine couples_triggering hsame ?_ ?_ a
    · rintro a b rfl
      rfl
    · rintro a b t rfl
      rfl
  sync _ := couples_consult (fun _ => rfl) fun _ => rfl
  push _ := couples_consult (fun _ => rfl) fun _ => rfl
  simplify _ := couples_consult (fun _ => rfl) fun _ => rfl
  query q := by
    refine couples_query ?_ (fun _ _ h => h) ?_ ?_ (couples_consult (fun _ => rfl) fun _ => rfl)
    · rintro a b rfl
      rfl
    · rintro a b rfl
      rfl
    · rintro f amount - a b rfl
      rfl

/-- Recording changes nothing but the record. -/
theorem step_recording (e : Engine ω τ) (stack : ω → List Clause) (i : Instruction) (s : State)
    (ses : Session ω τ) :
    (((e.recording stack).step i s).run ses.recording).1 = ((e.step i s).run ses).1 ∧
      (((e.recording stack).step i s).run ses.recording).2.forget = ((e.step i s).run ses).2 := by
  obtain ⟨hresult, hafter⟩ := (e.recording_alike stack).step i s ses.recording ses rfl
  refine ⟨hresult, ?_⟩
  split at hafter <;> exact hafter

/-- The questions that a step puts to the oracle, with the assumptions that were held. -/
def questions (e : Engine ω τ) (stack : ω → List Clause) (i : Instruction) (s : State)
    (ses : Session ω τ) : Log :=
  (((e.recording stack).step i s).run ses.recording).2.oracle.asked

end Engine

end SymbolicMachine
