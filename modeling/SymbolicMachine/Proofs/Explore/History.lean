import SymbolicMachine.Oracle.Scripted
import SymbolicMachine.Proofs.Oracle.Recording
/-!
# Steps forget the history of a session

An oracle answers from its assumptions if what it answers is a function of the assumptions that
it holds and of the call, whatever else it keeps.  A step replaces the assumptions before it asks
anything, so with such an oracle its outcome does not depend on the session in which it runs:
neither on the assumptions that earlier steps left behind, after a failure possibly a part of
those of another state, nor on what was counted.  What a step adds to the statistics does not
depend on the session either.
-/
namespace SymbolicMachine

open SymbolicMachine.Action

variable {ω τ α : Type}

/-- The outcome of every call is a function of the assumptions held and of the call. -/
structure Oracle.AnswersFrom (o : Oracle ω) (stack : ω → List Clause) : Prop
    extends o.KeepsStack stack where
  set_result : ∀ cs w w', ((o.set cs).run w).1 = ((o.set cs).run w').1
  push_result : ∀ c w w', stack w = stack w' → ((o.push c).run w).1 = ((o.push c).run w').1
  ask_result : ∀ q w w', stack w = stack w' → ((o.ask q).run w).1 = ((o.ask q).run w').1
  simplify_result : ∀ t w w', stack w = stack w' →
    ((o.simplify t).run w).1 = ((o.simplify t).run w').1

namespace Oracle

/-- Two states of an oracle in which it holds the same assumptions. -/
def Agree (stack : ω → List Clause) (w w' : ω) : Prop := stack w = stack w'

variable {o : Oracle ω} {stack : ω → List Clause}

/-- A call whose result and whose new assumptions are determined keeps two oracles in agreement,
unless it fails. -/
theorem couples_agree {P : ω → ω → Prop} {m : Action ω DecisionError α}
    (next : ω → List Clause) (hnext : ∀ w w', P w w' → next w = next w')
    (hresult : ∀ w w', P w w' → (m.run w).1 = (m.run w').1)
    (hstack : ∀ w, m.Meets w (fun _ w' => stack w' = next w) fun _ _ => True) :
    Couples P (Agree stack) (fun _ _ => True) m m := by
  intro w w' hw
  have hsame := hresult w w' hw
  refine ⟨hsame, ?_⟩
  rcases h : m.run w with ⟨_ | a, t⟩
  · trivial
  · rcases h' : m.run w' with ⟨_ | a', t'⟩ <;> rw [h, h'] at hsame <;> cases hsame
    change stack t = stack t'
    rw [(hstack w).of_ok h, (hstack w').of_ok h', hnext w w' hw]

section Default

variable
  (hpush : ∀ c w, (o.push c).Meets w (fun _ w' => stack w' = stack w ++ [c]) fun _ _ => True)
  (hresult : ∀ c w w', stack w = stack w' → ((o.push c).run w).1 = ((o.push c).run w').1)

include hpush

theorem meets_pushAll (cs : List Clause) (w : ω) :
    (pushAll o.push cs).Meets w (fun _ w' => stack w' = stack w ++ cs) fun _ _ => True := by
  induction cs generalizing w with
  | nil => simp [pushAll]
  | cons c rest ih =>
    rw [pushAll, meets_bind]
    refine (hpush c w).mono (fun _ w' hw' => ?_) fun _ _ _ => trivial
    refine (ih w').mono (fun _ w'' hw'' => ?_) fun _ _ _ => trivial
    rw [hw'', hw', List.append_assoc]
    rfl

include hresult

/-- An oracle that replaces its assumptions by dropping them and adding the new ones answers from
its assumptions if its other calls do. -/
theorem AnswersFrom.of_clearAndPush (hset : o.set = clearAndPush o.clear o.push)
    (hclear : ∀ w, o.clear.Meets w (fun _ w' => stack w' = []) fun _ _ => True)
    (hclear_result : ∀ w w', (o.clear.run w).1 = (o.clear.run w').1)
    (hask : ∀ q w, (o.ask q).Meets w (fun _ w' => stack w' = stack w) fun _ _ => True)
    (hask_result : ∀ q w w', stack w = stack w' → ((o.ask q).run w).1 = ((o.ask q).run w').1)
    (hsimplify_result : ∀ t w w', stack w = stack w' →
      ((o.simplify t).run w).1 = ((o.simplify t).run w').1) :
    o.AnswersFrom stack where
  set cs w := by
    rw [hset, clearAndPush, meets_bind]
    refine (hclear w).mono (fun _ w' hw' => ?_) fun _ _ _ => trivial
    refine (meets_pushAll hpush cs w').mono (fun _ w'' hw'' => ?_) fun _ _ _ => trivial
    rw [hw'', hw', List.nil_append]
  push := hpush
  ask := hask
  set_result cs w w' := by
    have hcleared : Couples (fun _ _ => True) (Agree stack) (fun _ _ => True) o.clear o.clear :=
      couples_agree (fun _ => []) (fun _ _ _ => rfl) (fun w w' _ => hclear_result w w') hclear
    rw [hset]
    have hpushed : ∀ c, Couples (Agree stack) (Agree stack) (fun _ _ => True) (o.push c)
        (o.push c) := fun c =>
      couples_agree (stack · ++ [c]) (fun _ _ hw => congrArg (· ++ [c]) hw) (hresult c) (hpush c)
    exact ((hcleared.bind fun _ => couples_pushAll hpushed cs) w w' trivial).1
  push_result := hresult
  ask_result := hask_result
  simplify_result := hsimplify_result

end Default

end Oracle

/-- A scripted oracle answers from its assumptions: its script goes by the wording of calls, and
the log that it keeps is for others to read. -/
theorem Script.answersFrom (s : Script) : s.oracle.AnswersFrom Consultation.assumptions := by
  refine .of_clearAndPush (fun c w => ?_) (fun c w w' _ => ?_) rfl (fun w => ?_) (fun w w' => ?_)
    (fun q w => ?_) (fun q w w' h => ?_) fun t w w' _ => ?_
  all_goals simp only [oracle, push, clear, ask, simplify, Consultation.note, Consultation.assume]
  · simp [meets_ofExcept]
  · cases s.attempt s!"push {c.text}" <;> rfl
  · simp [meets_ofExcept]
  · cases s.attempt "clear" <;> rfl
  · simp [meets_ofExcept]
  · cases s.attempt q.text <;> simp [Action.run_bind, h]
  · cases s.attempt s!"simplify {t.text}" <;> rfl

/-- The permissive oracle answers from its assumptions, which are all that it keeps. -/
theorem Oracle.permissive_answersFrom : Oracle.permissive.AnswersFrom id := by
  refine .of_clearAndPush (fun _ _ => rfl) (fun _ _ _ _ => rfl) rfl (fun _ => rfl) (fun _ _ => rfl)
    (fun q w => ?_) (fun q w w' _ => ?_) fun _ _ _ _ => rfl
  · cases q <;> rfl
  · cases q <;> rfl

namespace Session

/-- The same amount was added to given statistics in two sessions. -/
def Gained (A B : Statistics) (a b : Session ω τ) : Prop :=
  ∃ amount, a.statistics = A.plus amount ∧ b.statistics = B.plus amount

variable {A B : Statistics}

theorem counts_gained : Counts (Gained (ω := ω) (τ := τ) A B) := by
  rintro f amount hf a b ⟨before, ha, hb⟩
  refine ⟨before.plus amount, ?_, ?_⟩
  · change f a.statistics = _
    rw [hf, ha, Statistics.plus_assoc]
  · change f b.statistics = _
    rw [hf, hb, Statistics.plus_assoc]

/-- A call of the oracle counts nothing. -/
theorem couples_consult_gained {P Q : ω → ω → Prop} {m : Action ω DecisionError α}
    (h : Couples P Q (fun _ _ => True) m m) :
    Couples (fun a b : Session ω τ => Gained A B a b ∧ P a.oracle b.oracle)
      (fun a b => Gained A B a b ∧ Q a.oracle b.oracle) (Gained A B)
      (consult m) (consult m) := by
  refine Couples.mapError ?_ _
  rintro a b ⟨hgained, hP⟩
  obtain ⟨hresult, hafter⟩ := h a.oracle b.oracle hP
  rw [run_onPart, run_onPart]
  refine ⟨hresult, ?_⟩
  split at hafter <;> rename_i hm <;> rw [hm]
  · exact ⟨hgained, hafter⟩
  · exact hgained

end Session

namespace Engine

open Session (Gained)

variable {e : Engine ω τ} {stack : ω → List Clause}

/-- The engine steps alike in any two sessions. -/
theorem alike_self (hanswers : e.oracle.AnswersFrom stack) (htriggers : e.triggers = .absent τ)
    (hwatch : ∀ n, e.watchdog.shouldStop n = false) (A B : Statistics) :
    e.Alike e (Gained A B)
      (fun a b => Gained A B a b ∧ Oracle.Agree stack a.oracle b.oracle) where
  classes := rfl
  natives := rfl
  config := rfl
  rest _ _ h := h.1
  deciding := Session.counts_gained.deciding
  making := Session.counts_gained.making
  triggering := couples_triggering_absent htriggers htriggers
  sync s := by
    have hset := Oracle.couples_agree (P := fun _ _ => True) (fun _ => s.pathCondition.clauses)
      (fun _ _ _ => rfl) (fun w w' _ => hanswers.set_result _ w w') (hanswers.set _)
    exact (Session.couples_consult_gained hset).mono (fun _ _ h => ⟨h, trivial⟩)
      (fun _ _ h => h) fun _ _ h => h
  push c := Session.couples_consult_gained <|
    Oracle.couples_agree (stack · ++ [c]) (fun _ _ h => congrArg (· ++ [c]) h)
      (hanswers.push_result c) (hanswers.push c)
  query q := by
    have hask := Oracle.couples_agree stack (fun _ _ h => h) (hanswers.ask_result q)
      (hanswers.ask q)
    refine couples_query (fun a b _ => ?_) (fun _ _ h => h.1) (fun _ _ h => h) ?_
      (Session.couples_consult_gained hask)
    · simp only [stops, hwatch, Bool.and_false]
    · exact fun f amount hf a b h => ⟨Session.counts_gained f amount hf a b h.1, h.2⟩
  simplify t := by
    have hsimplify : Couples (Oracle.Agree stack) (fun _ _ => True) (fun _ _ => True)
        (e.oracle.simplify t) (e.oracle.simplify t) := by
      intro w w' hw
      refine ⟨hanswers.simplify_result t w w' hw, ?_⟩
      split <;> trivial
    exact (Session.couples_consult_gained hsimplify).mono (fun _ _ h => h) (fun _ _ h => h.1)
      fun _ _ h => h

/-- A step has the same outcome in any two sessions, and adds the same to their statistics. -/
theorem step_forgets (hanswers : e.oracle.AnswersFrom stack) (htriggers : e.triggers = .absent τ)
    (hwatch : ∀ n, e.watchdog.shouldStop n = false) (i : Instruction) (s : State)
    (a b : Session ω τ) :
    ((e.step i s).run a).1 = ((e.step i s).run b).1 ∧
      ∃ amount, ((e.step i s).run a).2.statistics = a.statistics.plus amount ∧
        ((e.step i s).run b).2.statistics = b.statistics.plus amount := by
  have hgained : Gained a.statistics b.statistics a b := ⟨.zero, rfl, rfl⟩
  obtain ⟨hresult, hafter⟩ :=
    (alike_self hanswers htriggers hwatch a.statistics b.statistics).step i s a b hgained
  refine ⟨hresult, ?_⟩
  split at hafter <;> exact hafter

end Engine

end SymbolicMachine
