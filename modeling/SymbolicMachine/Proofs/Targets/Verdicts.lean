import SymbolicMachine.Proofs.Inputs.Loads
import SymbolicMachine.Proofs.Oracle.Recording
import SymbolicMachine.Proofs.Oracle.Satisfying
/-!
# Targets of a reference

An oracle may decide by a function of its assumptions and of the query.  Then the targets of a
symbolic reference that it accepts are known: of all that may be tried, in order, they are those
whose verdict under the assumptions is positive.
-/
namespace SymbolicMachine

open SymbolicMachine.Action

variable {ω τ α : Type}

/-! ## Oracles -/

/-- The verdict on a query is a function of the assumptions and of the query, and a condition is
simplified to a condition. -/
structure Oracle.DecidesBy (o : Oracle ω) (stack : ω → List Clause)
    (verdict : List Clause → Query → Bool) : Prop extends o.KeepsStack stack where
  ask_verdict : ∀ q w, (o.ask q).Meets w (fun v _ => v = verdict (stack w) q) fun _ _ => True
  simplify_boolean : ∀ t w, t.type = .boolean →
    (o.simplify t).Meets w (fun u _ => u.type = .boolean) fun _ _ => True

/-- An oracle that holds assumptions simplifies one term to another. -/
def Oracle.Simplifies (o : Oracle ω) (stack : ω → List Clause) (held : List Clause)
    (t u : Term) : Prop :=
  ∃ w w', stack w = held ∧ (o.simplify t).run w = (.ok u, w')

/-- The verdict of the permissive oracle. -/
def Query.permitted : Query → Bool
  | .sat condition => !condition.isFalse
  | _ => true

theorem Oracle.permissive_decidesBy : permissive.DecidesBy id fun _ => Query.permitted where
  toKeepsStack := permissive_keepsStack
  ask_verdict q w := by cases q <;> rfl
  simplify_boolean _ _ htype := htype

/-! ## Candidates -/

/-- What a symbolic reference may turn out to be, in the order in which it is tried: null, each
input object whose class fits the static type, by ascending address, and a new object of each class
that a reference of the type may be expanded to. -/
def Tries (t : ClassTable) (s : State) (r : RefSymbol) (tried : List (Query × Decision)) : Prop :=
  ∃ objects : List (Nat × HeapObject),
    objects.Pairwise (fun p q => p.1 < q.1) ∧
    (∀ a o, (a, o) ∈ objects ↔
      s.initialHeap.get a = .ok o ∧ t.isAssignable o.className r.staticType = true) ∧
    tried = (.null r, .null r) ::
      (objects.map fun p => (.aliases r p.1 p.2, .aliases r p.1)) ++
      ((t.expansionClasses r.staticType).toOption.getD []).map fun c =>
        (.expands r c, .expands r c)

/-- The alternatives for what is accepted under assumptions. -/
def acceptedOf (verdict : List Clause → Query → Bool) (held : List Clause)
    (access : Option ArrayAccess) (tried : List (Query × Decision)) : List Alternative :=
  (tried.filter fun c => verdict held c.1).map fun c => .create c.2 access

namespace Engine

theorem tries_candidates (t : ClassTable) (s : State) (r : RefSymbol) :
    Tries t s r (candidates t s r) := by
  refine ⟨s.initialHeap.toList.filter fun p => t.isAssignable p.2.className r.staticType,
    s.initialHeap.objects.sorted.filter _, fun a o => ?_, rfl⟩
  rw [List.mem_filter, Heap.mem_toList_iff]

section Rules

variable {e : Engine ω τ} {stack : ω → List Clause} {verdict : List Clause → Query → Bool}
  {s : State}

/-! ## Asking -/

/-- A call of the oracle does in a session what it does by itself, and only a disturbed engine has
no answer. -/
theorem meets_consult_unless {m : Action ω DecisionError α} {good : α → ω → Prop}
    {ses : Session ω τ} (h : m.Meets ses.oracle good fun _ _ => True)
    (hanswers : e.Steady → m.Meets ses.oracle (fun _ _ => True) fun _ _ => False) :
    (Session.consult m).Meets ses (fun a ses' => good a ses'.oracle) fun _ _ => ¬e.Steady := by
  rw [Session.meets_consult]
  exact meets_iff.2 ⟨fun a w hrun => h.of_ok hrun,
    fun d w hrun hsteady => (hanswers hsteady).of_error hrun⟩

variable (hdecides : e.oracle.DecidesBy stack verdict)

include hdecides

theorem sync_holds (ses : Session ω τ) :
    (e.sync s).Meets ses (fun _ ses' => stack ses'.oracle = s.pathCondition.clauses)
      fun _ _ => ¬e.Steady :=
  meets_consult_unless (hdecides.set _ _) fun hsteady => hsteady.oracle.set _ _

theorem push_holds (c : Clause) (ses : Session ω τ) :
    (Session.consult (e.oracle.push c)).Meets ses
      (fun _ ses' => stack ses'.oracle = stack ses.oracle ++ [c]) fun _ _ => ¬e.Steady :=
  meets_consult_unless (hdecides.push _ _) fun hsteady => hsteady.oracle.push _ _

theorem simplify_gives {t : Term} (htype : t.type = .boolean) (ses : Session ω τ) :
    (Session.consult (e.oracle.simplify t)).Meets ses
      (fun u _ => u.type = .boolean ∧ e.oracle.Simplifies stack (stack ses.oracle) t u)
      fun _ _ => ¬e.Steady := by
  have hgives : (e.oracle.simplify t).Meets ses.oracle
      (fun u _ => u.type = .boolean ∧ e.oracle.Simplifies stack (stack ses.oracle) t u)
      fun _ _ => True := by
    refine meets_iff.2 ⟨fun u w hrun => ?_, fun _ _ _ => trivial⟩
    exact ⟨(hdecides.simplify_boolean t _ htype).of_ok hrun, ses.oracle, w, rfl, hrun⟩
  exact meets_consult_unless hgives fun hsteady => hsteady.oracle.simplify _ _

theorem query_decides (q : Query) (ses : Session ω τ) :
    (e.query q).Meets ses
      (fun v ses' => v = verdict (stack ses.oracle) q ∧ stack ses'.oracle = stack ses.oracle)
      fun _ _ => ¬e.Steady := by
  refine meets_query (fun hstop hsteady => ?_) ?_
  · unfold stops at hstop
    rw [hsteady.watchdog, Bool.and_false] at hstop
    cases hstop
  · refine meets_iff.2 ⟨fun v w hrun => ?_, fun d w hrun hsteady => ?_⟩
    · exact ⟨(hdecides.ask_verdict q _).of_ok hrun, (hdecides.ask q _).of_ok hrun⟩
    · exact (hsteady.oracle.ask q _).of_error hrun

/-! ## Deciding -/

/-- All candidates are asked about under the same assumptions, since asking leaves them alone. -/
theorem feasible_accepts (cs : List (Query × Decision)) (ses : Session ω τ) :
    (e.feasible cs).Meets ses
      (fun ds _ => ds = (cs.filter fun c => verdict (stack ses.oracle) c.1).map (·.2))
      fun _ _ => ¬e.Steady := by
  induction cs generalizing ses with
  | nil => rfl
  | cons c rest ih =>
    unfold feasible
    rw [meets_bind]
    refine (query_decides hdecides c.1 ses).mono ?_ fun _ _ h => h
    rintro v ses' ⟨hv, hheld⟩
    rw [meets_bind]
    refine (ih ses').mono (fun others _ hothers => ?_) fun _ _ h => h
    rw [meets_pure, hothers, hheld, List.filter_cons, ← hv]
    cases v <;> rfl

theorem referenceAlternatives_accepts (r : RefSymbol) (access : Option ArrayAccess)
    (ses : Session ω τ) :
    (e.referenceAlternatives s r access).Meets ses
      (fun alternatives _ => alternatives =
        acceptedOf verdict (stack ses.oracle) access (candidates e.classes s r))
      fun _ _ => ¬e.Steady := by
  unfold referenceAlternatives
  rw [meets_bind]
  refine (feasible_accepts hdecides _ ses).mono (fun ds _ hds => ?_) fun _ _ h => h
  rw [meets_pure, hds, List.map_map]
  rfl

end Rules

theorem unresolved?_of_isResolved {s : State} {r : RefSymbol} (h : s.isResolved r = false) :
    unresolved? s (.reference (.symbolic r)) = some r := by
  unfold unresolved?
  simp only [h, Bool.false_eq_true, if_false]

end Engine

end SymbolicMachine
