import SymbolicMachine.Proofs.Arrays.Forks
import SymbolicMachine.Proofs.HandOff.Steps
import SymbolicMachine.Proofs.Targets.Successors
/-!
# Loads of references

If the oracle decides by a function, the successors of a load of an undecided reference are known:
one for each target that is accepted under the path condition, in the order in which the targets
are tried.
-/
namespace SymbolicMachine

open SymbolicMachine.Action

variable {ω τ : Type}

namespace Engine

variable {e : Engine ω τ} {stack : ω → List Clause} {verdict : List Clause → Query → Bool}
  {s : State} {ses : Session ω τ} {r : RefSymbol}

theorem withFrames_dropOperands_one {f : Frame} {rest : List Frame} {v : Value}
    {below : List Value} (hframes : s.frames = f :: rest)
    (hoperands : f.operands.operands = v :: below) :
    s.withFrames (dropOperands 1 s.frames) = popped s f below rest := by
  rw [hframes, dropOperands, hoperands]
  rfl

section Decisions

variable (hdecides : e.oracle.DecidesBy stack verdict)

include hdecides

theorem decided_accepts (hfree : s.isResolved r = false) :
    (e.decided s (.reference (.symbolic r))).Meets ses
      (fun result _ => result = .decided s
        (acceptedOf verdict s.pathCondition.clauses none (candidates e.classes s r)))
      fun fault _ => e.Disturbed fault := by
  unfold decided decideLoad
  rw [unresolved?_of_isResolved hfree, meets_bind, meets_mapError, meets_bind,
    Session.meets_count, meets_bind]
  refine (sync_holds hdecides _).mono (fun _ ses' hheld => ?_) fun _ _ h => ⟨⟨_, rfl⟩, h⟩
  refine (referenceAlternatives_accepts hdecides r none ses').mono (fun _ _ haccepted => ?_)
    fun _ _ h => ⟨⟨_, rfl⟩, h⟩
  rw [haccepted, hheld]
  rfl

/-- A load takes off the object whose field it reads, and then decides the reference. -/
theorem body_accepts {i : Instruction} (hload : Loads s i r) (hfree : s.isResolved r = false) :
    ∃ count, i.consumes = some count ∧
      (e.body i s).Meets ses
        (fun result _ => result = .decided (s.withFrames (dropOperands count s.frames))
          (acceptedOf verdict s.pathCondition.clauses none (candidates e.classes s r)))
        fun fault _ => e.Disturbed fault := by
  cases hload with
  | @slot slot length _ hlocal =>
    have hread : readLocal s slot e.config.unwrittenSlot = .ok (.reference (.symbolic r)) := by
      rw [readLocal, hlocal]
    have hsame : s.withFrames (dropOperands 0 s.frames) = s := by rw [dropOperands_zero]; rfl
    refine ⟨0, rfl, ?_⟩
    rw [hsame]
    change (e.loadLocal slot s).Meets _ _ _
    unfold loadLocal
    rw [hread, meets_bind, meets_fetched_ok]
    exact decided_accepts hdecides hfree
  | @field name _ target below address o htop htarget ho hfield =>
    obtain ⟨f, rest, hframes, hoperands⟩ := State.exists_frame_of_operands htop
    refine ⟨1, rfl, ?_⟩
    rw [withFrames_dropOperands_one hframes hoperands]
    change (e.getField name s).Meets _ _ _
    unfold getField
    rw [meets_bind]
    refine (meets_popTarget_cons hframes hoperands htarget).2 ?_
    change Meets (fetched (s.getObject address) >>= fun object => _) _ _ _
    rw [ho, meets_bind, meets_fetched_ok, meets_bind, hfield, meets_fetched_ok]
    exact decided_accepts hdecides hfree

end Decisions

/-- The successors of a load of a reference that is not decided yet are one for each target that is
accepted under the path condition, in order.  The targets that are tried are null, the input
objects that fit by ascending address, and a new object of each class that fits.  Each successor
assumes its target and, for a new array, what the settings ask for, and has the reference on its
operand stack. -/
theorem load_has_one_successor_for_each_accepted_target
    (hdecides : e.oracle.DecidesBy stack verdict) (htriggers : e.triggers = .absent τ)
    {i : Instruction} (hload : Loads s i r) (hfree : s.isResolved r = false)
    (hclasses : e.classes.Expandable r.staticType) (ses : Session ω τ) :
    ∃ count tried, i.consumes = some count ∧ Tries e.classes s r tried ∧
      (∀ successors, ((e.step i s).run ses).1 = .ok successors →
        List.Forall₂ (Reaches e stack (s.withFrames (dropOperands count s.frames)))
          (acceptedOf verdict s.pathCondition.clauses none tried) successors) ∧
      (e.Steady → ∃ successors, ((e.step i s).run ses).1 = .ok successors) := by
  obtain ⟨count, hcount, hbody⟩ := body_accepts hdecides hload hfree
  have hworkable : ∀ a ∈ acceptedOf verdict s.pathCondition.clauses none
      (candidates e.classes s r), Workable e (s.withFrames (dropOperands count s.frames)) a :=
    workable_of_mem_acceptedOf (s := s.withFrames (dropOperands count s.frames))
      (tries_candidates e.classes s r) hclasses hfree nofun
  refine ⟨count, _, hcount, tries_candidates e.classes s r, outcome_of_meets ?_⟩
  refine meets_execute (hbody.mono (fun result ses' hresult => ?_) fun _ _ h => h.conclude)
  subst hresult
  exact refineFrom_reaches hdecides htriggers hworkable _ _

/-- An array that may be anything is null in the first successor, and new in the second. -/
theorem load_of_array_input :
    let e := permissive .initial
    let r : RefSymbol := ⟨0, "[I", .root "xs"⟩
    ∃ t u condition,
      ((e.step (.loadLocal 0 1) arrayInput).run (.start [] ())).1 = .ok [t, u] ∧
      t.pathCondition.clauses = [.isNull r] ∧
      (Term.symbol ⟨0, .int, .length r⟩).mkGe (.ofInt 0) = .ok condition ∧
      u.pathCondition.clauses = [.expands r 1 "[I", .assume condition] := by
  intro e r
  have harray : Descriptor.isArray r.staticType = true := by decide
  obtain ⟨count, tried, -, ⟨objects, -, hobjects, rfl⟩, hall, hsome⟩ :=
    load_has_one_successor_for_each_accepted_target (e := e) Oracle.permissive_decidesBy rfl
      (.slot rfl : Loads arrayInput (.loadLocal 0 1) r) rfl
      (ClassTable.expandable_of_isArray harray) (.start [] ())
  obtain rfl : objects = [] := by
    refine List.eq_nil_iff_forall_not_mem.2 fun p hp => ?_
    cases ((hobjects p.1 p.2).1 hp).1
  obtain ⟨successors, hsuccessors⟩ := hsome (permissive_undisturbed .initial).toSteady
  have hreaches := hall _ hsuccessors
  rw [ClassTable.expansionClasses_of_isArray harray] at hreaches
  obtain ⟨t, _, ht, hrest, rfl⟩ := List.forall₂_cons_left_iff.1 hreaches
  obtain ⟨u, _, hu, hnil, rfl⟩ := List.forall₂_cons_left_iff.1 hrest
  cases hnil
  obtain ⟨condition, _, hcondition, ⟨_, _, -, ⟨⟩⟩, hnew⟩ := hu.clauses.exists_of_array harray rfl
  exact ⟨t, u, condition, hsuccessors, ht.clauses.eq_of_null, hcondition, hnew⟩

end Engine

end SymbolicMachine
