import SymbolicMachine.Proofs.HandOff.Decisions
/-!
# Questions of a successor

While a successor is refined, only the length of an array that was just expanded is asked for, and
the oracle is given the path of that successor before.
-/
namespace SymbolicMachine

open SymbolicMachine.Action

variable {ω τ : Type}

/-- The clauses that a successor assumes for the access of its alternative. -/
def Alternative.guardClauses (a : Alternative) : List Clause :=
  match a.access with
  | some access => SymbolicMachine.guardClauses access.guard
  | none => []

namespace Engine

variable {e : Engine ω τ} {stack : ω → List Clause} {P : Log → Question → List Clause → Prop}

/-- Nothing was asked, and without triggers the successor grew. -/
def Kept (triggers : Triggers τ) (w w' : State × Session ω τ) : Prop :=
  w'.2.oracle = w.2.oracle ∧ (triggers = .absent τ → w.1.Grows w'.1)

theorem Kept.refl (triggers : Triggers τ) (w : State × Session ω τ) : Kept triggers w w :=
  ⟨rfl, fun _ => .refl _⟩

theorem Kept.trans {triggers : Triggers τ} {w w' w'' : State × Session ω τ}
    (h : Kept triggers w w') (h' : Kept triggers w' w'') : Kept triggers w w'' :=
  ⟨h'.1.trans h.1, fun habsent => (h.2 habsent).trans (h'.2 habsent)⟩

/-- An action on a successor that asks nothing. -/
def Keeping {α : Type} (triggers : Triggers τ) (m : Refinement ω τ α) : Prop :=
  ∀ w, m.Meets w (fun _ w' => Kept triggers w w') fun _ w' => Kept triggers w w'

section Keeping

variable {α β : Type} {triggers : Triggers τ}

theorem keeping_pure (a : α) : Keeping triggers (pure a : Refinement ω τ α) :=
  fun w => Kept.refl triggers w

theorem keeping_ofExcept (r : Except Fault α) :
    Keeping triggers (ofExcept r : Refinement ω τ α) :=
  fun w => meets_ofExcept.2 ⟨fun _ _ => Kept.refl triggers w, fun _ _ => Kept.refl triggers w⟩

theorem Keeping.bind {m : Refinement ω τ α} {k : α → Refinement ω τ β} (hm : Keeping triggers m)
    (hk : ∀ a, Keeping triggers (k a)) : Keeping triggers (m >>= k) := by
  intro w
  rw [meets_bind]
  refine (hm w).mono (fun a w' hw => ?_) fun _ _ h => h
  exact (hk a w').mono (fun _ _ hw' => hw.trans hw') fun _ _ hw' => hw.trans hw'

theorem keeping_updating {m : State.Update α} (h : State.Growing m) :
    Keeping triggers (updating (ω := ω) m) := by
  rintro ⟨s, ses⟩
  rw [meets_updating]
  exact (h s).mono (fun _ _ hg => ⟨rfl, fun _ => hg⟩) fun _ _ hg => ⟨rfl, fun _ => hg⟩

theorem keeping_triggering (a : Alternative) : Keeping e.triggers (e.triggering a) := by
  rintro ⟨s, ses⟩
  rw [meets_triggering]
  refine meets_iff.2
    ⟨fun b w hrun => ⟨rfl, fun habsent => ?_⟩, fun x w hrun => ⟨rfl, fun habsent => ?_⟩⟩ <;>
    rw [habsent] at hrun <;> cases hrun
  exact .refl _

theorem keeping_assumeGuard (a : Alternative) :
    Keeping triggers (assumeGuard (ω := ω) (τ := τ) a) := by
  unfold assumeGuard
  split
  · split
    · exact keeping_pure ()
    · exact keeping_updating (State.growing_assume _)
  · exact keeping_pure ()

theorem keeping_load (a : Alternative) (offset : Nat) (v : Value) :
    Keeping e.triggers (e.load a offset v) := by
  have hrecord : Keeping e.triggers (recordFresh (ω := ω) (τ := τ) a v) := by
    unfold recordFresh
    split
    · split
      · exact keeping_updating (State.growing_arraySet _ _ _)
      · exact keeping_pure ()
    · exact keeping_pure ()
  refine hrecord.bind fun _ => (keeping_ofExcept _).bind fun widened => ?_
  refine (keeping_updating (State.growing_onFrame _)).bind fun _ => ?_
  refine (keeping_triggering a).bind fun advance => ?_
  split
  · exact keeping_updating (State.growing_onFrame _)
  · exact keeping_pure ()

end Keeping

/-- Every question asked since is about a part of the successor's own path. -/
def Reflected (before : Log) (t : State) (after : Log) : Prop :=
  ∀ entry ∈ after, entry ∈ before ∨ entry.2 <+: t.pathCondition.clauses

theorem Reflected.grows {before after : Log} {t u : State} (h : Reflected before t after)
    (htu : t.Grows u) : Reflected before u after :=
  fun entry hentry => (h entry hentry).imp_right fun hprefix => hprefix.trans htu.clauses

/-- What holds of a successor while it is made: what was asked is proper, and is about its own
path unless triggers interfered. -/
def Refined (triggers : Triggers τ) (P : Log → Question → List Clause → Prop) (before : Log)
    (w : State × Session (Recorded ω) τ) : Prop :=
  AskedProperly P w.2 ∧ (triggers = .absent τ → Reflected before w.1 w.2.oracle.asked)

theorem Refined.kept {triggers : Triggers τ} {before : Log} {w w' : State × Session (Recorded ω) τ}
    (h : Refined triggers P before w) (hkept : Kept triggers w w') :
    Refined triggers P before w' := by
  unfold Refined AskedProperly at *
  rw [hkept.1]
  exact ⟨h.1, fun habsent => (h.2 habsent).grows (hkept.2 habsent)⟩

theorem decided?_guardClauses (a : Alternative) : ∀ c ∈ a.guardClauses, c.decided? = none := by
  unfold Alternative.guardClauses SymbolicMachine.guardClauses
  split
  · split
    · nofun
    · exact Clause.decided?_assume _
  · nofun

/-- The state under the guard of an alternative. -/
def guarded (s : State) (a : Alternative) : State :=
  s.withPath (s.pathCondition.append a.guardClauses (decided?_guardClauses a))

theorem guarded_of_eq_nil {a : Alternative} (h : a.guardClauses = []) (s : State) :
    guarded s a = s := by
  rw [guarded, PathCondition.append_of_eq_nil h]
  rfl

/-- A guard can be assumed if it is a condition. -/
theorem assumeGuard_guarded (a : Alternative) (s : State) (ses : Session ω τ) :
    (assumeGuard a).Meets (s, ses) (fun _ w => w = (guarded s a, ses))
      fun _ _ => ∃ access, a.access = some access ∧ access.guard.type ≠ .boolean := by
  unfold assumeGuard
  cases haccess : a.access with
  | none =>
    have hnil : a.guardClauses = [] := by rw [Alternative.guardClauses, haccess]
    rw [guarded_of_eq_nil hnil]
    rfl
  | some access =>
    have hclauses : a.guardClauses = SymbolicMachine.guardClauses access.guard := by
      rw [Alternative.guardClauses, haccess]
    unfold SymbolicMachine.guardClauses at hclauses
    dsimp only
    split at hclauses
    · rename_i htrue
      rw [if_pos htrue, guarded_of_eq_nil hclauses]
      rfl
    · rename_i hguard
      rw [if_neg hguard, meets_updating, State.assume]
      split
      · refine State.meets_assumeClause (fun p hp => ?_) nofun
        cases hp
        simp only [guarded, hclauses]
      · rename_i hno
        exact ⟨access, rfl, hno⟩

/-- What holds where making a successor fails: if not the step as a whole fails with it, the
successor is left in order. -/
def Abandoned (triggers : Triggers τ) (P : Log → Question → List Clause → Prop) (before : Log)
    (fault : Fault) (w : State × Session (Recorded ω) τ) : Prop :=
  AskedProperly P w.2 ∧ ((∀ x, fault ≠ .execution x) → Refined triggers P before w)

theorem Refined.abandoned {triggers : Triggers τ} {before : Log}
    {w : State × Session (Recorded ω) τ} (h : Refined triggers P before w) (fault : Fault) :
    Abandoned triggers P before fault w :=
  ⟨h.1, fun _ => h⟩

theorem abandoned_execution {triggers : Triggers τ} {before : Log} (x : ExecutionError)
    {w : State × Session (Recorded ω) τ} (h : AskedProperly P w.2) :
    Abandoned triggers P before (.execution x) w :=
  ⟨h, fun hno => absurd rfl (hno x)⟩

theorem Keeping.refined {α : Type} {m : Refinement (Recorded ω) τ α} {triggers : Triggers τ}
    {before : Log} {w : State × Session (Recorded ω) τ} (hm : Keeping triggers m)
    (h : Refined triggers P before w) :
    m.Meets w (fun _ w' => Refined triggers P before w') (Abandoned triggers P before) :=
  (hm w).mono (fun _ _ hkept => h.kept hkept) fun fault _ hkept => (h.kept hkept).abandoned fault

theorem assumeExpands_clauses (r : RefSymbol) (className : String) (fields : List FieldInfo)
    (s : State) :
    (State.assumeExpands r className fields).Meets s
      (fun address t =>
        t.pathCondition.clauses = s.pathCondition.clauses ++ [.expands r s.heap.next className] ∧
          (Descriptor.isArray className = true → ∃ id, t.getArray address =
            .ok (.create className (some r) (.symbol ⟨id, .int, .length r⟩))))
      fun _ _ => True := by
  refine State.meets_assumeExpands ?_ (fun _ => trivial) fun _ _ _ _ _ _ _ _ => trivial
  intro object n p _ hobject hp
  refine ⟨PathCondition.clauses_of_push hp, fun harray => ?_⟩
  cases hobject with
  | array _ => exact ⟨_, Heap.getArray_eq_ok.2 (s.heap.get_allocate_self _)⟩
  | object hinstance _ =>
    rw [harray] at hinstance
    cases hinstance

section Discipline

variable (hkeeps : e.oracle.KeepsStack stack)

include hkeeps

theorem assumeLength_proper {r : RefSymbol} {className : String} {address id : Nat} {s : State}
    {ses : Session (Recorded ω) τ} {before : Log}
    (harray : s.getArray address =
      .ok (.create className (some r) (.symbol ⟨id, .int, .length r⟩)))
    (h : Refined e.triggers P before (s, ses))
    (hP : ∀ earlier condition, NonnegativeLength r condition →
      P earlier (.simplify condition) s.pathCondition.clauses) :
    ((e.recording stack).assumeLength address).Meets (s, ses)
      (fun _ w => Refined e.triggers P before w) (Abandoned e.triggers P before) := by
  rw [meets_assumeLength]
  unfold assumeLengthIn
  simp only [meets_bind, meets_ofExcept, mapError_eq_ok, mapError_eq_error, harray]
  refine ⟨fun a ha => ?_, fun fault _ => h.abandoned fault⟩
  cases ha
  refine ⟨fun condition hcondition => ?_, fun fault _ => h.abandoned fault⟩
  rw [meets_consulting]
  refine (sync_holding hkeeps h.1).mono (fun _ ses₁ hsynced => ?_)
    fun x _ hp => abandoned_execution x hp
  obtain ⟨h₁, hasked₁⟩ := hsynced
  have hsite := hP ses₁.oracle.asked condition ⟨id, hcondition⟩
  rw [← h₁.held] at hsite
  rw [meets_consulting]
  refine (simplify_proper condition h₁.proper hsite).mono
    (fun simplified ses₂ hsimplified => ?_) fun x _ hp => abandoned_execution x hp.1
  obtain ⟨hproper, hasked₂⟩ := hsimplified
  refine (keeping_updating (State.growing_assume simplified)).refined ⟨hproper, fun habsent => ?_⟩
  intro entry hentry
  rw [hasked₂, hasked₁, h₁.held] at hentry
  rcases List.mem_cons.1 hentry with rfl | hentry
  · exact .inr (List.prefix_refl _)
  · exact h.2 habsent entry hentry

theorem expand_proper {r : RefSymbol} {className : String} {s : State}
    {ses : Session (Recorded ω) τ} {before : Log} (h : Refined e.triggers P before (s, ses))
    (hP : Descriptor.isArray className = true → ∀ earlier condition, NonnegativeLength r condition →
      P earlier (.simplify condition)
        (s.pathCondition.clauses ++ [.expands r s.heap.next className])) :
    ((e.recording stack).expand r className).Meets (s, ses)
      (fun _ w => Refined e.triggers P before w) (Abandoned e.triggers P before) := by
  have hkept : ∀ {t : State}, s.Grows t → Refined e.triggers P before (t, ses) := fun hg =>
    h.kept ⟨rfl, fun _ => hg⟩
  unfold expand
  rw [meets_bind, meets_linked]
  refine ⟨fun fields _ => ?_, fun error _ => h.abandoned _⟩
  rw [meets_bind, meets_updating]
  have hgrowing := State.growing_assumeExpands r className fields s
  refine meets_iff.2 ⟨fun address t hrun => ?_, fun error t hrun =>
    (hkept (hgrowing.of_error hrun)).abandoned _⟩
  have ht := hkept (hgrowing.of_ok hrun)
  split
  · rename_i hassume
    have harray : Descriptor.isArray className = true := (Bool.and_eq_true_iff.1 hassume).1
    obtain ⟨hclauses, hlength⟩ := (assumeExpands_clauses r className fields s).of_ok hrun
    obtain ⟨id, hlength⟩ := hlength harray
    refine assumeLength_proper hkeeps hlength ht fun earlier condition hcondition => ?_
    rw [hclauses]
    exact hP harray earlier condition hcondition
  · exact ht

/-- An alternative whose expansion may ask for the length of the array in a successor of the
state. -/
def MayExpand (P : Log → Question → List Clause → Prop) (s : State) (a : Alternative) : Prop :=
  ∀ r className, a.decision = .expands r className → Descriptor.isArray className = true →
    ∀ earlier condition, NonnegativeLength r condition →
      P earlier (.simplify condition)
        (s.pathCondition.clauses ++ a.guardClauses ++ [.expands r s.heap.next className])

theorem apply_proper {a : Alternative} {offset : Nat} {s : State} {ses : Session (Recorded ω) τ}
    {before : Log} (h : Refined e.triggers P before (s, ses)) (hP : MayExpand P s a) :
    ((e.recording stack).apply a offset).Meets (s, ses)
      (fun _ w => Refined e.triggers P before w) (Abandoned e.triggers P before) := by
  unfold apply
  rw [meets_bind]
  have hkeeping : Keeping e.triggers (assumeGuard (ω := Recorded ω) a) := keeping_assumeGuard a
  have hguard := hkeeping.refined h
  refine meets_iff.2 ⟨fun _ w hrun => ?_, fun fault w hrun => hguard.of_error hrun⟩
  have hw := hguard.of_ok hrun
  obtain rfl := (assumeGuard_guarded a s ses).of_ok hrun
  -- Whatever value was decided for is loaded in the same way.
  have hload : ∀ v w, Refined e.triggers P before w →
      ((e.recording stack).load a offset v).Meets w
        (fun _ w' => Refined e.triggers P before w') (Abandoned e.triggers P before) :=
    fun v w hrefined => (keeping_load (e := e.recording stack) a offset v).refined hrefined
  rw [meets_bind]
  unfold assumeDecision
  cases hd : a.decision with
  | outOfRange =>
    exact hw.kept ⟨rfl, fun _ => State.grows_throwNew _ _⟩
  | loads v => exact hload v _ hw
  | null r =>
    rw [meets_bind]
    refine ((keeping_updating (State.growing_assumeClause _)).refined hw).mono
      (fun _ w' hw' => hload _ w' hw') fun _ _ hbad => hbad
  | aliases r address =>
    rw [meets_bind]
    refine ((keeping_updating (State.growing_assumeAliases r address)).refined hw).mono
      (fun _ w' hw' => hload _ w' hw') fun _ _ hbad => hbad
  | expands r className =>
    rw [meets_bind]
    exact (expand_proper hkeeps hw (hP r className hd)).mono
      (fun _ w' hw' => hload _ w' hw') fun _ _ hbad => hbad

omit hkeeps in
theorem grows_of_settle {fault : Fault} {s t : State} (h : fault.settle s = .ok t) : s.Grows t := by
  obtain ⟨className, -, rfl⟩ := Fault.exists_throwNew_of_settle h
  exact s.grows_throwNew className

theorem refineOne_proper {parent : State} {branching : Bool} {offset number : Nat}
    {a : Alternative} {ses : Session (Recorded ω) τ} (h : AskedProperly P ses)
    (hP : MayExpand P parent a) :
    ((e.recording stack).refineOne parent branching offset number a).Meets ses
      (fun t ses' => Refined e.triggers P ses.oracle.asked (t, ses'))
      fun _ ses' => AskedProperly P ses' := by
  have hsuccessor :
      MayExpand P (successorOf parent branching number) { a with branch := number } := by
    unfold successorOf
    split <;> exact hP
  refine meets_refineOne ?_
  refine (apply_proper hkeeps ⟨h, fun _ entry hentry => .inl hentry⟩ hsuccessor).mono
    (fun _ _ hw => hw) fun fault w hw => ⟨fun t hsettled => ?_, fun _ _ => hw.1⟩
  refine (hw.2 fun x hx => ?_).kept ⟨rfl, fun _ => grows_of_settle hsettled⟩
  rw [hx] at hsettled
  cases hsettled

theorem refineFrom_proper {parent : State} {branching : Bool} {offset number : Nat}
    {alternatives : List Alternative} {ses : Session (Recorded ω) τ} (h : AskedProperly P ses)
    (hP : ∀ a ∈ alternatives, MayExpand P parent a) :
    ((e.recording stack).refineFrom parent branching offset number alternatives).Meets ses
      (fun successors ses' => AskedProperly P ses' ∧
        (e.triggers = .absent τ → ∀ entry ∈ ses'.oracle.asked, entry ∈ ses.oracle.asked ∨
          ∃ t ∈ successors, entry.2 <+: t.pathCondition.clauses))
      fun _ ses' => AskedProperly P ses' := by
  induction alternatives generalizing number ses with
  | nil => exact ⟨h, fun _ entry hentry => .inl hentry⟩
  | cons a rest ih =>
    unfold refineFrom
    rw [meets_bind]
    refine (refineOne_proper hkeeps h (hP a List.mem_cons_self)).mono (fun t ses₁ h₁ => ?_)
      fun _ _ hp => hp
    have hcounted :
        AskedProperly P { ses₁ with statistics := ses₁.statistics.addSuccessors 1 } := h₁.1
    rw [meets_bind, Session.meets_count, meets_bind]
    refine (ih hcounted fun b hb => hP b (List.mem_cons_of_mem _ hb)).mono
      (fun others ses₂ h₂ => ?_) fun _ _ hp => hp
    refine ⟨h₂.1, fun habsent entry hentry => ?_⟩
    rcases h₂.2 habsent entry hentry with hearlier | ⟨u, hu, hprefix⟩
    · rcases h₁.2 habsent entry hearlier with hearlier | hprefix
      · exact .inl hearlier
      · exact .inr ⟨t, List.mem_cons_self, hprefix⟩
    · exact .inr ⟨u, List.mem_cons_of_mem _ hu, hprefix⟩

end Discipline

end Engine

end SymbolicMachine
