import SymbolicMachine.Proofs.Safety.Decisions
/-!
# Successors without engine faults

An alternative that can be carried out in a state gives a sound successor, whatever became of its
siblings, unless the fields of its class are looked for without end.
-/
namespace SymbolicMachine

open SymbolicMachine.Action

variable {ω τ : Type}

namespace Engine

section Successors

variable {e : Engine ω τ} {s : State} (he : e.Steady)

theorem StillOpen.unchanged {table : ClassTable} {s t : State} {d : Decision}
    (h : StillOpen table s d) (hst : s.Grows t) (hinitial : t.initialHeap = s.initialHeap)
    (hresolved : ∀ r, t.isResolved r = s.isResolved r) : StillOpen table t d := by
  cases d with
  | loads v => exact hst.usable h
  | null r => exact (hresolved r).trans h
  | aliases r address =>
    refine ⟨(hresolved r).trans h.1, ?_⟩
    rw [hinitial]
    exact h.2
  | expands r className => exact ⟨(hresolved r).trans h.1, h.2⟩
  | outOfRange => trivial

theorem safeRefinement_assumeGuard (hs : s.Sound) {a : Alternative}
    (ha : Applicable e.classes s a) :
    SafeRefinement e.classes (assumeGuard (ω := ω) (τ := τ) a) s
      fun _ t => StillOpen e.classes t a.decision := by
  unfold assumeGuard
  split
  · split
    · exact safeRefinement_pure hs ha.decision
    · intro ses
      refine (safeRefinement_updating (State.safe_assume hs _) ses).mono
        (fun _ w ⟨hst, _, hinitial, hresolved⟩ => ?_) fun _ _ h => h
      exact ⟨hst, ha.decision.unchanged hst.grows hinitial hresolved⟩
  · exact safeRefinement_pure hs ha.decision

include he

theorem safeRefinement_assumeLength (hs : s.Sound) {address : Nat}
    (harray : ∃ a, s.getArray address = .ok a) :
    SafeRefinement e.classes (e.assumeLength address) s fun _ _ => True := by
  obtain ⟨a, ha⟩ := harray
  -- Up to the last step the successor stays as it is.
  have hconsulting : ∀ {α : Type} {m : Run ω τ ExecutionError α},
      m.Always (fun _ => True) (fun _ => False) →
        SafeRefinement e.classes (consulting m) s fun _ t => t = s := by
    intro α m hm ses
    rw [meets_consulting]
    exact (hm ses).mono (fun _ _ _ => ⟨⟨hs, .refl s⟩, rfl⟩) fun _ _ h => h.elim
  have hread : SafeRefinement e.classes (ω := ω) (τ := τ)
      (ofExcept ((s.getArray address).mapError .memory)) s fun _ t => t = s :=
    safeRefinement_ofExcept hs (fun _ _ => rfl) fun fault hfault => by
      rw [ha] at hfault
      cases hfault
  have hlength : SafeRefinement e.classes (e.assumeLengthIn s address) s fun _ _ => True := by
    refine hread.bind fun a t _ ht => ?_
    cases ht
    have hvalue : SafeRefinement e.classes (ω := ω) (τ := τ)
        (ofExcept ((a.length.mkGe (.ofInt 0)).mapError (.memory ∘ .value))) s fun _ t => t = s :=
      safeRefinement_value hs fun _ _ => rfl
    refine hvalue.bind fun condition t _ ht => ?_
    cases ht
    refine (hconsulting (sync_answers he s)).bind fun _ t _ ht => ?_
    cases ht
    refine (hconsulting (simplify_answers he condition)).bind fun simplified t _ ht => ?_
    cases ht
    intro ses
    exact (safeRefinement_updating (State.safe_assume hs simplified) ses).mono
      (fun _ _ h => ⟨h.1, trivial⟩) fun _ _ h => h
  intro ses
  rw [meets_assumeLength]
  exact hlength ses

theorem safeRefinement_expand (hs : s.Sound) {r : RefSymbol} {className : String}
    (hfree : s.isResolved r = false)
    (hclass : Descriptor.isArray className = false → e.classes.Instantiable className) :
    SafeRefinement e.classes (e.expand r className) s fun _ t => t.isResolved r = true := by
  have hfields : SafeRefinement e.classes (ω := ω) (τ := τ)
      (ofExcept ((e.expandedFields className).mapError .linkage)) s fun _ t => t = s := by
    refine safeRefinement_ofExcept hs (fun _ _ => rfl) fun fault hfault => ?_
    obtain ⟨cause, hcause, rfl⟩ := mapError_eq_error.1 hfault
    unfold expandedFields at hcause
    split at hcause
    · cases hcause
    · rename_i hinstance
      exact Fault.expected_of_instanceFields (hclass (Bool.eq_false_iff.2 hinstance)) hcause
  refine hfields.bind fun fields t _ ht => ?_
  cases ht
  refine (safeRefinement_updating (State.safe_assumeExpands hs className fields hfree)).bind
    fun address t hst ⟨hresolved, harray⟩ => ?_
  split
  · rename_i hassume
    have hlength := harray (Bool.and_eq_true_iff.1 hassume).1
    intro ses
    exact (safeRefinement_assumeLength he hst.sound hlength ses).mono
      (fun _ w hw => ⟨hw.1, hw.1.grows.isResolved hresolved⟩) fun _ _ h => h
  · exact safeRefinement_pure hst.sound hresolved

theorem safeRefinement_assumeDecision (hs : s.Sound) {d : Decision} (hd : StillOpen e.classes s d) :
    SafeRefinement e.classes (e.assumeDecision d) s
      fun loaded t => ∀ v, loaded = some v → t.Usable v := by
  have hloaded : ∀ {t : State} {r : RefSymbol}, t.Sound → t.isResolved r = true →
      SafeRefinement e.classes (ω := ω) (τ := τ) (pure (some (.reference (.symbolic r)))) t
        fun loaded u => ∀ v, loaded = some v → u.Usable v := by
    intro t r ht hr
    refine safeRefinement_pure ht fun v hv => ?_
    cases hv
    exact hr
  cases d with
  | outOfRange => exact safeRefinement_pure hs nofun
  | loads v =>
    refine safeRefinement_pure hs fun w hw => ?_
    cases hw
    exact hd
  | null r =>
    exact (safeRefinement_updating (State.safe_assumeNull hs hd)).bind
      fun _ t hst hr => hloaded hst.sound hr
  | aliases r address =>
    obtain ⟨hfree, o, ho⟩ := hd
    exact (safeRefinement_updating (State.safe_assumeAliases hs hfree ho)).bind
      fun _ t hst hr => hloaded hst.sound hr
  | expands r className =>
    exact (safeRefinement_expand he hs hd.1 hd.2).bind fun _ t hst hr => hloaded hst.sound hr

omit he in
theorem usable_widen {s : State} {v w : Value} (hv : s.Usable v) (h : v.widen = .ok w) :
    s.Usable w := by
  cases v with
  | reference r =>
    cases h
    exact hv
  | primitive t =>
    simp only [Value.widen] at h
    cases hconvert : t.convert t.type.stackType with
    | error e =>
      rw [hconvert] at h
      cases h
    | ok u =>
      rw [hconvert] at h
      cases h
      trivial

omit he in
theorem safeRefinement_recordFresh (hs : s.Sound) {a : Alternative} {v : Value}
    (hmember : ∀ access, a.access = some access → access.fresh = true →
      ∃ array, s.getArray access.array = .ok array) (hv : s.Grounded v) :
    SafeRefinement e.classes (recordFresh (ω := ω) (τ := τ) a v) s fun _ _ => True := by
  unfold recordFresh
  split
  · rename_i access haccess
    split
    · rename_i hfresh
      obtain ⟨array, harray⟩ := hmember access haccess hfresh
      exact safeRefinement_updating (State.safe_arraySet hs harray hv)
    · exact safeRefinement_pure hs trivial
  · exact safeRefinement_pure hs trivial

theorem safeRefinement_load (hs : s.Sound) {a : Alternative} (offset : Nat) {v : Value}
    (hmember : ∀ access, a.access = some access → access.fresh = true →
      ∃ array, s.getArray access.array = .ok array) (hv : s.Usable v) :
    SafeRefinement e.classes (e.load a offset v) s fun _ _ => True := by
  refine (safeRefinement_recordFresh hs hmember hv.grounded).bind fun _ t hst _ => ?_
  have hwidened : SafeRefinement e.classes (ω := ω) (τ := τ)
      (ofExcept (v.widen.mapError (.memory ∘ .value))) t fun w u => u.Usable w :=
    safeRefinement_value hst.sound fun w hw => usable_widen (hst.grows.usable hv) hw
  refine hwidened.bind fun w u htu hw => ?_
  refine (safeRefinement_updating (State.safe_pushOperand htu.sound hw)).bind fun _ x hux _ => ?_
  have htriggers : SafeRefinement e.classes (e.triggering a) x fun _ _ => True := by
    intro ses
    rw [meets_triggering, he.triggers]
    exact ⟨⟨hux.sound, .refl x⟩, trivial⟩
  refine htriggers.bind fun advance y hxy _ => ?_
  split
  · exact safeRefinement_updating (State.safe_incPc hxy.sound offset)
  · exact safeRefinement_pure hxy.sound trivial

theorem safeRefinement_apply (hs : s.Sound) {a : Alternative} (offset : Nat)
    (ha : Applicable e.classes s a) :
    SafeRefinement e.classes (e.apply a offset) s fun _ _ => True := by
  have hmember : ∀ {t : State}, s.Grows t → ∀ access, a.access = some access →
      access.fresh = true → ∃ array, t.getArray access.array = .ok array := by
    intro t hst access haccess hfresh
    obtain ⟨array, harray⟩ := ha.member access haccess hfresh
    exact Heap.getArray_of_grows hst.heap harray
  refine (safeRefinement_assumeGuard hs ha).bind fun _ t hst hopen => ?_
  refine (safeRefinement_assumeDecision he hst.sound hopen).bind fun loaded u htu hloaded => ?_
  cases loaded with
  | none => exact fun _ => ⟨⟨htu.sound.throwNew _, u.grows_throwNew _⟩, trivial⟩
  | some v =>
    exact safeRefinement_load he htu.sound offset (hmember (hst.trans htu).grows) (hloaded v rfl)

omit he in
theorem stillOpen_successorOf {d : Decision} (h : StillOpen e.classes s d) (branching : Bool)
    (number : Nat) : StillOpen e.classes (successorOf s branching number) d := by
  unfold successorOf
  split <;> cases d <;> exact h

omit he in
theorem Applicable.successorOf {a : Alternative} (ha : Applicable e.classes s a) (branching : Bool)
    (number : Nat) :
    Applicable e.classes (successorOf s branching number) { a with branch := number } := by
  constructor
  · exact stillOpen_successorOf ha.decision branching number
  · unfold Engine.successorOf
    split <;> exact ha.member

omit he in
theorem follows_successorOf (hs : s.Sound) (branching : Bool) (number : Nat) :
    s.Follows (successorOf s branching number) := by
  unfold successorOf
  split <;> exact ⟨⟨hs.operands, hs.locals, hs.contents, hs.targets, hs.inputs⟩, .of_eq rfl rfl rfl⟩

theorem refineOne_always (hs : s.Sound) {a : Alternative} {branching : Bool} {offset number : Nat}
    (ha : Applicable e.classes s a) :
    (e.refineOne s branching offset number a).Always (fun t => s.Follows t)
      (·.Hangs e.classes) := by
  have hsuccessor := follows_successorOf hs branching number
  intro ses
  refine meets_refineOne ?_
  refine (safeRefinement_apply he hsuccessor.sound offset (ha.successorOf branching number)
    ses).mono (fun _ w hw => hsuccessor.trans hw.1) fun fault w ⟨hw, hfault⟩ => ?_
  rcases hfault with hends | ⟨cause, hhangs, rfl⟩
  · obtain ⟨t, ht, hwt⟩ := Fault.exists_settle _ hends hw.sound
    rw [ht]
    refine ⟨fun u hu => ?_, nofun⟩
    cases hu
    exact (hsuccessor.trans hw).trans hwt
  · rw [hhangs.settle]
    refine ⟨nofun, fun x hx => ?_⟩
    cases hx
    exact ⟨cause, hhangs, rfl⟩

theorem refineFrom_always (hs : s.Sound) {branching : Bool} {offset number : Nat}
    {alternatives : List Alternative} (hall : ∀ a ∈ alternatives, Applicable e.classes s a) :
    (e.refineFrom s branching offset number alternatives).Always
      (fun successors => ∀ t ∈ successors, s.Follows t) (·.Hangs e.classes) := by
  induction alternatives generalizing number with
  | nil => exact always_pure nofun
  | cons a rest ih =>
    refine (refineOne_always he hs (hall a List.mem_cons_self)).bind fun t ht => ?_
    refine (count_always _).bind fun _ _ => ?_
    refine (ih fun b hb => hall b (List.mem_cons_of_mem _ hb)).bind fun others hothers => ?_
    refine always_pure fun u hu => ?_
    rcases List.mem_cons.1 hu with rfl | hu
    · exact ht
    · exact hothers u hu

end Successors

end Engine

end SymbolicMachine
