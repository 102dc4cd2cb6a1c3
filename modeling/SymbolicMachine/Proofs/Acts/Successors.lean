import SymbolicMachine.Proofs.Acts.Decisions
/-!
# Successors as acts

Carrying out an alternative that is offered is a sequence of acts on the successor, and so is what
was done to it before a fault ended its path.
-/
namespace SymbolicMachine

open SymbolicMachine.Action

variable {ω τ ε α : Type}

namespace Engine

variable {e : Engine ω τ} {s : State} {ses : Session ω τ} {hand : List Value}

theorem acting_updating {m : State.Update α} {post : α → State → List Value → Prop}
    (h : e.Acting id m s hand post) : e.Acting Prod.fst (updating m) (s, ses) hand post := by
  unfold Acting
  rw [meets_updating]
  exact h

theorem acting_assumeGuard {a : Alternative} (ha : e.Offered s hand a) :
    e.Acting Prod.fst (assumeGuard a) (s, ses) hand fun _ t hand' =>
      e.InHand t hand' a.decision := by
  unfold assumeGuard
  split
  · rename_i access haccess
    split
    · exact acting_pure ha.decision
    · unfold Acting
      rw [meets_updating]
      refine State.meets_assume (fun hboolean => ⟨hand, ?_, ha.decision.mono rfl fun _ h => h⟩)
        fun _ _ => ⟨hand, .refl⟩
      exact (Act.assume (ha.access access haccess).1 hboolean rfl).acts
  · exact acting_pure ha.decision

theorem acting_assumeLength (address : Nat) :
    e.Acting Prod.fst (e.assumeLength address) (s, ses) hand fun _ _ _ => True := by
  unfold Acting
  rw [meets_assumeLength]
  unfold assumeLengthIn
  rw [meets_bind, meets_ofExcept_mapError]
  refine ⟨fun a ha => ?_, fun _ _ => ⟨hand, .refl⟩⟩
  rw [meets_bind, meets_ofExcept_mapError]
  refine ⟨fun condition hcondition => ?_, fun _ _ => ⟨hand, .refl⟩⟩
  rw [meets_bind, meets_consulting, meets_sync, meets_iff]
  refine ⟨fun _ w hset => ?_, fun _ _ _ => ⟨hand, .refl⟩⟩
  rw [meets_bind, meets_consulting, Session.meets_consult, meets_iff]
  refine ⟨fun simpler w' hsimplify => ?_, fun _ _ _ => ⟨hand, .refl⟩⟩
  have hshows : s.Shows (.primitive a.length) := .length (Heap.getArray_eq_ok.1 ha)
  have hassumable : e.Assumable s (.primitive a.length :: hand) simpler :=
    .simplified List.mem_cons_self hcondition hset hsimplify
  rw [meets_updating]
  exact Meets.mono (acting_assume hassumable)
    (fun _ _ ⟨hand', hacts, h⟩ => ⟨hand', (Act.take hshows).acts.trans hacts, h⟩)
    fun _ _ ⟨hand', hacts⟩ => ⟨hand', (Act.take hshows).acts.trans hacts⟩

theorem acting_expand {r : RefSymbol} {className : String} (hr : .reference (.symbolic r) ∈ hand)
    (hclass : className ∈ (e.classes.expansionClasses r.staticType).toOption.getD []) :
    e.Acting Prod.fst (e.expand r className) (s, ses) hand fun _ _ _ => True := by
  have hfields : e.Acting Prod.fst
      (ofExcept ((e.expandedFields className).mapError .linkage) :
        Refinement ω τ (List FieldInfo)) (s, ses) hand fun fields _ _ =>
          fields = [] ∨ e.classes.instanceFields className = .ok fields := by
    refine acting_ofExcept fun fields h => ?_
    have h := mapError_eq_ok.1 h
    unfold expandedFields at h
    split at h
    · cases h
      exact .inl rfl
    · exact .inr h
  refine hfields.bind fun fields ⟨t, ses'⟩ hand' hacts hfields => ?_
  refine (acting_updating (acting_assumeExpands (hacts.subset hr) (.inr hclass) hfields)).bind ?_
  rintro address ⟨u, ses''⟩ hand'' - -
  split
  · exact acting_assumeLength address
  · exact acting_pure trivial

theorem acting_assumeDecision {d : Decision} (hd : e.InHand s hand d) :
    e.Acting Prod.fst (e.assumeDecision d) (s, ses) hand fun loaded _ hand' =>
      ∀ v, loaded = some v → v ∈ hand' := by
  have hloaded : ∀ {v : Value} {w : State × Session ω τ} {hand' : List Value}, v ∈ hand' →
      e.Acting Prod.fst (pure (some v) : Refinement ω τ (Option Value)) w hand'
        fun loaded _ hand'' => ∀ v, loaded = some v → v ∈ hand'' := by
    intro v w hand' hv
    refine acting_pure fun w hw => ?_
    cases hw
    exact hv
  cases d with
  | outOfRange => exact acting_pure nofun
  | loads v => exact hloaded hd
  | null r =>
    exact (acting_updating (acting_assumeNull hd)).bind fun _ _ _ hacts _ =>
      hloaded (hacts.subset hd)
  | aliases r address =>
    obtain ⟨hr, o, ho, hfits⟩ := hd
    exact (acting_updating (acting_assumeAliases hr ho hfits)).bind fun _ _ _ hacts _ =>
      hloaded (hacts.subset hr)
  | expands r className =>
    exact (acting_expand hd.1 hd.2).bind fun _ _ _ hacts _ => hloaded (hacts.subset hd.1)

theorem acting_load (htriggers : e.triggers = .absent τ) {a : Alternative} (offset : Nat)
    {v : Value} (hv : v ∈ hand) (haccess : ∀ access, a.access = some access →
      .primitive access.index ∈ hand ∧ access.index.type = .int) :
    e.Acting Prod.fst (e.load a offset v) (s, ses) hand fun _ _ _ => True := by
  have hrecord : e.Acting Prod.fst (recordFresh a v) (s, ses) hand fun _ _ _ => True := by
    unfold recordFresh
    split
    · rename_i access h
      split
      · exact acting_updating (acting_arraySet hv (haccess access h).1 (haccess access h).2)
      · exact acting_pure trivial
    · exact acting_pure trivial
  refine hrecord.bind fun _ ⟨t, ses'⟩ hand' hacts _ => ?_
  unfold Acting
  rw [meets_bind, meets_ofExcept_mapError]
  refine ⟨fun widened hwidened => ?_, fun _ _ => ⟨hand', .refl⟩⟩
  have hwiden : Acts e t hand' t (widened :: hand') :=
    (Act.widen (hacts.subset hv) hwidened).acts
  have hpush : e.Acting Prod.fst
      (do updating (State.pushOperand widened)
          let advance ← e.triggering a
          if advance then updating (State.incPc offset) else pure () : Refinement ω τ Unit)
      (t, ses') (widened :: hand') fun _ _ _ => True := by
    refine (acting_updating (acting_pushOperand List.mem_cons_self)).bind ?_
    rintro _ ⟨u, ses''⟩ hand'' - -
    unfold Acting
    rw [meets_bind, meets_triggering, htriggers]
    exact acting_updating (acting_incPc offset)
  exact Meets.mono hpush (fun _ _ ⟨hand'', h, _⟩ => ⟨hand'', hwiden.trans h, trivial⟩)
    fun _ _ ⟨hand'', h⟩ => ⟨hand'', hwiden.trans h⟩

theorem acting_apply (htriggers : e.triggers = .absent τ) {a : Alternative} (offset : Nat)
    (ha : e.Offered s hand a) :
    e.Acting Prod.fst (e.apply a offset) (s, ses) hand fun _ _ _ => True := by
  refine (acting_assumeGuard ha).bind fun _ ⟨t, ses'⟩ hand' hacts hd => ?_
  refine (acting_assumeDecision hd).bind fun loaded ⟨u, ses''⟩ hand'' hacts' hloaded => ?_
  cases loaded with
  | none => exact ⟨hand'', (Act.throw _).acts, trivial⟩
  | some v =>
    refine acting_load htriggers offset (hloaded v rfl) fun access haccess => ?_
    obtain ⟨-, hindex, hint⟩ := ha.access access haccess
    exact ⟨hacts'.subset (hacts.subset hindex), hint⟩

/-- A state is reached from another one by acts. -/
def ActsTo (e : Engine ω τ) (s : State) (hand : List Value) (t : State) : Prop :=
  ∃ hand', Acts e s hand t hand'

theorem ActsTo.settle {fault : Fault} {t : State} (h : e.ActsTo s hand t) {u : State}
    (hu : fault.settle t = .ok u) : e.ActsTo s hand u := by
  obtain ⟨hand', hacts⟩ := h
  obtain ⟨className, -, rfl⟩ := Fault.exists_throwNew_of_settle hu
  exact ⟨hand', .tail hacts (.throw className)⟩

theorem actsTo_successorOf (branching : Bool) (number : Nat) :
    Acts e s hand (successorOf s branching number) hand := by
  unfold successorOf
  split
  · exact (Act.place _ _).acts
  · exact (Act.place _ _).acts

theorem refineOne_acts (htriggers : e.triggers = .absent τ) {a : Alternative} {branching : Bool}
    {offset number : Nat} (ha : e.Offered s hand a) :
    (e.refineOne s branching offset number a).Always (e.ActsTo s hand) fun _ => True := by
  have hplace : Acts e s hand (successorOf s branching number) hand :=
    actsTo_successorOf branching number
  have hoffered : e.Offered (successorOf s branching number) hand { a with branch := number } := by
    unfold successorOf
    split
    · exact ha.mono (t := s.addBranch number) rfl rfl rfl (List.Subset.refl _) number
    · exact ha.mono (t := s.incSequence) rfl rfl rfl (List.Subset.refl _) number
  intro ses
  refine meets_refineOne (Meets.mono (acting_apply htriggers offset hoffered)
    (fun _ w ⟨hand', hacts, _⟩ => ⟨hand', hplace.trans hacts⟩) ?_)
  rintro fault w ⟨hand', hacts⟩
  exact ⟨fun t ht => ActsTo.settle ⟨hand', hplace.trans hacts⟩ ht, fun _ _ => trivial⟩

theorem refineFrom_acts (htriggers : e.triggers = .absent τ) {branching : Bool}
    {offset number : Nat} {alternatives : List Alternative}
    (hall : ∀ a ∈ alternatives, e.Offered s hand a) :
    (e.refineFrom s branching offset number alternatives).Always
      (fun successors => ∀ t ∈ successors, e.ActsTo s hand t) fun _ => True := by
  induction alternatives generalizing number with
  | nil => exact always_pure nofun
  | cons a rest ih =>
    refine (refineOne_acts htriggers (hall a List.mem_cons_self)).bind fun t ht => ?_
    refine (always_any _).bind fun _ _ => ?_
    refine (ih fun b hb => hall b (List.mem_cons_of_mem _ hb)).bind fun others hothers => ?_
    refine always_pure fun u hu => ?_
    rcases List.mem_cons.1 hu with rfl | hu
    · exact ht
    · exact hothers u hu

end Engine

end SymbolicMachine
