import SymbolicMachine.Proofs.Safety.Undisturbed
/-!
# Decisions that can be carried out

A body decides a reference only while it is undecided, and it offers an alias only for an address
of the initial heap and a new object only of a class that can have instances.  So whatever it
offers can be carried out.
-/
namespace SymbolicMachine

open SymbolicMachine.Action

variable {ω τ : Type}

namespace Engine

def StillOpen (t : ClassTable) (s : State) : Decision → Prop
  | .loads v => s.Usable v
  | .null r => s.isResolved r = false
  | .aliases r address => s.isResolved r = false ∧ ∃ o, s.initialHeap.get address = .ok o
  | .expands r className => s.isResolved r = false ∧
      (Descriptor.isArray className = false → t.Instantiable className)
  | .outOfRange => True

structure Applicable (t : ClassTable) (s : State) (a : Alternative) : Prop where
  decision : StillOpen t s a.decision
  member : ∀ access, a.access = some access → access.fresh = true →
    ∃ array, s.getArray access.array = .ok array

theorem stillOpen_of_mem_candidates {t : ClassTable} {s : State} {r : RefSymbol} {q : Query}
    {d : Decision} (hfree : s.isResolved r = false) (h : (q, d) ∈ candidates t s r) :
    StillOpen t s d := by
  rcases mem_candidates.1 h with h | ⟨a, o, ho, -, h⟩ | ⟨n, hn, h⟩ <;> cases h
  · exact hfree
  · exact ⟨hfree, o, ho⟩
  · refine ⟨hfree, fun hinstance => ?_⟩
    rcases ClassTable.mem_expansionClasses hn with ⟨harray, rfl⟩ | ⟨info, hinfo, hconcrete, -⟩
    · exact absurd (harray.symm.trans hinstance) nofun
    · exact ⟨info, hinfo, hconcrete⟩

theorem usable_of_unresolved? {s : State} {v : Value} (hv : s.Grounded v)
    (h : unresolved? s v = none) : s.Usable v := by
  match v with
  | .primitive t => trivial
  | .reference .null => trivial
  | .reference (.concrete a) => exact hv
  | .reference (.symbolic r) =>
    unfold unresolved? at h
    dsimp only at h
    split at h
    · rename_i hresolved
      exact hresolved
    · cases h

theorem exists_entry_of_mem_entryOutcomes {bounds index guard : Term} {v : Value}
    {entries : List ArrayEntry} {hits : List AccessOutcome}
    (h : ArrayObject.entryOutcomes bounds index entries = .ok hits)
    (hmem : .entry guard v ∈ hits) : ∃ entry ∈ entries, entry.value = v := by
  induction entries generalizing hits with
  | nil =>
    cases h
    cases hmem
  | cons entry later ih =>
    obtain ⟨hit, -, h⟩ := bind_eq_ok.1 h
    obtain ⟨missed, -, h⟩ := bind_eq_ok.1 h
    obtain ⟨here, -, h⟩ := bind_eq_ok.1 h
    obtain ⟨latest, -, h⟩ := bind_eq_ok.1 h
    obtain ⟨guard', -, h⟩ := bind_eq_ok.1 h
    obtain ⟨others, hothers, h⟩ := bind_eq_ok.1 h
    cases h
    rcases List.mem_append.1 hmem with hmem | hmem
    · cases ArrayObject.eq_of_mem_possible hmem
      exact ⟨entry, List.mem_cons_self, rfl⟩
    · obtain ⟨entry', hentry', hvalue⟩ := ih hothers hmem
      exact ⟨entry', List.mem_cons_of_mem _ hentry', hvalue⟩

/-- A recorded outcome of an access holds a member of the array. -/
theorem contains_of_mem_get {a : ArrayObject} {index guard : Term} {v : Value}
    {outcomes : List AccessOutcome} (h : a.get index = .ok outcomes)
    (hmem : .entry guard v ∈ outcomes) : (HeapObject.array a).Contains v := by
  obtain ⟨bounds, -, h⟩ := bind_eq_ok.1 h
  obtain ⟨hits, hhits, h⟩ := bind_eq_ok.1 h
  obtain ⟨missed, -, h⟩ := bind_eq_ok.1 h
  obtain ⟨none, -, h⟩ := bind_eq_ok.1 h
  obtain ⟨unrecorded, -, h⟩ := bind_eq_ok.1 h
  obtain ⟨outside, -, h⟩ := bind_eq_ok.1 h
  cases h
  rcases List.mem_append.1 hmem with hmem | hmem
  · rcases List.mem_append.1 hmem with hmem | hmem
    · exact exists_entry_of_mem_entryOutcomes hhits hmem
    · cases ArrayObject.eq_of_mem_possible hmem
  · cases ArrayObject.eq_of_mem_possible hmem

section Decisions

variable {e : Engine ω τ} {s : State} (he : e.Steady)

include he

theorem feasible_always (candidates : List (Query × Decision)) :
    (e.feasible candidates).Always (fun ds => ∀ d ∈ ds, ∃ q, (q, d) ∈ candidates)
      fun _ => False := by
  induction candidates with
  | nil => exact always_pure nofun
  | cons c rest ih =>
    refine (query_answers he c.1).bind fun verdict _ => ih.bind fun others hothers => ?_
    exact always_pure fun d hd => exists_candidate verdict hothers hd

theorem referenceAlternatives_always {r : RefSymbol} {access : Option ArrayAccess}
    (hfree : s.isResolved r = false) :
    (e.referenceAlternatives s r access).Always
      (fun alternatives => ∀ a ∈ alternatives, StillOpen e.classes s a.decision ∧ a.access = access)
      fun _ => False := by
  refine (feasible_always he _).bind fun decisions hdecisions => always_pure fun a ha => ?_
  obtain ⟨d, hd, rfl⟩ := List.mem_map.1 ha
  obtain ⟨q, hq⟩ := hdecisions d hd
  exact ⟨stillOpen_of_mem_candidates hfree hq, rfl⟩

theorem decideLoad_always {v : Value} (hv : s.Grounded v) :
    (e.decideLoad s v).Always (fun alternatives => ∀ a ∈ alternatives, Applicable e.classes s a)
      fun _ => False := by
  refine (count_always _).bind fun _ _ => ?_
  split
  · rename_i r hr
    refine (sync_answers he s).bind fun _ _ => ?_
    intro ses
    refine (referenceAlternatives_always he (unresolved?_eq_some hr).2 ses).mono
      (fun alternatives _ hall a ha => ⟨(hall a ha).1, fun access haccess => ?_⟩) fun _ _ h => h
    rw [(hall a ha).2] at haccess
    cases haccess
  · rename_i hnone
    refine always_pure fun a ha => ?_
    cases List.mem_singleton.1 ha
    exact ⟨usable_of_unresolved? hv hnone, nofun⟩

theorem memberAlternatives_always {v : Value} {access : ArrayAccess} (hv : s.Grounded v)
    (hmember : ∃ array, s.getArray access.array = .ok array) :
    (e.memberAlternatives s v access).Always
      (fun alternatives => ∀ a ∈ alternatives, Applicable e.classes s a)
      fun _ => False := by
  unfold memberAlternatives
  split
  · rename_i r hr
    refine (push_answers he _).bind fun _ _ => ?_
    intro ses
    refine (referenceAlternatives_always he (unresolved?_eq_some hr).2 ses).mono
      (fun alternatives _ hall a ha => ⟨(hall a ha).1, fun access' haccess _ => ?_⟩) fun _ _ h => h
    rw [(hall a ha).2] at haccess
    cases haccess
    exact hmember
  · rename_i hnone
    refine always_pure fun a ha => ?_
    cases List.mem_singleton.1 ha
    refine ⟨usable_of_unresolved? hv hnone, fun access' haccess _ => ?_⟩
    cases haccess
    exact hmember

omit he in
theorem unrecordedMember_always (hs : s.Sound) (a : ArrayObject) (index : Term) :
    (unrecordedMember (ω := ω) (τ := τ) s a index).Always
      (fun result => s.Grounded result.1.1 ∧ ∃ n, result.2 = s.withSymbols n) Fault.EndsPath := by
  unfold unrecordedMember
  split
  · refine Always.bind (fun ses => ?_) fun result hresult => always_pure hresult
    rw [meets_onState]
    exact (State.safe_createSymbol hs _ _).mono
      (fun v t ⟨_, hv, n, ht⟩ => ⟨by cases ht; exact hv, n, ht⟩) fun _ _ h => h.2
  · refine Always.bind (always_ofExcept (fun v hv => hv) fun fault hfault => ?_) fun v hv => ?_
    · obtain ⟨error, herror, rfl⟩ := mapError_eq_error.1 hfault
      obtain ⟨cause, -, rfl⟩ := mapError_eq_error.1 herror
      rfl
    · have hdefault := mapError_eq_ok.1 (mapError_eq_ok.1 hv)
      exact always_pure ⟨(State.default_usable hdefault s).grounded, s.nextSymbol, rfl⟩

/-- The result of deciding an array access in a state: only symbols were made. -/
def DecidedIn (t : ClassTable) (s : State) (result : State × List Alternative) : Prop :=
  (∃ n, result.1 = s.withSymbols n) ∧ ∀ a ∈ result.2, Applicable t s a

theorem outcomeAlternatives_always (hs : s.Sound) {address : Nat} {a : ArrayObject} {index : Term}
    {outcome : AccessOutcome} (ha : s.getArray address = .ok a)
    (hvalue : ∀ guard v, outcome = .entry guard v → s.Grounded v) :
    (e.outcomeAlternatives s address a index outcome).Always (DecidedIn e.classes s)
      Fault.EndsPath := by
  cases outcome with
  | outOfRange guard =>
    refine always_pure ⟨⟨s.nextSymbol, rfl⟩, fun b hb => ?_⟩
    cases List.mem_singleton.1 hb
    refine ⟨trivial, fun access haccess hfresh => ?_⟩
    cases haccess
    cases hfresh
  | entry guard v =>
    refine Always.bind ((memberAlternatives_always he (hvalue guard v rfl) ⟨a, ha⟩).mapError
      fun _ h => h.elim) fun alternatives hall => ?_
    exact always_pure ⟨⟨s.nextSymbol, rfl⟩, hall⟩
  | unknown guard =>
    refine (unrecordedMember_always hs a index).bind ?_
    rintro ⟨⟨v, fresh⟩, t⟩ ⟨hv, n, hn⟩
    cases hn
    have hmember : ∃ array, (s.withSymbols n).getArray address = .ok array := ⟨a, ha⟩
    refine Always.bind ((memberAlternatives_always (s := s.withSymbols n) he hv hmember).mapError
      fun _ h => h.elim) fun alternatives hall => ?_
    exact always_pure ⟨⟨n, rfl⟩, fun b hb => ⟨(hall b hb).decision, (hall b hb).member⟩⟩

theorem decideOutcomes_always (hs : s.Sound) {address : Nat} {a : ArrayObject} {index : Term}
    {outcomes : List AccessOutcome} (ha : s.getArray address = .ok a)
    (hvalues : ∀ guard v, .entry guard v ∈ outcomes → s.Grounded v) :
    (e.decideOutcomes address a index s outcomes).Always (DecidedIn e.classes s)
      Fault.EndsPath := by
  induction outcomes generalizing s with
  | nil => exact always_pure ⟨⟨s.nextSymbol, rfl⟩, nofun⟩
  | cons outcome rest ih =>
    have hrest : ∀ guard v, .entry guard v ∈ rest → s.Grounded v := fun guard v hmem =>
      hvalues guard v (List.mem_cons_of_mem _ hmem)
    unfold decideOutcomes
    refine Always.bind ((sync_answers he s).mapError fun _ h => h.elim) fun _ _ => ?_
    refine Always.bind ((query_answers he _).mapError fun _ h => h.elim) fun verdict _ => ?_
    split
    · refine (outcomeAlternatives_always he hs ha fun guard v hv => ?_).bind ?_
      · exact hvalues guard v (hv ▸ List.mem_cons_self)
      · rintro ⟨t, here⟩ ⟨⟨n, hn⟩, hhere⟩
        cases hn
        refine (ih (s := s.withSymbols n) (hs.withSymbols n) ha hrest).bind ?_
        rintro ⟨u, others⟩ ⟨⟨m, hm⟩, hothers⟩
        refine always_pure ⟨⟨m, hm⟩, fun b hb => ?_⟩
        rcases List.mem_append.1 hb with hb | hb
        · exact hhere b hb
        · exact ⟨(hothers b hb).decision, (hothers b hb).member⟩
    · exact ih hs ha hrest

end Decisions

end Engine

end SymbolicMachine
