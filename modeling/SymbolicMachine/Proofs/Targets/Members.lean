import SymbolicMachine.Proofs.Targets.Loads
/-!
# Loads of array members that are references

The outcomes of an array load are asked about one by one under the path condition.  One that is
accepted has its own list of alternatives, and if its member is an undecided reference, then the
targets are asked about under the guard of the outcome as well.  The successors are those of all
these alternatives, one list behind the other.
-/
namespace SymbolicMachine

open SymbolicMachine.Action

variable {ω τ : Type}

theorem Descriptor.primType?_of_isReference {d : String} (h : isReference d = true) :
    primType? d = none := by
  unfold primType?
  split
  · rename_i c hchars
    have hbracket : c = '[' := by
      unfold isReference isArray at h
      rw [hchars] at h
      by_contra hne
      rcases Bool.or_eq_true_iff.1 h with h | h
      · split at h
        · rename_i hcons
          cases hcons
          exact hne rfl
        · cases h
      · unfold className? at h
        split at h
        · rename_i hcons
          cases hcons
          cases h
        · cases h
    rw [hbracket]
    rfl
  · rfl

/-! ## Outcomes -/

namespace ArrayObject

variable {a : ArrayObject} {bounds index : Term} {entries : List ArrayEntry}

/-- The outcomes of an access in their order: some of the recorded members, oldest first, then at
most one for a member without a record, and at most one for an index out of bounds. -/
def Lists (a : ArrayObject) (outcomes : List AccessOutcome) : Prop :=
  ∃ hits unknown outside, outcomes = hits ++ unknown ++ outside ∧
    List.SublistForall₂ (fun o (entry : ArrayEntry) => ∃ guard, o = .entry guard entry.value)
      hits a.entries ∧
    (unknown = [] ∨ ∃ guard, unknown = [.unknown guard]) ∧
    (outside = [] ∨ ∃ guard, outside = [.outOfRange guard])

theorem possible_eq (o : AccessOutcome) : possible o = [] ∨ possible o = [o] := by
  unfold possible
  split
  · exact .inl rfl
  · exact .inr rfl

theorem entryOutcomes_lists {outcomes : List AccessOutcome}
    (h : entryOutcomes bounds index entries = .ok outcomes) :
    List.SublistForall₂ (fun o (entry : ArrayEntry) => ∃ guard, o = .entry guard entry.value)
      outcomes entries := by
  induction entries generalizing outcomes with
  | nil =>
    cases h
    exact .nil
  | cons entry later ih =>
    obtain ⟨hit, -, h⟩ := bind_eq_ok.1 h
    obtain ⟨missed, -, h⟩ := bind_eq_ok.1 h
    obtain ⟨here, -, h⟩ := bind_eq_ok.1 h
    obtain ⟨latest, -, h⟩ := bind_eq_ok.1 h
    obtain ⟨guard, -, h⟩ := bind_eq_ok.1 h
    obtain ⟨others, hothers, h⟩ := bind_eq_ok.1 h
    cases h
    rcases possible_eq (.entry guard entry.value) with hleft | hkept
    · rw [hleft]
      exact .cons_right (ih hothers)
    · rw [hkept]
      exact .cons ⟨guard, rfl⟩ (ih hothers)

theorem get_lists {outcomes : List AccessOutcome} (h : a.get index = .ok outcomes) :
    a.Lists outcomes := by
  obtain ⟨bounds, -, h⟩ := bind_eq_ok.1 h
  obtain ⟨hits, hhits, h⟩ := bind_eq_ok.1 h
  obtain ⟨missed, -, h⟩ := bind_eq_ok.1 h
  obtain ⟨none, -, h⟩ := bind_eq_ok.1 h
  obtain ⟨unrecorded, -, h⟩ := bind_eq_ok.1 h
  obtain ⟨outside, -, h⟩ := bind_eq_ok.1 h
  cases h
  exact ⟨hits, _, _, rfl, entryOutcomes_lists hhits,
    (possible_eq _).imp_right fun h => ⟨_, h⟩, (possible_eq _).imp_right fun h => ⟨_, h⟩⟩

/-- An index can only miss records whose indices have its type. -/
theorem type_eq_of_misses {terms : List Term} (h : misses index entries = .ok terms) :
    ∀ entry ∈ entries, entry.index.type = index.type := by
  induction entries generalizing terms with
  | nil => exact List.forall_mem_nil _
  | cons entry rest ih =>
    obtain ⟨missed, hmissed, h⟩ := bind_eq_ok.1 h
    obtain ⟨others, hothers, -⟩ := bind_eq_ok.1 h
    refine List.forall_mem_cons.2 ⟨?_, ih hothers⟩
    by_contra hne
    rw [Term.mkNe, Term.applyBinary, if_neg hne] at hmissed
    cases hmissed

theorem type_eq_of_get {outcomes : List AccessOutcome} (h : a.get index = .ok outcomes) :
    ∀ entry ∈ a.entries, entry.index.type = index.type := by
  obtain ⟨bounds, -, h⟩ := bind_eq_ok.1 h
  obtain ⟨hits, -, h⟩ := bind_eq_ok.1 h
  obtain ⟨missed, hmissed, -⟩ := bind_eq_ok.1 h
  exact type_eq_of_misses hmissed

end ArrayObject

/-- The outcomes that are accepted under assumptions. -/
def acceptedOutcomes (verdict : List Clause → Query → Bool) (held : List Clause)
    (outcomes : List AccessOutcome) : List AccessOutcome :=
  outcomes.filter fun o => verdict held (.sat o.guard)

/-! ## Reads -/

/-- A read of an array member: the index and the array on top of the operand stack, and the array
at its address. -/
structure ReferenceRead where
  index : Term
  target : Reference
  address : Nat
  array : ArrayObject

namespace ReferenceRead

/-- A state is about to read a member that is a reference, and the fields are known of the classes
that a member may turn out to be new of. -/
structure Pending (x : ReferenceRead) (t : ClassTable) (s : State) : Prop where
  operands : ∃ below, s.operands = .primitive x.index :: .reference x.target :: below
  target : s.deref x.target = .ok (some x.address)
  array : s.heap.get x.address = .ok (.array x.array)
  index : x.index.IsInt
  length : x.array.length.IsInt
  indices : ∀ entry ∈ x.array.entries, entry.index.WellTyped
  member : Descriptor.isReference x.array.memberType = true
  recorded : ∀ entry ∈ x.array.entries, ∀ r, Engine.unresolved? s entry.value = some r →
    t.Expandable r.staticType
  unrecorded : x.array.isInput = true → ∀ c, Descriptor.staticType x.array.memberType = .ok c →
    t.Expandable c

/-- The access of an alternative for an outcome. -/
def access (x : ReferenceRead) (o : AccessOutcome) (fresh : Bool) : ArrayAccess :=
  ⟨o.guard, x.address, x.index, fresh⟩

/-- Whether a symbol is made for an outcome. -/
def makes (x : ReferenceRead) : AccessOutcome → Bool
  | .unknown _ => x.array.isInput
  | _ => false

/-- The number of the next symbol after an outcome. -/
def numberAfter (x : ReferenceRead) (s : State) (o : AccessOutcome) : Nat :=
  s.nextSymbol + if x.makes o then 1 else 0

/-- The state behind the accepted outcomes, of which one may have taken a symbol, without the index
and the array on the operand stack. -/
def working (x : ReferenceRead) (s : State) (accepted : List AccessOutcome) : State :=
  (s.withFrames (dropOperands 2 s.frames)).withSymbols (s.nextSymbol + accepted.countP x.makes)

/-- The member that an outcome in bounds reads, and whether it is a symbol that is made for it,
with the next number.  Without a record the members of other arrays than inputs are null. -/
inductive Reads (x : ReferenceRead) (next : Nat) : AccessOutcome → Value → Bool → Prop
  | entry {guard : Term} {v : Value} : Reads x next (.entry guard v) v false
  | input {guard : Term} {container : RefSymbol} {c : String}
      (horigin : x.array.origin = some container)
      (hc : Descriptor.staticType x.array.memberType = .ok c) :
      Reads x next (.unknown guard)
        (.reference (.symbolic ⟨next, c, .member container x.index⟩)) true
  | default {guard : Term} (horigin : x.array.origin = none) :
      Reads x next (.unknown guard) (.reference .null) false

/-- The alternatives of an accepted outcome: one if the index is out of bounds or if the member is
no undecided reference, and otherwise those for its targets that are accepted under the guard. -/
inductive Offers (x : ReferenceRead) (t : ClassTable) (verdict : List Clause → Query → Bool)
    (s : State) (next : Nat) : AccessOutcome → List Alternative → Prop
  | outOfRange {guard : Term} :
      Offers x t verdict s next (.outOfRange guard)
        [.create .outOfRange (some (x.access (.outOfRange guard) false))]
  | settled {o : AccessOutcome} {v : Value} {fresh : Bool} (hread : x.Reads next o v fresh)
      (hv : Engine.unresolved? s v = none) :
      Offers x t verdict s next o [.create (.loads v) (some (x.access o fresh))]
  | undecided {o : AccessOutcome} {r : RefSymbol} {fresh : Bool} {tried : List (Query × Decision)}
      (hread : x.Reads next o (.reference (.symbolic r)) fresh) (hfree : s.isResolved r = false)
      (htried : Tries t s r tried) :
      Offers x t verdict s next o
        (acceptedOf verdict (s.pathCondition.clauses ++ [.assume o.guard])
          (some (x.access o fresh)) tried)

section Offers

variable {x : ReferenceRead} {t : ClassTable} {verdict : List Clause → Query → Bool} {s : State}
  {next next' : Nat} {o : AccessOutcome}

theorem Reads.renumber {v : Value} {fresh : Bool} (h : x.Reads next o v fresh)
    (hmakes : x.makes o = false) : x.Reads next' o v fresh := by
  cases h with
  | entry => exact .entry
  | default horigin => exact .default horigin
  | input horigin _ =>
    rw [makes, ArrayObject.isInput, horigin] at hmakes
    cases hmakes

/-- The number of the next symbol only matters where one is made. -/
theorem Offers.renumber {part : List Alternative} (h : x.Offers t verdict s next o part)
    (hmakes : x.makes o = false) : x.Offers t verdict s next' o part := by
  cases h with
  | outOfRange => exact .outOfRange
  | settled hread hv => exact .settled (hread.renumber hmakes) hv
  | undecided hread hfree htried => exact .undecided (hread.renumber hmakes) hfree htried

/-- Which targets there are depends on the input objects and on what was decided. -/
theorem Offers.of_same {working : State} {part : List Alternative}
    (h : x.Offers t verdict working next o part) (hinput : working.initialHeap = s.initialHeap)
    (hpath : working.pathCondition = s.pathCondition) : x.Offers t verdict s next o part := by
  have hresolved : ∀ r, s.isResolved r = working.isResolved r := fun r =>
    congrArg (·.isResolved r) hpath.symm
  cases h with
  | outOfRange => exact .outOfRange
  | settled hread hv =>
    refine .settled hread ?_
    unfold Engine.unresolved? at hv ⊢
    simpa only [hresolved] using hv
  | undecided hread hfree htried =>
    rw [hpath]
    refine .undecided hread ((hresolved _).trans hfree) ?_
    unfold Tries at htried ⊢
    rwa [hinput] at htried

/-- Of two outcomes a symbol is made for at most one. -/
theorem pairwise_makes {outcomes : List AccessOutcome} (h : x.array.Lists outcomes) :
    outcomes.Pairwise fun o o' => x.makes o = false ∨ x.makes o' = false := by
  obtain ⟨hits, unknown, outside, rfl, hhits, hunknown, houtside⟩ := h
  have hrecorded : ∀ o ∈ hits, x.makes o = false := by
    obtain ⟨entries, hentries, -⟩ := List.sublistForall₂_iff.1 hhits
    clear hhits
    induction hentries with
    | nil => exact List.forall_mem_nil _
    | cons hhit _ ih =>
      obtain ⟨guard, rfl⟩ := hhit
      exact List.forall_mem_cons.2 ⟨rfl, ih⟩
  have hthrown : ∀ o ∈ outside, x.makes o = false := by
    rcases houtside with rfl | ⟨guard, rfl⟩
    · exact List.forall_mem_nil _
    · exact List.forall_mem_singleton.2 rfl
  have hone : unknown.Pairwise fun o o' => x.makes o = false ∨ x.makes o' = false := by
    rcases hunknown with rfl | ⟨guard, rfl⟩
    · exact .nil
    · exact List.pairwise_singleton _ _
  refine List.pairwise_append.2 ⟨List.pairwise_append.2 ⟨?_, hone, ?_⟩, ?_, ?_⟩
  · exact List.pairwise_of_forall_mem_list fun o ho _ _ => .inl (hrecorded o ho)
  · exact fun o ho _ _ => .inl (hrecorded o ho)
  · exact List.pairwise_of_forall_mem_list fun o ho _ _ => .inl (hthrown o ho)
  · exact fun _ _ o ho => .inr (hthrown o ho)

end Offers

end ReferenceRead

namespace Engine

variable {e : Engine ω τ} {stack : ω → List Clause} {verdict : List Clause → Query → Bool}
  {s : State} {ses : Session ω τ} {x : ReferenceRead} {o : AccessOutcome}

/-! ## Alternatives -/

theorem unrecordedMember_reads (guard : Term)
    (hmember : Descriptor.isReference x.array.memberType = true)
    {bad : Fault → Session ω τ → Prop} :
    (unrecordedMember s x.array x.index).Meets ses
      (fun r ses' => ses' = ses ∧ r.2 = s.withSymbols (x.numberAfter s (.unknown guard)) ∧
        x.Reads s.nextSymbol (.unknown guard) r.1.1 r.1.2) bad := by
  have hprim := Descriptor.primType?_of_isReference hmember
  unfold unrecordedMember ReferenceRead.numberAfter ReferenceRead.makes ArrayObject.isInput
  cases horigin : x.array.origin with
  | some container =>
    rw [meets_bind, meets_onState]
    refine State.meets_createSymbol (fun v hv => ?_) fun error _ herror => ?_
    · cases hv with
      | primitive htype => cases hprim.symm.trans htype
      | reference _ hc => exact ⟨rfl, rfl, .input horigin hc⟩
    · obtain ⟨c, hc⟩ := Descriptor.exists_staticType (.inr hmember) hprim
      cases hc.symm.trans herror
  | none =>
    have hdefault : x.array.defaultMember = .ok (.reference .null) := by
      simp only [ArrayObject.defaultMember, Value.default, hprim, hmember]
      rfl
    rw [hdefault]
    exact ⟨rfl, rfl, .default horigin⟩

section Decisions

variable (hdecides : e.oracle.DecidesBy stack verdict)

include hdecides

theorem memberAlternatives_accepts {v : Value} {fresh : Bool} {next : Nat}
    (hread : x.Reads next o v fresh) (hheld : stack ses.oracle = s.pathCondition.clauses) :
    (e.memberAlternatives s v (x.access o fresh)).Meets ses
      (fun part _ => x.Offers e.classes verdict s next o part) fun _ _ => ¬e.Steady := by
  unfold memberAlternatives
  split
  · rename_i r hr
    obtain ⟨rfl, hfree⟩ := unresolved?_eq_some hr
    rw [meets_bind]
    refine (push_holds hdecides _ ses).mono (fun _ ses' hpushed => ?_) fun _ _ h => h
    refine (referenceAlternatives_accepts hdecides r _ ses').mono (fun part _ hpart => ?_)
      fun _ _ h => h
    rw [hpart, hpushed, hheld]
    exact .undecided hread hfree (tries_candidates e.classes s r)
  · rename_i hv
    exact .settled hread hv

theorem outcomeAlternatives_accepts (hmember : Descriptor.isReference x.array.memberType = true)
    (hheld : stack ses.oracle = s.pathCondition.clauses) :
    (e.outcomeAlternatives s x.address x.array x.index o).Meets ses
      (fun result _ => result.1 = s.withSymbols (x.numberAfter s o) ∧
        x.Offers e.classes verdict s s.nextSymbol o result.2) fun fault _ => e.Disturbed fault := by
  unfold outcomeAlternatives
  cases o with
  | outOfRange guard => exact ⟨rfl, .outOfRange⟩
  | entry guard v =>
    rw [meets_bind, meets_mapError]
    have hread : x.Reads s.nextSymbol (.entry guard v) v false := .entry
    refine (memberAlternatives_accepts hdecides hread hheld).mono (fun part _ hpart => ?_)
      fun _ _ h => ⟨⟨_, rfl⟩, h⟩
    exact ⟨rfl, hpart⟩
  | unknown guard =>
    rw [meets_bind]
    refine (unrecordedMember_reads guard hmember).mono ?_ fun _ _ h => h
    rintro ⟨⟨v, fresh⟩, _⟩ _ ⟨rfl, rfl, hread⟩
    rw [meets_bind, meets_mapError]
    refine (memberAlternatives_accepts (s := s.withSymbols _) hdecides hread hheld).mono
      (fun part _ hpart => ?_) fun _ _ h => ⟨⟨_, rfl⟩, h⟩
    exact ⟨rfl, hpart.of_same rfl rfl⟩

/-- Every accepted outcome has its list of alternatives. -/
theorem decideOutcomes_accepts (hmember : Descriptor.isReference x.array.memberType = true)
    {outcomes : List AccessOutcome}
    (hmakes : outcomes.Pairwise fun o o' => x.makes o = false ∨ x.makes o' = false) :
    (e.decideOutcomes x.address x.array x.index s outcomes).Meets ses
      (fun result _ => ∃ parts, result.2 = parts.flatten ∧
        List.Forall₂ (x.Offers e.classes verdict s s.nextSymbol)
          (acceptedOutcomes verdict s.pathCondition.clauses outcomes) parts ∧
        result.1 = s.withSymbols (s.nextSymbol +
          (acceptedOutcomes verdict s.pathCondition.clauses outcomes).countP x.makes))
      fun fault _ => e.Disturbed fault := by
  -- The state is generalized since the symbol of an earlier outcome is taken from it.
  induction outcomes generalizing s ses with
  | nil => exact ⟨[], rfl, .nil, rfl⟩
  | cons o rest ih =>
    obtain ⟨hone, hrest⟩ := List.pairwise_cons.1 hmakes
    unfold decideOutcomes
    rw [meets_bind, meets_mapError]
    refine (sync_holds hdecides ses).mono (fun _ ses₁ hheld => ?_) fun _ _ h => ⟨⟨_, rfl⟩, h⟩
    rw [meets_bind, meets_mapError]
    refine (query_decides hdecides _ ses₁).mono ?_ fun _ _ h => ⟨⟨_, rfl⟩, h⟩
    rintro v ses₂ ⟨hv, hsame⟩
    rw [hheld] at hv hsame
    rw [acceptedOutcomes, List.filter_cons, ← hv]
    cases v with
    | true =>
      rw [if_pos rfl, if_pos rfl, meets_bind]
      refine (outcomeAlternatives_accepts hdecides hmember hsame).mono ?_ fun _ _ h => h
      rintro ⟨_, here⟩ ses₃ ⟨rfl, hhere⟩
      rw [meets_bind]
      refine (ih (s := s.withSymbols (x.numberAfter s o)) hrest).mono ?_ fun _ _ h => h
      rintro ⟨_, _⟩ ses₄ ⟨parts, rfl, hparts, rfl⟩
      refine ⟨here :: parts, rfl, .cons hhere ?_, ?_⟩
      · have hothers : ∀ o' ∈ acceptedOutcomes verdict s.pathCondition.clauses rest,
            x.makes o = false ∨ x.makes o' = false :=
          fun o' ho' => hone o' (List.mem_filter.1 ho').1
        refine ((List.forall₂_and_left _ _).2 ⟨hothers, hparts⟩).imp ?_
        rintro o' part ⟨hnone | hnone, hpart⟩
        · rw [ReferenceRead.numberAfter, hnone] at hpart
          exact hpart.of_same rfl rfl
        · exact (hpart.renumber hnone).of_same rfl rfl
      · rw [List.countP_cons, Nat.add_comm (List.countP _ _), ← Nat.add_assoc]
        rfl
    | false =>
      rw [if_neg Bool.false_ne_true, if_neg Bool.false_ne_true]
      exact ih hrest

theorem decideArrayLoad_accepts (harray : s.heap.get x.address = .ok (.array x.array))
    (hmember : Descriptor.isReference x.array.memberType = true) {outcomes : List AccessOutcome}
    (hget : x.array.get x.index = .ok outcomes) :
    (e.decideArrayLoad s x.address x.index).Meets ses
      (fun result _ => ∃ parts, result.2 = parts.flatten ∧
        List.Forall₂ (x.Offers e.classes verdict s s.nextSymbol)
          (acceptedOutcomes verdict s.pathCondition.clauses outcomes) parts ∧
        result.1 = s.withSymbols (s.nextSymbol +
          (acceptedOutcomes verdict s.pathCondition.clauses outcomes).countP x.makes))
      fun fault _ => e.Disturbed fault := by
  unfold decideArrayLoad
  rw [meets_bind, Session.meets_count, meets_bind]
  change Meets (ofExcept ((s.heap.getArray x.address).mapError _)) _ _ _
  rw [Heap.getArray_eq_ok.2 harray, meets_ofExcept_mapError]
  refine ⟨?_, nofun⟩
  rintro _ ⟨⟩
  rw [hget, meets_bind, meets_ofExcept_mapError]
  refine ⟨?_, nofun⟩
  rintro _ ⟨⟩
  exact decideOutcomes_accepts hdecides hmember
    (ReferenceRead.pairwise_makes (ArrayObject.get_lists hget))

/-- An array load takes off the index and the array, and then decides the outcomes. -/
theorem arrayLoad_accepts (hx : x.Pending e.classes s) {outcomes : List AccessOutcome}
    (hget : x.array.get x.index = .ok outcomes) :
    (e.arrayLoad s).Meets ses
      (fun result _ => ∃ parts,
        result = .decided (x.working s (acceptedOutcomes verdict s.pathCondition.clauses outcomes))
          parts.flatten ∧
        List.Forall₂ (x.Offers e.classes verdict s s.nextSymbol)
          (acceptedOutcomes verdict s.pathCondition.clauses outcomes) parts)
      fun fault _ => e.Disturbed fault := by
  obtain ⟨below, htop⟩ := hx.operands
  obtain ⟨f, rest, hframes, hoperands⟩ := State.exists_frame_of_operands htop
  have hpopped : popped s f below rest = s.withFrames (dropOperands 2 s.frames) := by
    rw [hframes, dropOperands, hoperands]
    rfl
  unfold arrayLoad
  rw [meets_bind, meets_popInt_cons hframes hoperands hx.index.type_eq, meets_bind]
  refine (meets_popTarget_cons (s := popped s f _ rest) rfl rfl hx.target).2 ?_
  change Meets (fetched (s.heap.get x.address) >>= fun object => _) _ _ _
  rw [hx.array, meets_bind, meets_fetched_ok, meets_bind]
  refine (decideArrayLoad_accepts (s := popped s f below rest) hdecides hx.array hx.member
    hget).mono ?_ fun _ _ h => h
  rintro ⟨_, _⟩ _ ⟨parts, rfl, hparts, rfl⟩
  rw [hpopped] at hparts ⊢
  exact ⟨parts, rfl, hparts.imp fun _ _ hpart => hpart.of_same rfl rfl⟩

end Decisions

/-! ## Successors -/

/-- An array whose records are at numbers has outcomes, and their guards can be assumed. -/
theorem exists_get_of_pending (hx : x.Pending e.classes s)
    (hint : ∀ entry ∈ x.array.entries, entry.index.type = .int) :
    ∃ outcomes, x.array.get x.index = .ok outcomes ∧ ∀ o ∈ outcomes, o.Guarded := by
  have hentries : ∀ entry ∈ x.array.entries, entry.index.IsInt := fun entry hentry =>
    ⟨hx.indices entry hentry, hint entry hentry⟩
  obtain ⟨outcomes, hget, hguarded, -, -⟩ :=
    ArrayObject.get_spec .zero hx.length hentries hx.index
  exact ⟨outcomes, hget, hguarded⟩

theorem guarded_of_get (hx : x.Pending e.classes s) {outcomes : List AccessOutcome}
    (hget : x.array.get x.index = .ok outcomes) : ∀ o ∈ outcomes, o.Guarded := by
  obtain ⟨outcomes', hget', hguarded⟩ := exists_get_of_pending hx fun entry hentry =>
    (ArrayObject.type_eq_of_get hget entry hentry).trans hx.index.type_eq
  cases hget.symm.trans hget'
  exact hguarded

/-- The classes are known that the undecided member of an outcome may turn out to be new of. -/
theorem expandable_of_reads (hx : x.Pending e.classes s) {outcomes : List AccessOutcome}
    (hget : x.array.get x.index = .ok outcomes) (ho : o ∈ outcomes) {r : RefSymbol} {fresh : Bool}
    {next : Nat} (hread : x.Reads next o (.reference (.symbolic r)) fresh)
    (hfree : s.isResolved r = false) : e.classes.Expandable r.staticType := by
  cases hread with
  | entry =>
    obtain ⟨entry, hentry, hvalue⟩ := contains_of_mem_get hget ho
    exact hx.recorded entry hentry r (hvalue ▸ unresolved?_of_isResolved hfree)
  | input horigin hc => exact hx.unrecorded (by rw [ArrayObject.isInput, horigin]; rfl) _ hc

/-- Nothing is in the way of taking the alternatives of an outcome. -/
theorem workable_of_offers (hx : x.Pending e.classes s) {outcomes accepted : List AccessOutcome}
    (hget : x.array.get x.index = .ok outcomes) (ho : o ∈ outcomes) {next : Nat}
    {part : List Alternative} (h : x.Offers e.classes verdict s next o part) :
    ∀ a ∈ part, Workable e (x.working s accepted) a := by
  have hguard : o.guard.type = .boolean := (guarded_of_get hx hget o ho).type_eq
  have hone : ∀ {d : Decision} {fresh : Bool}, (Alternative.create d none).reference? = none →
      Workable e (x.working s accepted) (.create d (some (x.access o fresh))) := by
    intro d fresh hd
    refine ⟨?_, fun r hr => ?_, ?_⟩
    · rintro _ ⟨⟩
      exact hguard
    · cases hd.symm.trans hr
    · rintro _ ⟨⟩ -
      exact ⟨x.array, hx.array⟩
  cases h with
  | outOfRange => exact List.forall_mem_singleton.2 (hone rfl)
  | settled => exact List.forall_mem_singleton.2 (hone rfl)
  | undecided hread hfree htried =>
    refine workable_of_mem_acceptedOf (s := x.working s accepted) htried
      (expandable_of_reads hx hget ho hread hfree) hfree ?_
    rintro _ ⟨⟩
    exact ⟨hguard, fun _ => ⟨x.array, hx.array⟩⟩

/-- The successors of an array load are those of the outcomes that are accepted under the path
condition, one list behind the other.  The outcomes are the records, oldest first, that the member
has no record, and that the index is out of bounds.  One that is out of bounds has one successor,
which throws, and so has one whose member is null, an address or decided before.  One whose member
is an undecided reference, which may be made for it, has a successor for each target that is
accepted under the path condition and the guard.  Each successor assumes the guard, then its
target, and only one with a member that was made has the member on record. -/
theorem array_load_has_the_successors_of_accepted_outcomes
    (hdecides : e.oracle.DecidesBy stack verdict) (htriggers : e.triggers = .absent τ)
    (hx : x.Pending e.classes s) (ses : Session ω τ) :
    (∀ outcomes, x.array.get x.index = .ok outcomes → x.array.Lists outcomes ∧
      let accepted := acceptedOutcomes verdict s.pathCondition.clauses outcomes
      (∀ successors, ((e.step .arrayLoad s).run ses).1 = .ok successors →
        ∃ parts, List.Forall₂ (x.Offers e.classes verdict s s.nextSymbol) accepted parts ∧
          List.Forall₂ (Reaches e stack (x.working s accepted)) parts.flatten successors) ∧
      (e.Steady → ∃ successors, ((e.step .arrayLoad s).run ses).1 = .ok successors)) ∧
    ((∀ entry ∈ x.array.entries, entry.index.type = .int) →
      ∃ outcomes, x.array.get x.index = .ok outcomes) := by
  refine ⟨fun outcomes hget => ⟨ArrayObject.get_lists hget, outcome_of_meets ?_⟩, fun hint => ?_⟩
  · refine meets_execute ((arrayLoad_accepts hdecides hx hget).mono (fun result ses' => ?_)
      fun _ _ h => h.conclude)
    rintro ⟨parts, rfl, hparts⟩
    have hworkable : ∀ a ∈ parts.flatten,
        Workable e (x.working s (acceptedOutcomes verdict s.pathCondition.clauses outcomes)) a := by
      intro a ha
      obtain ⟨part, hpart, ha⟩ := List.mem_flatten.1 ha
      obtain ⟨o, ho, hoffers⟩ := exists_left_of_forall₂ hparts hpart
      exact workable_of_offers hx hget (List.mem_filter.1 ho).1 hoffers a ha
    exact (refineFrom_reaches hdecides htriggers hworkable _ _).mono
      (fun _ _ hsuccessors => ⟨parts, hparts, hsuccessors⟩) fun _ _ h => h
  · obtain ⟨outcomes, hget, -⟩ := exists_get_of_pending hx hint
    exact ⟨outcomes, hget⟩

/-! ## Rows of a matrix -/

/-- A state that is about to read the first member of an input array of arrays. -/
def matrixInput : State :=
  let r : RefSymbol := ⟨0, "[[I", .root "arg0"⟩
  let prepare : State.Update Unit := do
    let _ ← State.assumeExpands r "[[I" []
    State.pushOperand (.reference (.symbolic r))
    State.pushOperand (.primitive (.ofInt 0))
  (prepare.run ((State.root.withSymbols 1).pushFrame
    (.create ⟨"Main", "run", "([[I)V"⟩ [0, 0] ⟨[some (.reference (.symbolic r))], []⟩ 4))).2

/-- The read of the first row. -/
def firstRow : ReferenceRead where
  index := .ofInt 0
  target := .symbolic ⟨0, "[[I", .root "arg0"⟩
  address := 1
  array := ⟨"[[I", some ⟨0, "[[I", .root "arg0"⟩,
    .symbol ⟨1, .int, .length ⟨0, "[[I", .root "arg0"⟩⟩, []⟩

theorem pending_firstRow : firstRow.Pending (permissive .initial).classes matrixInput where
  operands := ⟨[], rfl⟩
  target := rfl
  array := rfl
  index := ⟨trivial, rfl⟩
  length := ⟨trivial, rfl⟩
  indices := List.forall_mem_nil _
  member := rfl
  recorded := List.forall_mem_nil _
  unrecorded := by
    rintro - c hc
    cases hc
    exact ClassTable.expandable_of_isArray (by decide)

/-- The only input object is the array itself, which is no row. -/
theorem offers_firstRow {t : ClassTable} {guard : Term} {part : List Alternative}
    (h : firstRow.Offers t (fun _ => Query.permitted) matrixInput 2 (.unknown guard) part) :
    let m : RefSymbol := ⟨2, "[I", .member ⟨0, "[[I", .root "arg0"⟩ (.ofInt 0)⟩
    let access : ArrayAccess := ⟨guard, 1, .ofInt 0, true⟩
    part = [.create (.null m) (some access), .create (.expands m "[I") (some access)] := by
  intro m access
  have hother : t.isAssignable "[[I" "[I" = false := by
    rw [ClassTable.isAssignable, if_neg (by decide)]
    rfl
  cases h with
  | settled hread hv =>
    cases hread with
    | input => cases hv
    | default horigin => cases horigin
  | undecided hread _ htried =>
    cases hread with
    | input horigin hc =>
      cases horigin
      cases hc
      obtain ⟨objects, -, hobjects, rfl⟩ := htried
      obtain rfl : objects = [] := by
        refine List.eq_nil_iff_forall_not_mem.2 ?_
        rintro ⟨a, o⟩ ho
        obtain ⟨hget, hfits⟩ := (hobjects a o).1 ho
        have hmem : (a, o) ∈ matrixInput.initialHeap.toList := Heap.mem_toList_iff.2 hget
        cases List.mem_singleton.1 hmem
        cases hother.symm.trans hfits
      rw [ClassTable.expansionClasses_of_isArray (by decide)]
      rfl

/-- The first row may be null or a new array, unless there is none. -/
theorem array_load_of_first_row :
    let e := permissive .initial
    let before := matrixInput.pathCondition.clauses
    let m : RefSymbol := ⟨2, "[I", .member ⟨0, "[[I", .root "arg0"⟩ (.ofInt 0)⟩
    ∃ inside outside t u v condition,
      firstRow.array.get firstRow.index = .ok [.unknown inside, .outOfRange outside] ∧
      ((e.step .arrayLoad matrixInput).run (.start [] ())).1 = .ok [t, u, v] ∧
      t.pathCondition.clauses = before ++ [.assume inside] ++ [.isNull m] ∧
      (Term.symbol ⟨3, .int, .length m⟩).mkGe (.ofInt 0) = .ok condition ∧
      u.pathCondition.clauses =
        before ++ [.assume inside] ++ [.expands m 2 "[I", .assume condition] ∧
      v.pathCondition.clauses = before ++ [.assume outside] ∧
      matrixInput.ThrowsNew v indexOutOfBounds := by
  intro e before m
  obtain ⟨hall, -⟩ := array_load_has_the_successors_of_accepted_outcomes (e := e)
    Oracle.permissive_decidesBy rfl pending_firstRow (.start [] ())
  obtain ⟨-, hreaches, hsome⟩ := hall _ rfl
  obtain ⟨successors, hsuccessors⟩ := hsome (permissive_undisturbed .initial).toSteady
  obtain ⟨parts, hoffers, hreaches⟩ := hreaches _ hsuccessors
  obtain ⟨inner, _, hinner, hrest, rfl⟩ := List.forall₂_cons_left_iff.1 hoffers
  obtain ⟨outer, _, houter, hnil, rfl⟩ := List.forall₂_cons_left_iff.1 hrest
  cases hnil
  cases offers_firstRow hinner
  cases houter with
  | settled hread => cases hread
  | undecided hread => cases hread
  | outOfRange =>
    obtain ⟨t, _, ht, hothers, rfl⟩ := List.forall₂_cons_left_iff.1 hreaches
    obtain ⟨u, _, hu, hlast, rfl⟩ := List.forall₂_cons_left_iff.1 hothers
    obtain ⟨v, _, hv, hnil, rfl⟩ := List.forall₂_cons_left_iff.1 hlast
    cases hnil
    obtain ⟨condition, _, hcondition, ⟨_, _, -, ⟨⟩⟩, hnew⟩ :=
      hu.clauses.exists_of_array (by decide) rfl
    exact ⟨_, _, t, u, v, condition, rfl, hsuccessors, ht.clauses.eq_of_null, hcondition, hnew,
      hv.clauses.eq_of_outOfRange, hv.thrown rfl⟩

end Engine

end SymbolicMachine
