import SymbolicMachine.Proofs.Acts.Updates
import SymbolicMachine.Proofs.Safety.Decisions
/-!
# Decisions as acts

A body that decides a load makes at most a symbol, and every alternative that it offers speaks of
values in hand, of input objects that fit, and of guards that may be assumed.
-/
namespace SymbolicMachine

open SymbolicMachine.Action

variable {ω τ ε α : Type}

namespace Engine

/-- What a decision needs is in hand. -/
def InHand (e : Engine ω τ) (s : State) (hand : List Value) : Decision → Prop
  | .loads v => v ∈ hand
  | .null r => .reference (.symbolic r) ∈ hand
  | .aliases r address => .reference (.symbolic r) ∈ hand ∧
      ∃ o, s.initialHeap.get address = .ok o ∧
        e.classes.isAssignable o.className r.staticType = true
  | .expands r className => .reference (.symbolic r) ∈ hand ∧
      className ∈ (e.classes.expansionClasses r.staticType).toOption.getD []
  | .outOfRange => True

/-- An alternative that acts can carry out. -/
structure Offered (e : Engine ω τ) (s : State) (hand : List Value) (a : Alternative) : Prop where
  decision : e.InHand s hand a.decision
  access : ∀ access, a.access = some access → e.Assumable s hand access.guard ∧
    .primitive access.index ∈ hand ∧ access.index.type = .int

section Decisions

variable {e : Engine ω τ} {s t : State} {hand hand' : List Value}

/-- More values in hand, and other symbols, branches and frames, take nothing from an
alternative. -/
theorem InHand.mono {d : Decision} (h : e.InHand s hand d)
    (hinitial : t.initialHeap = s.initialHeap)
    (hhand : hand ⊆ hand') : e.InHand t hand' d := by
  cases d with
  | loads v => exact hhand h
  | null r => exact hhand h
  | aliases r address => exact ⟨hhand h.1, hinitial ▸ h.2⟩
  | expands r className => exact ⟨hhand h.1, h.2⟩
  | outOfRange => trivial

theorem Assumable.mono {condition : Term} (h : e.Assumable s hand condition)
    (hheap : t.heap = s.heap) (hpath : t.pathCondition = s.pathCondition) (hhand : hand ⊆ hand') :
    e.Assumable t hand' condition := by
  cases h with
  | guard ha hindex hget houtcome => exact .guard (hheap ▸ ha) (hhand hindex) hget houtcome
  | negative hlength hcondition => exact .negative (hhand hlength) hcondition
  | nonnegative hlength hcondition => exact .nonnegative (hhand hlength) hcondition
  | simplified hlength hcondition hset hsimplify =>
    exact .simplified (hhand hlength) hcondition (hpath ▸ hset) hsimplify

theorem Offered.mono {a : Alternative} (h : e.Offered s hand a) (hheap : t.heap = s.heap)
    (hinitial : t.initialHeap = s.initialHeap) (hpath : t.pathCondition = s.pathCondition)
    (hhand : hand ⊆ hand') (number : Nat) : e.Offered t hand' { a with branch := number } where
  decision := h.decision.mono hinitial hhand
  access access haccess := by
    obtain ⟨hguard, hindex, hint⟩ := h.access access haccess
    exact ⟨hguard.mono hheap hpath hhand, hhand hindex, hint⟩

/-- Nothing is said of an action. -/
theorem always_any {σ : Type} (m : Action σ ε α) :
    m.Always (fun _ => True) fun _ => True :=
  fun _ => meets_iff.2 ⟨fun _ _ _ => trivial, fun _ _ _ => trivial⟩

theorem ofExcept_any {σ ε' : Type} (r : Except ε α) (f : ε → ε') :
    (ofExcept (r.mapError f) : Action σ ε' α).Always (fun a => r = .ok a) fun _ => True :=
  fun _ => meets_ofExcept_mapError.2 ⟨fun _ h => h, fun _ _ => trivial⟩

theorem feasible_of_candidates (candidates : List (Query × Decision)) :
    (e.feasible candidates).Always (fun ds => ∀ d ∈ ds, ∃ q, (q, d) ∈ candidates)
      fun _ => True := by
  induction candidates with
  | nil => exact always_pure nofun
  | cons c rest ih =>
    refine (always_any (e.query c.1)).bind fun verdict _ => ih.bind fun others hothers => ?_
    exact always_pure fun d hd => exists_candidate verdict hothers hd

theorem inHand_of_mem_candidates {r : RefSymbol} {q : Query} {d : Decision}
    (hr : .reference (.symbolic r) ∈ hand) (h : (q, d) ∈ candidates e.classes s r) :
    e.InHand s hand d := by
  rcases mem_candidates.1 h with h | ⟨a, o, ho, hfits, h⟩ | ⟨n, hn, h⟩ <;> cases h
  · exact hr
  · exact ⟨hr, o, ho, hfits⟩
  · exact ⟨hr, hn⟩

theorem referenceAlternatives_inHand {r : RefSymbol} {access : Option ArrayAccess}
    (hr : .reference (.symbolic r) ∈ hand) :
    (e.referenceAlternatives s r access).Always
      (fun alternatives => ∀ a ∈ alternatives, e.InHand s hand a.decision ∧ a.access = access)
      fun _ => True := by
  refine (feasible_of_candidates _).bind fun decisions hdecisions => always_pure fun a ha => ?_
  obtain ⟨d, hd, rfl⟩ := List.mem_map.1 ha
  obtain ⟨q, hq⟩ := hdecisions d hd
  exact ⟨inHand_of_mem_candidates hr hq, rfl⟩

theorem decideLoad_offers {v : Value} (hv : v ∈ hand) :
    (e.decideLoad s v).Always (fun alternatives => ∀ a ∈ alternatives, e.Offered s hand a)
      fun _ => True := by
  refine (always_any _).bind fun _ _ => ?_
  split
  · rename_i r hr
    obtain ⟨rfl, -⟩ := unresolved?_eq_some hr
    refine (always_any _).bind fun _ _ ses => ?_
    refine (referenceAlternatives_inHand hv ses).mono (fun alternatives _ hall a ha => ?_)
      fun _ _ h => h
    obtain ⟨hdecision, haccess⟩ := hall a ha
    exact ⟨hdecision, fun access h => nomatch haccess.symm.trans h⟩
  · refine always_pure fun a ha => ?_
    cases List.mem_singleton.1 ha
    exact ⟨hv, nofun⟩

theorem memberAlternatives_offers {v : Value} {access : ArrayAccess} (hv : v ∈ hand)
    (hguard : e.Assumable s hand access.guard) (hindex : .primitive access.index ∈ hand)
    (hint : access.index.type = .int) :
    (e.memberAlternatives s v access).Always
      (fun alternatives => ∀ a ∈ alternatives, e.Offered s hand a) fun _ => True := by
  have hoffered : ∀ a : Alternative, e.InHand s hand a.decision → a.access = some access →
      e.Offered s hand a := by
    intro a hdecision haccess
    refine ⟨hdecision, fun access' h => ?_⟩
    cases haccess.symm.trans h
    exact ⟨hguard, hindex, hint⟩
  unfold memberAlternatives
  split
  · rename_i r hr
    obtain ⟨rfl, -⟩ := unresolved?_eq_some hr
    refine (always_any _).bind fun _ _ ses => ?_
    exact (referenceAlternatives_inHand hv ses).mono
      (fun alternatives _ hall a ha => hoffered a (hall a ha).1 (hall a ha).2) fun _ _ h => h
  · refine always_pure fun a ha => ?_
    cases List.mem_singleton.1 ha
    exact hoffered _ hv rfl

/-- The result of deciding an array access: symbols were made, and alternatives are offered. -/
def Decided (e : Engine ω τ) (s : State) (hand : List Value) (result : State × List Alternative) :
    Prop :=
  ∃ n hand', result.1 = s.withSymbols n ∧ Acts e s hand result.1 hand' ∧
    ∀ a ∈ result.2, e.Offered result.1 hand' a

section Outcomes

variable {address : Nat} {a : ArrayObject} {index : Term}

theorem unrecordedMember_acts (ha : s.heap.get address = .ok (.array a))
    (hindex : .primitive index ∈ hand) :
    (unrecordedMember (ω := ω) (τ := τ) s a index).Always
      (fun result => ∃ n hand', result.2 = s.withSymbols n ∧ Acts e s hand result.2 hand' ∧
        result.1.1 ∈ hand') fun _ => True := by
  unfold unrecordedMember
  split
  · rename_i container horigin
    have hnames : s.Names hand (.member container index) := .member ha horigin hindex
    have hcreate : (onState (ω := ω) (τ := τ) s
        (State.createSymbol a.memberType (.member container index))).Always
        (fun r => ∃ n hand', r.2 = s.withSymbols n ∧ Acts e s hand r.2 hand' ∧ r.1 ∈ hand')
        fun _ => True := by
      intro ses
      rw [meets_onState]
      exact State.meets_createSymbol
        (fun v hv => ⟨_, v :: hand, rfl, acts_of_stands hnames hv, List.mem_cons_self⟩)
        fun _ _ _ => trivial
    exact hcreate.bind fun r hr => always_pure hr
  · refine (ofExcept_any _ _).bind fun v hv => always_pure ?_
    have hplain := isPlain_default (mapError_eq_ok.1 hv)
    exact ⟨s.nextSymbol, v :: hand, rfl, (Act.make hplain).acts, List.mem_cons_self⟩

theorem outcomeAlternatives_decided {outcome : AccessOutcome} {outcomes : List AccessOutcome}
    (ha : s.heap.get address = .ok (.array a)) (hindex : .primitive index ∈ hand)
    (hint : index.type = .int) (hget : a.get index = .ok outcomes) (houtcome : outcome ∈ outcomes) :
    (e.outcomeAlternatives s address a index outcome).Always (e.Decided s hand)
      fun _ => True := by
  have hguard : e.Assumable s hand outcome.guard := .guard ha hindex hget houtcome
  cases outcome with
  | outOfRange guard =>
    refine always_pure ⟨s.nextSymbol, hand, rfl, .refl, fun b hb => ?_⟩
    cases List.mem_singleton.1 hb
    refine ⟨trivial, fun access haccess => ?_⟩
    cases haccess
    exact ⟨hguard, hindex, hint⟩
  | entry guard v =>
    have hshows : s.Shows v := .content ha (contains_of_mem_get hget houtcome)
    have htaken : Acts e s hand s (v :: hand) := (Act.take hshows).acts
    refine Always.bind ((memberAlternatives_offers List.mem_cons_self
      (hguard.mono rfl rfl htaken.subset) (htaken.subset hindex) hint).mapError fun _ h => h)
      fun alternatives hall => ?_
    exact always_pure ⟨s.nextSymbol, v :: hand, rfl, htaken, hall⟩
  | unknown guard =>
    refine (unrecordedMember_acts (e := e) ha hindex).bind ?_
    rintro ⟨⟨v, fresh⟩, t⟩ ⟨n, hand', rfl, hacts, hv⟩
    have hguard' : e.Assumable (s.withSymbols n) hand' guard := hguard.mono rfl rfl hacts.subset
    refine Always.bind ((memberAlternatives_offers hv hguard' (hacts.subset hindex)
      hint).mapError fun _ h => h)
      fun alternatives hall => ?_
    exact always_pure ⟨n, hand', rfl, hacts, hall⟩

theorem decideOutcomes_decided {outcomes remaining : List AccessOutcome}
    (ha : s.heap.get address = .ok (.array a)) (hindex : .primitive index ∈ hand)
    (hint : index.type = .int) (hget : a.get index = .ok outcomes)
    (hremaining : remaining ⊆ outcomes) :
    (e.decideOutcomes address a index s remaining).Always (e.Decided s hand) fun _ => True := by
  induction remaining generalizing s hand with
  | nil => exact always_pure ⟨s.nextSymbol, hand, rfl, .refl, nofun⟩
  | cons outcome rest ih =>
    obtain ⟨houtcome, hrest⟩ := List.cons_subset.1 hremaining
    unfold decideOutcomes
    refine (always_any _).bind fun _ _ => (always_any _).bind fun verdict _ => ?_
    split
    · refine (outcomeAlternatives_decided ha hindex hint hget houtcome).bind ?_
      rintro ⟨_, here⟩ ⟨n, hand', rfl, hacts, hhere⟩
      refine (ih (s := s.withSymbols n) ha (hacts.subset hindex) hrest).bind ?_
      rintro ⟨_, others⟩ ⟨m, hand'', rfl, hacts', hothers⟩
      refine always_pure ⟨m, hand'', rfl, hacts.trans hacts', fun b hb => ?_⟩
      rcases List.mem_append.1 hb with hb | hb
      · exact (hhere b hb).mono (t := (s.withSymbols n).withSymbols m) rfl rfl rfl
          hacts'.subset b.branch
      · exact hothers b hb
    · exact ih ha hindex hrest

theorem decideArrayLoad_decided (ha : s.heap.get address = .ok (.array a))
    (hindex : .primitive index ∈ hand) (hint : index.type = .int) :
    (e.decideArrayLoad s address index).Always (e.Decided s hand) fun _ => True := by
  refine (always_any _).bind fun _ _ => ?_
  refine (ofExcept_any _ _).bind fun a' ha' => ?_
  cases ha.symm.trans (Heap.getArray_eq_ok.1 ha')
  refine (ofExcept_any _ _).bind fun outcomes hget => ?_
  exact decideOutcomes_decided ha hindex hint hget (List.Subset.refl _)

end Outcomes

end Decisions

end Engine

end SymbolicMachine
