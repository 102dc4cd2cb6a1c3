import SymbolicMachine.Proofs.HandOff.Sites
/-!
# Questions of a decision

A decision about a reference or an array access is made under the assumptions that the oracle
was given for it.
-/
namespace SymbolicMachine

open SymbolicMachine.Action

variable {ω τ : Type}

namespace Engine

variable {e : Engine ω τ} {stack : ω → List Clause} {P : Log → Question → List Clause → Prop}
  {s : State} {held : List Clause} {last : Option Term} {ses : Session (Recorded ω) τ}

theorem reference?_of_mem_candidates {t : ClassTable} {r : RefSymbol} {c : Query × Decision}
    (hc : c ∈ candidates t s r) :
    c.1.reference? = some r ∧ ∀ r' className, c.2 = .expands r' className → r' = r := by
  rcases mem_candidates.1 hc with rfl | ⟨a, o, -, -, rfl⟩ | ⟨n, -, rfl⟩
  · exact ⟨rfl, nofun⟩
  · exact ⟨rfl, nofun⟩
  · refine ⟨rfl, fun r' _ h => ?_⟩
    cases h
    rfl

variable (hkeeps : e.oracle.KeepsStack stack)

include hkeeps

theorem feasible_holding {candidates : List (Query × Decision)} {r : RefSymbol}
    (hr : ∀ c ∈ candidates, c.1.reference? = some r) (h : Holding stack P held last ses)
    (hP : ∀ earlier q, earlier.lastCondition? = last → q.reference? = some r →
      P earlier (.query q) held) :
    ((e.recording stack).feasible candidates).Meets ses
      (fun decisions ses' => Holding stack P held last ses' ∧
        ∀ d ∈ decisions, ∃ q, (q, d) ∈ candidates)
      fun _ ses' => AskedProperly P ses' := by
  induction candidates generalizing ses with
  | nil => exact ⟨h, nofun⟩
  | cons c rest ih =>
    have hc : c.1.reference? = some r := hr c List.mem_cons_self
    unfold feasible
    rw [meets_bind]
    refine (query_reference_holding hkeeps hc h (hP _ _ h.last hc)).mono
      (fun verdict ses' h' => ?_) fun _ _ hp => hp
    rw [meets_bind]
    refine (ih (fun d hd => hr d (List.mem_cons_of_mem _ hd)) h').mono
      (fun others ses'' ⟨h'', hothers⟩ => ?_) fun _ _ hp => hp
    exact ⟨h'', fun d hd => exists_candidate verdict hothers hd⟩

/-- An alternative of loading a value: it belongs to the access, and it expands no other
reference than the value. -/
def DecidesFor (v : Value) (access : Option ArrayAccess) (a : Alternative) : Prop :=
  a.access = access ∧
    ∀ r className, a.decision = .expands r className → v = .reference (.symbolic r)

theorem referenceAlternatives_proper {r : RefSymbol} {access : Option ArrayAccess}
    (h : Holding stack P held last ses)
    (hP : ∀ earlier q, earlier.lastCondition? = last → q.reference? = some r →
      P earlier (.query q) held) :
    ((e.recording stack).referenceAlternatives s r access).Meets ses
      (fun alternatives ses' => AskedProperly P ses' ∧
        ∀ a ∈ alternatives, DecidesFor (.reference (.symbolic r)) access a)
      fun _ ses' => AskedProperly P ses' := by
  unfold referenceAlternatives
  rw [meets_bind]
  refine (feasible_holding hkeeps (fun c hc => (reference?_of_mem_candidates hc).1) h hP).mono
    (fun decisions ses' ⟨h', hdecisions⟩ => ?_) fun _ _ hp => hp
  refine ⟨h'.proper, fun a ha => ?_⟩
  obtain ⟨d, hd, rfl⟩ := List.mem_map.1 ha
  obtain ⟨q, hq⟩ := hdecisions d hd
  refine ⟨rfl, fun r' className hexpands => ?_⟩
  rw [(reference?_of_mem_candidates hq).2 r' className hexpands]

omit hkeeps in
theorem decidesFor_loads (v : Value) (access : Option ArrayAccess) :
    ∀ a ∈ [Alternative.create (.loads v) access], DecidesFor v access a := by
  intro a ha
  cases List.mem_singleton.1 ha
  exact ⟨rfl, nofun⟩

theorem decideLoad_proper {v : Value} (h : AskedProperly P ses)
    (hP : ∀ earlier q r, v = .reference (.symbolic r) → q.reference? = some r →
      P earlier (.query q) s.pathCondition.clauses) :
    ((e.recording stack).decideLoad s v).Meets ses
      (fun alternatives ses' => AskedProperly P ses' ∧ ∀ a ∈ alternatives, DecidesFor v none a)
      fun _ ses' => AskedProperly P ses' := by
  unfold decideLoad
  rw [meets_bind, Session.meets_count]
  split
  · rename_i r hr
    obtain ⟨rfl, -⟩ := unresolved?_eq_some hr
    have hcounted :
        AskedProperly P { ses with statistics := ses.statistics.addDecisionPoint } := h
    rw [meets_bind]
    refine (sync_holding hkeeps hcounted).mono (fun _ ses' ⟨h', _⟩ => ?_) fun _ _ hp => hp
    exact referenceAlternatives_proper hkeeps h' fun earlier q _ hq => hP earlier q r rfl hq
  · exact ⟨h, decidesFor_loads v none⟩

theorem memberAlternatives_proper {v : Value} {access : ArrayAccess}
    (h : Holding stack P held (some access.guard) ses)
    (hP : ∀ earlier q r, v = .reference (.symbolic r) →
      earlier.lastCondition? = some access.guard → q.reference? = some r →
        P earlier (.query q) (held ++ [.assume access.guard])) :
    ((e.recording stack).memberAlternatives s v access).Meets ses
      (fun alternatives ses' => AskedProperly P ses' ∧
        ∀ a ∈ alternatives, DecidesFor v (some access) a)
      fun _ ses' => AskedProperly P ses' := by
  unfold memberAlternatives
  split
  · rename_i r hr
    obtain ⟨rfl, -⟩ := unresolved?_eq_some hr
    rw [meets_bind]
    refine (push_holding hkeeps _ h).mono (fun _ ses' h' => ?_) fun _ _ hp => hp
    exact referenceAlternatives_proper hkeeps h' fun earlier q hlast hq =>
      hP earlier q r rfl hlast hq
  · exact ⟨h.proper, decidesFor_loads v (some access)⟩

/-- An alternative that belongs to an outcome of an array access. -/
def BelongsTo (a : ArrayObject) (index : Term) (outcome : AccessOutcome) (b : Alternative) : Prop :=
  (∃ access, b.access = some access ∧ access.guard = outcome.guard) ∧
    ∀ r className, b.decision = .expands r className → outcome.Yields a index r

omit hkeeps in
theorem unrecordedMember_yields {a : ArrayObject} {index : Term} (guard : Term)
    {good : (Value × Bool) × State → Session (Recorded ω) τ → Prop}
    {bad : Fault → Session (Recorded ω) τ → Prop}
    (hgood : ∀ v fresh n,
      (∀ r, v = .reference (.symbolic r) → (AccessOutcome.unknown guard).Yields a index r) →
        good ((v, fresh), s.withSymbols n) ses)
    (hbad : ∀ fault, bad fault ses) :
    (unrecordedMember s a index).Meets ses good bad := by
  unfold unrecordedMember
  split
  · rename_i container horigin
    rw [meets_bind, meets_onState]
    refine State.meets_createSymbol (fun v hv => hgood v true _ ?_) fun _ _ _ => hbad _
    rintro r rfl
    cases hv with
    | reference _ _ => exact ⟨container, horigin, rfl⟩
  · simp only [meets_bind, meets_ofExcept]
    refine ⟨fun v hv => hgood v false s.nextSymbol ?_, fun fault _ => hbad fault⟩
    rintro r rfl
    -- A default value is a constant or null.
    simp only [ArrayObject.defaultMember, Value.default, mapError_eq_ok] at hv
    split at hv
    · cases hv
    · split at hv <;> cases hv

theorem outcomeAlternatives_proper {address : Nat} {a : ArrayObject} {index : Term}
    {outcome : AccessOutcome}
    (h : Holding stack P s.pathCondition.clauses (some outcome.guard) ses)
    (hP : ∀ earlier q r, earlier.lastCondition? = some outcome.guard → outcome.Yields a index r →
      q.reference? = some r →
        P earlier (.query q) (s.pathCondition.clauses ++ [.assume outcome.guard])) :
    ((e.recording stack).outcomeAlternatives s address a index outcome).Meets ses
      (fun result ses' => AskedProperly P ses' ∧ (∃ n, result.1 = s.withSymbols n) ∧
        ∀ b ∈ result.2, BelongsTo a index outcome b)
      fun _ ses' => AskedProperly P ses' := by
  cases outcome with
  | outOfRange guard =>
    refine ⟨h.proper, ⟨s.nextSymbol, rfl⟩, fun b hb => ?_⟩
    cases List.mem_singleton.1 hb
    exact ⟨⟨_, rfl, rfl⟩, nofun⟩
  | entry guard v =>
    unfold outcomeAlternatives
    rw [meets_bind, meets_mapError]
    refine (memberAlternatives_proper hkeeps h fun earlier q r hv hlast hq =>
      hP earlier q r hlast hv hq).mono (fun alternatives ses' ⟨h', hall⟩ => ?_) fun _ _ hp => hp
    refine ⟨h', ⟨s.nextSymbol, rfl⟩, fun b hb => ?_⟩
    exact ⟨⟨_, (hall b hb).1, rfl⟩, (hall b hb).2⟩
  | unknown guard =>
    unfold outcomeAlternatives
    rw [meets_bind]
    refine unrecordedMember_yields guard (fun v fresh n hyields => ?_) fun _ => h.proper
    rw [meets_bind, meets_mapError]
    refine (memberAlternatives_proper hkeeps h fun earlier q r hv hlast hq =>
      hP earlier q r hlast (hyields r hv) hq).mono (fun alternatives ses' ⟨h', hall⟩ => ?_)
      fun _ _ hp => hp
    refine ⟨h', ⟨n, rfl⟩, fun b hb => ?_⟩
    exact ⟨⟨_, (hall b hb).1, rfl⟩, fun r className hr => hyields r ((hall b hb).2 r className hr)⟩

theorem decideOutcomes_proper {address : Nat} {a : ArrayObject} {index : Term}
    {outcomes : List AccessOutcome} (h : AskedProperly P ses)
    (hask : ∀ outcome ∈ outcomes, ∀ earlier,
      P earlier (.query (.sat outcome.guard)) s.pathCondition.clauses)
    (hmember : ∀ outcome ∈ outcomes, ∀ earlier q r, earlier.lastCondition? = some outcome.guard →
      outcome.Yields a index r → q.reference? = some r →
        P earlier (.query q) (s.pathCondition.clauses ++ [.assume outcome.guard])) :
    ((e.recording stack).decideOutcomes address a index s outcomes).Meets ses
      (fun result ses' => AskedProperly P ses' ∧ (∃ n, result.1 = s.withSymbols n) ∧
        ∀ b ∈ result.2, ∃ outcome ∈ outcomes, BelongsTo a index outcome b)
      fun _ ses' => AskedProperly P ses' := by
  -- Whatever an earlier outcome pushed is gone after the next hand-over.
  induction outcomes generalizing s ses with
  | nil => exact ⟨h, ⟨s.nextSymbol, rfl⟩, nofun⟩
  | cons outcome rest ih =>
    have hrest := fun o ho => hask o (List.mem_cons_of_mem outcome ho)
    have hrest' := fun o ho => hmember o (List.mem_cons_of_mem outcome ho)
    unfold decideOutcomes
    rw [meets_bind, meets_mapError]
    refine (sync_holding hkeeps h).mono (fun _ ses₁ ⟨h₁, _⟩ => ?_) fun _ _ hp => hp
    rw [meets_bind, meets_mapError]
    refine (query_holding hkeeps _ h₁ (hask outcome List.mem_cons_self _)).mono
      (fun verdict ses₂ ⟨hproper, hheld, hasked⟩ => ?_) fun _ _ hp => hp
    cases verdict with
    | false =>
      refine (ih hproper hrest hrest').mono (fun result ses₃ ⟨h₃, hn, hall⟩ => ?_) fun _ _ hp => hp
      refine ⟨h₃, hn, fun b hb => ?_⟩
      obtain ⟨o, ho, hbelongs⟩ := hall b hb
      exact ⟨o, List.mem_cons_of_mem _ ho, hbelongs⟩
    | true =>
      have h₂ : Holding stack P s.pathCondition.clauses (some outcome.guard) ses₂ :=
        ⟨hproper, hheld, by rw [hasked]; rfl⟩
      rw [if_pos rfl, meets_bind]
      refine (outcomeAlternatives_proper hkeeps h₂ (hmember outcome List.mem_cons_self)).mono
        (fun here ses₃ ⟨h₃, ⟨n, hn⟩, hhere⟩ => ?_) fun _ _ hp => hp
      obtain ⟨s', here⟩ := here
      cases hn
      rw [meets_bind]
      refine (ih (s := s.withSymbols n) h₃ hrest hrest').mono
        (fun others ses₄ ⟨h₄, ⟨m, hm⟩, hothers⟩ => ?_) fun _ _ hp => hp
      refine ⟨h₄, ⟨m, hm⟩, fun b hb => ?_⟩
      rcases List.mem_append.1 hb with hb | hb
      · exact ⟨outcome, List.mem_cons_self, hhere b hb⟩
      · obtain ⟨o, ho, hbelongs⟩ := hothers b hb
        exact ⟨o, List.mem_cons_of_mem _ ho, hbelongs⟩

end Engine

end SymbolicMachine
