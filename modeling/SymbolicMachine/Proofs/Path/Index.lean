import SymbolicMachine.Path.Condition
/-!
# The index of a path condition

Clauses are added to a path condition one after another, and some of them are refused.  Whatever
the history was, the clauses are the accepted ones in order, and the index finds for a reference
the one clause among them that decides it.
-/
namespace SymbolicMachine

/-- Whether two clauses decide the target of the same reference. -/
def Clause.Clash (c d : Clause) : Prop := ∃ id, c.decided? = some id ∧ d.decided? = some id

namespace PathCondition

/-- Tries to add the clauses in order, and gives the outcome of each attempt. -/
def pushAll (p : PathCondition) : List Clause → List (Except MemoryError Unit) × PathCondition
  | [] => ([], p)
  | c :: cs =>
    let pushed := (pushing c).run p
    let rest := pushAll pushed.2 cs
    (pushed.1 :: rest.1, rest.2)

/-- The clauses whose attempt succeeded, in order. -/
def accepted (cs : List Clause) (outcomes : List (Except MemoryError Unit)) : List Clause :=
  (cs.zip outcomes).filterMap fun attempt =>
    match attempt.2 with
    | .ok () => some attempt.1
    | .error _ => none

/-! ## One clause -/

/-- A clause comes last, or it clashes with one that is there, names the reference, and changes
nothing. -/
theorem run_pushing (p : PathCondition) (c : Clause) :
    (∃ q, (pushing c).run p = (.ok (), q) ∧ q.clauses = p.clauses ++ [c] ∧
      ∀ d ∈ p.clauses, ¬c.Clash d) ∨
    ∃ e, (pushing c).run p = (.error e, p) ∧ c.decided?.map .alreadyResolved = some e ∧
      ∃ d ∈ p.clauses, c.Clash d := by
  cases hpush : p.push c with
  | ok q =>
    left
    have hrun : (pushing c).run p = (.ok (), q) := by
      simp [pushing, Action.run_bind, hpush]
    refine ⟨q, hrun, clauses_of_push hpush, ?_⟩
    intro d hd hclash
    obtain ⟨id, hc, hid⟩ := hclash
    obtain ⟨r, hr, rfl⟩ := Clause.decided?_eq_some_iff.1 hc
    have hfree := isResolved_eq_false_of_push hpush hr
    have hresolved := isResolved_iff.2 ⟨d, resolution?_eq_some_iff.2 ⟨hd, hid⟩⟩
    rw [hfree] at hresolved
    cases hresolved
  | error e =>
    right
    have hrun : (pushing c).run p = (.error e, p) := by
      simp [pushing, Action.run_bind, hpush]
    obtain ⟨r, hr, hresolved, rfl⟩ := push_eq_error_iff.1 hpush
    obtain ⟨d, hd⟩ := isResolved_iff.1 hresolved
    obtain ⟨hmem, hid⟩ := resolution?_eq_some_iff.1 hd
    have hc : c.decided? = some r.id := Clause.decided?_eq_some_iff.2 ⟨r, hr, rfl⟩
    exact ⟨_, hrun, by rw [hc]; rfl, d, hmem, r.id, hc, hid⟩

/-! ## Histories -/

theorem length_pushAll (p : PathCondition) (cs : List Clause) :
    (p.pushAll cs).1.length = cs.length := by
  induction cs generalizing p with
  | nil => rfl
  | cons c rest ih => simp [pushAll, ih]

theorem clauses_pushAll (p : PathCondition) (cs : List Clause) :
    (p.pushAll cs).2.clauses = p.clauses ++ accepted cs (p.pushAll cs).1 := by
  induction cs generalizing p with
  | nil => simp [pushAll, accepted]
  | cons c rest ih =>
    have hrest := ih ((pushing c).run p).2
    rcases run_pushing p c with ⟨q, hrun, hclauses, -⟩ | ⟨e, hrun, -⟩
    · rw [hrun] at hrest
      simp only [pushAll, hrun, hrest, hclauses]
      simp [accepted]
    · rw [hrun] at hrest
      simp only [pushAll, hrun, hrest]
      simp [accepted]

/-- An attempt fails for a clash with a clause that was accepted before it. -/
theorem outcome_pushAll {p : PathCondition} {cs : List Clause} {k : Nat} {c : Clause}
    (hc : cs[k]? = some c) :
    (∃ e, (p.pushAll cs).1[k]? = some (.error e)) ↔
      ∃ d ∈ (p.pushAll (cs.take k)).2.clauses, c.Clash d := by
  induction cs generalizing p k with
  | nil => cases hc
  | cons b rest ih =>
    cases k with
    | zero =>
      have hbc : b = c := Option.some.inj hc
      subst hbc
      rcases run_pushing p b with ⟨q, hrun, -, hapart⟩ | ⟨e, hrun, -, hclash⟩
      · simpa [pushAll, hrun] using hapart
      · simpa [pushAll, hrun] using hclash
    | succ k => exact ih hc

/-- A failed attempt names the reference of its clause, and leaves what there was. -/
theorem failure_pushAll {p : PathCondition} {cs : List Clause} {k : Nat} {c : Clause}
    {e : MemoryError} (hc : cs[k]? = some c) (he : (p.pushAll cs).1[k]? = some (.error e)) :
    c.decided?.map .alreadyResolved = some e ∧
      (p.pushAll (cs.take (k + 1))).2 = (p.pushAll (cs.take k)).2 := by
  induction cs generalizing p k with
  | nil => cases hc
  | cons b rest ih =>
    cases k with
    | zero =>
      have hbc : b = c := Option.some.inj hc
      subst hbc
      rcases run_pushing p b with ⟨q, hrun, -, -⟩ | ⟨e', hrun, hnames, -⟩
      · simp [pushAll, hrun] at he
      · have hee : e' = e := by simpa [pushAll, hrun] using he
        subst hee
        exact ⟨hnames, by simp [pushAll, hrun]⟩
    | succ k => exact ih hc he

theorem outcomes_take (p : PathCondition) (cs : List Clause) (k : Nat) :
    (p.pushAll (cs.take k)).1 = (p.pushAll cs).1.take k := by
  induction cs generalizing p k with
  | nil => simp [pushAll]
  | cons c rest ih =>
    cases k with
    | zero => rfl
    | succ k => simp [pushAll, ih]

/-! ## The index -/

/-- The index has one position for a reference. -/
theorem clauses_apart (p : PathCondition) : p.clauses.Pairwise fun c d => ¬c.Clash d := by
  rw [List.pairwise_iff_getElem]
  intro i j hi hj hij hclash
  obtain ⟨id, hc, hd⟩ := hclash
  have hfirst := (p.indexed id i).2 ⟨_, List.getElem?_eq_getElem hi, hc⟩
  have hsecond := (p.indexed id j).2 ⟨_, List.getElem?_eq_getElem hj, hd⟩
  rw [hfirst, Option.some.injEq] at hsecond
  omega

theorem filter_decided?_eq (p : PathCondition) (r : RefSymbol) :
    p.clauses.filter (fun c => c.decided? = some r.id) = (p.resolution? r).toList := by
  have hmem : ∀ c, c ∈ p.clauses.filter (fun c => c.decided? = some r.id) ↔
      p.resolution? r = some c := by
    simp [resolution?_eq_some_iff]
  have hapart := p.clauses_apart.filter fun c => c.decided? = some r.id
  cases hfound : p.clauses.filter fun c => c.decided? = some r.id with
  | nil =>
    have hnone : p.resolution? r = none := by
      refine Option.eq_none_iff_forall_ne_some.2 fun c hc => ?_
      have hin := (hmem c).2 hc
      rw [hfound] at hin
      cases hin
    rw [hnone]
    rfl
  | cons c others =>
    have hc : p.resolution? r = some c := (hmem c).1 (hfound ▸ List.mem_cons_self)
    have halone : others = [] := by
      refine List.eq_nil_iff_forall_not_mem.2 fun d hd => ?_
      have hd' : p.resolution? r = some d := (hmem d).1 (hfound ▸ List.mem_cons_of_mem c hd)
      rw [hfound] at hapart
      exact List.rel_of_pairwise_cons hapart hd
        ⟨r.id, (resolution?_eq_some_iff.1 hc).2, (resolution?_eq_some_iff.1 hd').2⟩
    rw [hc, halone]
    rfl

/-- After any history of attempts the clauses are the accepted ones in order, an attempt failed
for a clash with one that was accepted before it and changed nothing, and the index finds for a
reference the one clause that decides it. -/
theorem resolutions_mirror_accepted_clauses (cs : List Clause) :
    let outcomes := (empty.pushAll cs).1
    let p := (empty.pushAll cs).2
    outcomes.length = cs.length ∧ p.clauses = accepted cs outcomes ∧
      (∀ k c, cs[k]? = some c →
        ((∃ e, outcomes[k]? = some (.error e)) ↔
          ∃ d ∈ accepted (cs.take k) (outcomes.take k), c.Clash d) ∧
        ∀ e, outcomes[k]? = some (.error e) →
          c.decided?.map .alreadyResolved = some e ∧
            (empty.pushAll (cs.take (k + 1))).2 = (empty.pushAll (cs.take k)).2) ∧
      ∀ r, p.clauses.filter (fun c => c.decided? = some r.id) = (p.resolution? r).toList ∧
        p.isResolved r = (p.resolution? r).isSome := by
  intro outcomes p
  have hclauses : ∀ cs, (empty.pushAll cs).2.clauses = accepted cs (empty.pushAll cs).1 :=
    clauses_pushAll empty
  refine ⟨length_pushAll empty cs, hclauses cs, ?_, ?_⟩
  · intro k c hc
    rw [← outcomes_take, ← hclauses]
    exact ⟨outcome_pushAll hc, fun e he => failure_pushAll hc he⟩
  · intro r
    exact ⟨p.filter_decided?_eq r, p.isResolved_eq r⟩

/-- The second of two decisions about a reference is refused. -/
example :
    let r : RefSymbol := ⟨2, "app/Node", .root "n"⟩
    let history := empty.pushAll [.initialized "app/Node", .isNull r, .aliases r 1]
    history.1 = [.ok (), .ok (), .error (.alreadyResolved 2)] ∧
      history.2.resolution? r = some (.isNull r) :=
  ⟨rfl, rfl⟩

end PathCondition

end SymbolicMachine
