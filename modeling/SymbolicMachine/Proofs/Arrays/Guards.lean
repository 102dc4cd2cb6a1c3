import SymbolicMachine.Heap.ArrayObject
import SymbolicMachine.Proofs.Inputs.Partition
import SymbolicMachine.Proofs.Terms.Evaluation
/-!
# The guards of an array access

Under an interpretation the index of an access is a number, and so are the length of the array and
the indices of its records.  Exactly one of the outcomes of an access happens: the one of the latest
record with the number of the index, or that there is no record of it, or that it is out of bounds.
Neither folding nor the outcomes that are left out since their guard is literally false change
this.
-/
namespace SymbolicMachine

variable {I : Interpretation}

/-! ## Conditions -/

/-- A term that is a number of type `int` under every interpretation. -/
structure Term.IsInt (t : Term) : Prop where
  wellTyped : t.WellTyped
  type_eq : t.type = .int

/-- The number that a term of type `int` stands for. -/
def Term.number (I : Interpretation) (t : Term) : Int := (t.eval I).toInt?.getD 0

/-- A term is a condition, and holds just if a proposition does. -/
structure Term.Says (I : Interpretation) (c : Term) (p : Prop) : Prop where
  wellTyped : c.WellTyped
  type_eq : c.type = .boolean
  holds : c.eval I = .boolean true ↔ p

namespace Term

variable {a b : Term} {p q : Prop}

theorem isInt_ofInt (n : Int32) : (ofInt n).IsInt := ⟨trivial, rfl⟩

@[simp] theorem number_ofInt (n : Int32) : (ofInt n).number I = n.toInt := rfl

theorem IsInt.exists_eval (h : a.IsInt) (I : Interpretation) :
    ∃ n, a.eval I = .int n ∧ a.number I = n.toInt := by
  have ht := type_eval I h.wellTyped
  rw [h.type_eq] at ht
  unfold number
  cases hv : a.eval I with
  | int n => exact ⟨n, rfl, rfl⟩
  | _ =>
    rw [hv] at ht
    cases ht

theorem Says.congr (h : a.Says I p) (hpq : p ↔ q) : a.Says I q :=
  ⟨h.wellTyped, h.type_eq, h.holds.trans hpq⟩

theorem says_true (I : Interpretation) : (ofBool true).Says I True :=
  ⟨trivial, rfl, by simp [ofBool, eval]⟩

/-- Comparing two numbers gives a condition. -/
theorem exists_compare (op : BinaryOp) (hop : op.isComparison = true) (ha : a.IsInt)
    (hb : b.IsInt) :
    ∃ c, applyBinary (.binary op) a b = .ok c ∧
      c.Says I (op.compares (a.number I) (b.number I) = true) := by
  have htype : b.type = a.type := hb.type_eq.trans ha.type_eq.symm
  have hresult : op.result? a.type = some .boolean := by
    rw [ha.type_eq]
    cases op <;> first | rfl | cases hop
  obtain ⟨hwell, hboolean, heval⟩ := foldBinary_spec ha.wellTyped hb.wellTyped htype hresult
  refine ⟨foldBinary op .boolean a b, ?_, hwell, hboolean, ?_⟩
  · simp only [applyBinary, if_pos htype, hresult]
  · obtain ⟨x, hx, hxn⟩ := ha.exists_eval I
    obtain ⟨y, hy, hyn⟩ := hb.exists_eval I
    rw [heval, hx, hy, hxn, hyn]
    simp [Constant.binaryValue, Constant.toInt?, hop]

theorem exists_and (ha : a.Says I p) (hb : b.Says I q) :
    ∃ c, mkAnd a b = .ok c ∧ c.Says I (p ∧ q) := by
  have htype : b.type = a.type := hb.type_eq.trans ha.type_eq.symm
  have hresult : BinaryOp.and.result? a.type = some .boolean := by
    rw [ha.type_eq]
    rfl
  obtain ⟨hwell, hboolean, heval⟩ := foldBinary_spec ha.wellTyped hb.wellTyped htype hresult
  refine ⟨foldBinary .and .boolean a b, ?_, hwell, hboolean, ?_⟩
  · simp only [mkAnd, applyBinary, if_pos htype, hresult]
  · rw [← ha.holds, ← hb.holds, heval]
    obtain ⟨x, hx⟩ := exists_eval_eq_boolean I ha.wellTyped ha.type_eq
    obtain ⟨y, hy⟩ := exists_eval_eq_boolean I hb.wellTyped hb.type_eq
    rw [hx, hy]
    simp [Constant.binaryValue, BinaryOp.onBools]

theorem exists_not (ha : a.Says I p) : ∃ c, mkNot a = .ok c ∧ c.Says I ¬p := by
  have haccepts : UnaryOp.not.accepts a.type = true := by
    rw [ha.type_eq]
    rfl
  obtain ⟨hwell, htype, heval⟩ := foldUnary_spec ha.wellTyped haccepts
  refine ⟨foldUnary .not a, by simp only [mkNot, applyUnary, if_pos haccepts], hwell,
    htype.trans ha.type_eq, ?_⟩
  rw [← ha.holds, heval]
  obtain ⟨x, hx⟩ := exists_eval_eq_boolean I ha.wellTyped ha.type_eq
  rw [hx]
  simp [Constant.unaryValue]

/-- A condition that is literally `true` holds. -/
theorem eval_of_isTrue (h : a.isTrue = true) : a.eval I = .boolean true := by
  have hsome : a.bool? = some true := by simpa [isTrue] using h
  rw [eq_of_bool?_eq_some hsome]
  rfl

/-- A condition that is literally `false` does not hold. -/
theorem eval_of_isFalse (h : a.isFalse = true) : a.eval I = .boolean false := by
  have hsome : a.bool? = some false := by simpa [isFalse] using h
  rw [eq_of_bool?_eq_some hsome]
  rfl

end Term

/-! ## Records -/

namespace ArrayObject

/-- The value of the latest record whose index is a number. -/
def recordedIn (I : Interpretation) (n : Int) : List ArrayEntry → Option Value
  | [] => none
  | e :: later => (recordedIn I n later).or (if e.index.number I = n then some e.value else none)

/-- The value that an array has recorded last at a number. -/
def recorded? (a : ArrayObject) (I : Interpretation) (n : Int) : Option Value :=
  recordedIn I n a.entries

/-- Whether a number is the position of a member. -/
def Within (a : ArrayObject) (I : Interpretation) (n : Int) : Prop :=
  0 ≤ n ∧ n < a.length.number I

variable {a : ArrayObject} {bounds index : Term} {n : Int} {p : Prop}

theorem recordedIn_append (l m : List ArrayEntry) :
    recordedIn I n (l ++ m) = (recordedIn I n m).or (recordedIn I n l) := by
  induction l with
  | nil => simp [recordedIn]
  | cons e rest ih => simp only [List.cons_append, recordedIn, ih, Option.or_assoc]

theorem recordedIn_eq_none_iff {entries : List ArrayEntry} :
    recordedIn I n entries = none ↔ ∀ e ∈ entries, e.index.number I ≠ n := by
  induction entries with
  | nil => simp [recordedIn]
  | cons e later ih => simp [recordedIn, ih, and_comm]

/-- Taking out records of other numbers changes nothing. -/
theorem recordedIn_filter {keep : ArrayEntry → Bool} {entries : List ArrayEntry}
    (h : ∀ e ∈ entries, keep e = false → e.index.number I ≠ n) :
    recordedIn I n (entries.filter keep) = recordedIn I n entries := by
  induction entries with
  | nil => rfl
  | cons e later ih =>
    have hlater := ih fun e' he' => h e' (List.mem_cons_of_mem _ he')
    by_cases hkeep : keep e = true
    · rw [List.filter_cons_of_pos hkeep, recordedIn, recordedIn, hlater]
    · have hne := h e List.mem_cons_self (Bool.eq_false_iff.2 hkeep)
      rw [List.filter_cons_of_neg hkeep, recordedIn, hlater, if_neg hne, Option.or_none]

theorem exists_mem_of_recordedIn {entries : List ArrayEntry} {v : Value}
    (h : recordedIn I n entries = some v) : ∃ e ∈ entries, e.value = v := by
  induction entries with
  | nil => cases h
  | cons e later ih =>
    unfold recordedIn at h
    rcases Option.or_eq_some_iff.1 h with h | ⟨-, h⟩
    · obtain ⟨e', he', hv⟩ := ih h
      exact ⟨e', List.mem_cons_of_mem _ he', hv⟩
    · split at h
      · cases h
        exact ⟨e, List.mem_cons_self, rfl⟩
      · cases h

/-- A write is what is read at its number from then on, and nothing else changes, if the records
that give way to it have its number. -/
theorem recorded?_set (v : Value)
    (hsame : ∀ e ∈ a.entries, (e.index == index) = true → e.index.number I = index.number I) :
    (a.set index v).recorded? I n =
      if index.number I = n then some v else a.recorded? I n := by
  change recordedIn I n (a.entries.filter (fun e => !(e.index == index)) ++ [⟨index, v⟩]) = _
  rw [recordedIn_append]
  simp only [recordedIn, Option.none_or]
  split
  · rfl
  · rename_i hne
    rw [Option.none_or]
    refine recordedIn_filter fun e he hequal => ?_
    have hequal' : (e.index == index) = true := by simpa using hequal
    rw [hsame e he hequal']
    exact hne

/-! ## Outcomes -/

end ArrayObject

/-- The guard of an outcome holds. -/
def AccessOutcome.Happens (I : Interpretation) (o : AccessOutcome) : Prop :=
  o.guard.eval I = .boolean true

/-- The guard of an outcome can be assumed. -/
structure AccessOutcome.Guarded (o : AccessOutcome) : Prop where
  wellTyped : o.guard.WellTyped
  type_eq : o.guard.type = .boolean

/-- What an outcome says about the access of an array at a number. -/
def AccessOutcome.Describes (I : Interpretation) (a : ArrayObject) (n : Int) :
    AccessOutcome → Prop
  | .entry _ v => a.Within I n ∧ a.recorded? I n = some v
  | .unknown _ => a.Within I n ∧ a.recorded? I n = none
  | .outOfRange _ => ¬a.Within I n

namespace ArrayObject

variable {a : ArrayObject} {bounds index : Term} {p : Prop}

open AccessOutcome (Happens Guarded Describes)

theorem exists_misses {first : Term} {entries : List ArrayEntry} (hindex : index.IsInt)
    (hentries : ∀ e ∈ entries, e.index.IsInt) (hfirst : first.Says I p) :
    ∃ terms c, misses index entries = .ok terms ∧ Term.mkAllOnto first terms = .ok c ∧
      c.Says I (p ∧ recordedIn I (index.number I) entries = none) := by
  induction entries generalizing first p with
  | nil => exact ⟨[], first, rfl, rfl, hfirst.congr (by simp [recordedIn])⟩
  | cons e rest ih =>
    obtain ⟨missed, hmissed, hmeans⟩ :=
      Term.exists_compare (I := I) .ne rfl hindex (hentries e List.mem_cons_self)
    obtain ⟨next, hnext, hboth⟩ := Term.exists_and hfirst hmeans
    obtain ⟨terms, c, hterms, hall, hc⟩ :=
      ih (fun e' he' => hentries e' (List.mem_cons_of_mem _ he')) hboth
    refine ⟨missed :: terms, c, ?_, ?_, hc.congr ?_⟩
    · exact bind_eq_ok.2 ⟨missed, hmissed, bind_eq_ok.2 ⟨terms, hterms, rfl⟩⟩
    · unfold Term.mkAllOnto
      rw [hnext]
      exact hall
    · rw [recordedIn_eq_none_iff, recordedIn_eq_none_iff, List.forall_mem_cons, and_assoc]
      simp only [BinaryOp.compares, decide_eq_true_eq, ne_comm]

theorem exists_inBounds (hlength : a.length.IsInt) (hindex : index.IsInt) :
    ∃ c, a.inBounds index = .ok c ∧ c.Says I (a.Within I (index.number I)) := by
  obtain ⟨low, hlow, hsaysLow⟩ :=
    Term.exists_compare (I := I) .ge rfl hindex (Term.isInt_ofInt 0)
  obtain ⟨high, hhigh, hsaysHigh⟩ := Term.exists_compare (I := I) .lt rfl hindex hlength
  obtain ⟨c, hc, hmeans⟩ := Term.exists_and hsaysLow hsaysHigh
  refine ⟨c, bind_eq_ok.2 ⟨low, hlow, bind_eq_ok.2 ⟨high, hhigh, hc⟩⟩, hmeans.congr ?_⟩
  simp only [BinaryOp.compares, decide_eq_true_eq]
  rfl

/-- An outcome that happens is not left out. -/
theorem possible_of_happens {o : AccessOutcome} (h : o.Happens I) : possible o = [o] := by
  unfold possible
  rw [if_neg]
  intro hfalse
  unfold Happens at h
  rw [Term.eval_of_isFalse hfalse] at h
  cases h

theorem exactlyOne_possible {o : AccessOutcome} (h : o.Happens I) :
    ExactlyOne (Happens I) (possible o) := by
  rw [possible_of_happens h]
  exact .here h nofun

theorem not_happens_possible {o : AccessOutcome} (h : ¬o.Happens I) :
    ∀ o' ∈ possible o, ¬o'.Happens I := by
  intro o' ho'
  rw [eq_of_mem_possible ho']
  exact h

theorem guarded_possible {o : AccessOutcome} (h : o.guard.Says I p) :
    ∀ o' ∈ possible o, o'.Guarded := by
  intro o' ho'
  rw [eq_of_mem_possible ho']
  exact ⟨h.wellTyped, h.type_eq⟩

/-- The outcomes of a list of records start with that of the oldest, which happens if the record
is at the index and none of the later ones is. -/
theorem exists_entryOutcomes_cons {e : ArrayEntry} {later : List ArrayEntry}
    {others : List AccessOutcome} (hbounds : bounds.Says I p) (hindex : index.IsInt)
    (hentries : ∀ e' ∈ e :: later, e'.index.IsInt)
    (hothers : entryOutcomes bounds index later = .ok others) :
    ∃ guard, entryOutcomes bounds index (e :: later) =
        .ok (possible (.entry guard e.value) ++ others) ∧
      guard.Says I (p ∧ e.index.number I = index.number I ∧
        recordedIn I (index.number I) later = none) := by
  obtain ⟨hentry, hlater⟩ := List.forall_mem_cons.1 hentries
  obtain ⟨hit, hhit, hsaysHit⟩ := Term.exists_compare (I := I) .eq rfl hindex hentry
  obtain ⟨missed, latest, hmissed, hlatest, hsaysLatest⟩ :=
    exists_misses hindex hlater (Term.says_true I)
  obtain ⟨here, hhere, hsaysHere⟩ := Term.exists_and hbounds hsaysHit
  obtain ⟨guard, hguard, hmeans⟩ := Term.exists_and hsaysHere hsaysLatest
  refine ⟨guard, ?_, hmeans.congr ?_⟩
  · exact bind_eq_ok.2 ⟨hit, hhit, bind_eq_ok.2 ⟨missed, hmissed, bind_eq_ok.2 ⟨here, hhere,
      bind_eq_ok.2 ⟨latest, hlatest, bind_eq_ok.2 ⟨guard, hguard,
        bind_eq_ok.2 ⟨others, hothers, rfl⟩⟩⟩⟩⟩⟩
  · simp only [BinaryOp.compares, decide_eq_true_eq, true_and, and_assoc]
    rw [eq_comm (a := index.number I)]

/-- The outcomes that hit a record: in bounds, the latest record at the index happens and no
other. -/
theorem entryOutcomes_spec {entries : List ArrayEntry} (hbounds : bounds.Says I p)
    (hindex : index.IsInt) (hentries : ∀ e ∈ entries, e.index.IsInt) :
    ∃ outcomes, entryOutcomes bounds index entries = .ok outcomes ∧
      (∀ o ∈ outcomes, o.Guarded) ∧
      (∀ o ∈ outcomes, o.Happens I →
        p ∧ ∃ guard v, o = .entry guard v ∧ recordedIn I (index.number I) entries = some v) ∧
      (p → recordedIn I (index.number I) entries ≠ none → ExactlyOne (Happens I) outcomes) := by
  induction entries with
  | nil =>
    exact ⟨[], rfl, List.forall_mem_nil _, List.forall_mem_nil _, fun _ h => absurd rfl h⟩
  | cons e later ih =>
    obtain ⟨others, hothers, hguarded, hdescribes, hone⟩ := ih (List.forall_mem_cons.1 hentries).2
    obtain ⟨guard, houtcomes, hmeans⟩ := exists_entryOutcomes_cons hbounds hindex hentries hothers
    have hhappens : (AccessOutcome.entry guard e.value).Happens I ↔ _ := hmeans.holds
    refine ⟨_, houtcomes, ?_, ?_, ?_⟩
    · exact List.forall_mem_append.2 ⟨guarded_possible hmeans, hguarded⟩
    · intro o ho ho'
      rcases List.mem_append.1 ho with ho | ho
      · obtain rfl := eq_of_mem_possible ho
        obtain ⟨hp, hindex', hnone⟩ := hhappens.1 ho'
        exact ⟨hp, guard, e.value, rfl, by rw [recordedIn, hnone, if_pos hindex', Option.none_or]⟩
      · obtain ⟨hp, g, v, rfl, hv⟩ := hdescribes o ho ho'
        exact ⟨hp, g, v, rfl, by rw [recordedIn, hv, Option.some_or]⟩
    · intro hp hsome
      cases hrecorded : recordedIn I (index.number I) later with
      | some v =>
        -- A later record takes precedence.
        have hnot : ¬(AccessOutcome.entry guard e.value).Happens I := by
          rw [hhappens, hrecorded]
          exact fun h => Option.some_ne_none v h.2.2
        have hlaterOne := hone hp (hrecorded ▸ Option.some_ne_none v)
        exact .append_right (not_happens_possible hnot) hlaterOne
      | none =>
        have hindex' : e.index.number I = index.number I := by
          by_contra hne
          rw [recordedIn, hrecorded, if_neg hne] at hsome
          exact hsome rfl
        have hyes := hhappens.2 ⟨hp, hindex', hrecorded⟩
        refine (exactlyOne_possible hyes).append_left fun o ho ho' => ?_
        obtain ⟨-, g, v, -, hv⟩ := hdescribes o ho ho'
        rw [hrecorded] at hv
        cases hv

/-- Of hits that happen for a record, an outcome that happens without one, and an outcome that
happens out of bounds, exactly one happens. -/
theorem exactlyOne_outcomes {hits : List AccessOutcome} {unknown outside : AccessOutcome}
    {record : Option Value} (hhits : ∀ o ∈ hits, o.Happens I → p ∧ record ≠ none)
    (hone : p → record ≠ none → ExactlyOne (Happens I) hits)
    (hunknown : unknown.Happens I ↔ p ∧ record = none) (houtside : outside.Happens I ↔ ¬p) :
    ExactlyOne (Happens I) (hits ++ possible unknown ++ possible outside) := by
  by_cases hp : p
  · have hinside : ∀ o ∈ possible outside, ¬o.Happens I :=
      not_happens_possible fun h => houtside.1 h hp
    by_cases hrecord : record = none
    · have hmiss : ∀ o ∈ hits, ¬o.Happens I := fun o ho ho' => (hhits o ho ho').2 hrecord
      have hyes := exactlyOne_possible (hunknown.2 ⟨hp, hrecord⟩)
      exact (ExactlyOne.append_right hmiss hyes).append_left hinside
    · have hknown := not_happens_possible fun h => hrecord (hunknown.1 h).2
      exact ((hone hp hrecord).append_left hknown).append_left hinside
  · have hno : ∀ o ∈ hits ++ possible unknown, ¬o.Happens I :=
      List.forall_mem_append.2 ⟨fun o ho ho' => hp (hhits o ho ho').1,
        not_happens_possible fun h => hp (hunknown.1 h).1⟩
    exact .append_right hno (exactlyOne_possible (houtside.2 hp))

/-- Reading an array at a number gives outcomes of which exactly one happens, and that one says
what is so. -/
theorem get_spec (I : Interpretation) (hlength : a.length.IsInt)
    (hentries : ∀ e ∈ a.entries, e.index.IsInt) (hindex : index.IsInt) :
    ∃ outcomes, a.get index = .ok outcomes ∧ (∀ o ∈ outcomes, o.Guarded) ∧
      ExactlyOne (Happens I) outcomes ∧
      ∀ o ∈ outcomes, o.Happens I → o.Describes I a (index.number I) := by
  obtain ⟨bounds, hbounds, hsaysBounds⟩ := exists_inBounds (I := I) hlength hindex
  obtain ⟨hits, hhits, hguarded, hdescribes, hone⟩ :=
    entryOutcomes_spec hsaysBounds hindex hentries
  obtain ⟨missed, none, hmissed, hnone, hsaysNone⟩ :=
    exists_misses hindex hentries (Term.says_true I)
  obtain ⟨unrecorded, hunrecorded, hsaysUnrecorded⟩ := Term.exists_and hsaysBounds hsaysNone
  obtain ⟨outside, houtside, hsaysOutside⟩ := Term.exists_not hsaysBounds
  have hunknown : (AccessOutcome.unknown unrecorded).Happens I ↔
      a.Within I (index.number I) ∧ a.recorded? I (index.number I) = .none :=
    hsaysUnrecorded.holds.trans (by simp [recorded?])
  have houtOfRange : (AccessOutcome.outOfRange outside).Happens I ↔
      ¬a.Within I (index.number I) := hsaysOutside.holds
  refine ⟨hits ++ possible (.unknown unrecorded) ++ possible (.outOfRange outside), ?_, ?_, ?_, ?_⟩
  · exact bind_eq_ok.2 ⟨bounds, hbounds, bind_eq_ok.2 ⟨hits, hhits, bind_eq_ok.2 ⟨missed, hmissed,
      bind_eq_ok.2 ⟨none, hnone, bind_eq_ok.2 ⟨unrecorded, hunrecorded,
        bind_eq_ok.2 ⟨outside, houtside, rfl⟩⟩⟩⟩⟩⟩
  · exact List.forall_mem_append.2 ⟨List.forall_mem_append.2
      ⟨hguarded, guarded_possible hsaysUnrecorded⟩, guarded_possible hsaysOutside⟩
  · refine exactlyOne_outcomes (fun o ho ho' => ?_) hone hunknown houtOfRange
    obtain ⟨hwithin, g, v, -, hv⟩ := hdescribes o ho ho'
    exact ⟨hwithin, hv.trans_ne (Option.some_ne_none v)⟩
  · intro o ho ho'
    rcases List.mem_append.1 ho with ho | ho
    · rcases List.mem_append.1 ho with ho | ho
      · obtain ⟨hwithin, g, v, rfl, hv⟩ := hdescribes o ho ho'
        exact ⟨hwithin, hv⟩
      · obtain rfl := eq_of_mem_possible ho
        exact hunknown.1 ho'
    · obtain rfl := eq_of_mem_possible ho
      exact houtOfRange.1 ho'

end ArrayObject

end SymbolicMachine
