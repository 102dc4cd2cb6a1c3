import SymbolicMachine.Proofs.Arrays.Loads
/-!
# Making arrays

Of the successors of making an array, an interpretation that satisfies the path condition satisfies
the path condition of exactly one.  That one throws if the length is negative, and otherwise has a
new array of this length on its operand stack.
-/
namespace SymbolicMachine

open SymbolicMachine.Action

variable {ω τ : Type}

/-- An array that is about to be made: the frame that has the length on its operand stack, and the
frames and the operands below. -/
structure ArrayMaking where
  frame : Frame
  rest : List Frame
  below : List Value
  length : Term
  memberType : String

namespace ArrayMaking

/-- A state is about to make an array. -/
structure Pending (x : ArrayMaking) (s : State) : Prop where
  frames : s.frames = x.frame :: x.rest
  operands : x.frame.operands.operands = .primitive x.length :: x.below
  length : x.length.type = .int

def instruction (x : ArrayMaking) : Instruction := .newArray x.memberType

/-- There is code behind the instruction. -/
def CanAdvance (x : ArrayMaking) : Prop :=
  x.frame.pc + x.instruction.length < x.frame.code.length

/-- The frame without the length. -/
def taken (x : ArrayMaking) : Frame :=
  { x.frame with operands := { x.frame.operands with operands := x.below } }

/-- The state without the length on the operand stack. -/
def working (x : ArrayMaking) (s : State) : State := s.withFrames (x.taken :: x.rest)

/-- The array, in which nothing is on record. -/
def object (x : ArrayMaking) : HeapObject :=
  .array (.create ("[" ++ x.memberType) none x.length)

/-- The frame with an array on the operand stack, behind the instruction. -/
def made (x : ArrayMaking) (address : Nat) : Frame :=
  { x.frame with
    pc := x.frame.pc + x.instruction.length
    operands := { x.frame.operands with operands := .reference (.concrete address) :: x.below } }

/-- A new array was made and pushed, and then the program went on. -/
structure Makes (x : ArrayMaking) (s t : State) : Prop where
  ending : t.ending = s.ending
  heap : t.heap = (s.heap.allocate x.object).2
  frames : t.frames = x.made s.heap.next :: x.rest

/-- Whether the length has a sign. -/
def IsNegative (x : ArrayMaking) (I : Interpretation) (negative : Bool) : Prop :=
  if negative then x.length.number I < 0 else 0 ≤ x.length.number I

/-- What happens for a length that is negative or not. -/
def Effect (x : ArrayMaking) (s t : State) (negative : Bool) : Prop :=
  if negative then s.ThrowsNew t negativeArraySize else x.CanAdvance → x.Makes s t

/-- What making an array comes to: an exception if the length is negative, and otherwise the
array. -/
def Outcome (x : ArrayMaking) (I : Interpretation) (s t : State) : Prop :=
  x.CanAdvance →
    (s.ThrowsNew t negativeArraySize ↔ x.length.number I < 0) ∧
      (0 ≤ x.length.number I → x.Makes s t)

end ArrayMaking

namespace Engine

variable {e : Engine ω τ} {s : State} {ses : Session ω τ} {x : ArrayMaking} {I : Interpretation}

/-- A state from which the length was taken, on the way to the array. -/
structure Making (x : ArrayMaking) (s : State) (clauses : List Clause) (w : State) : Prop where
  frames : w.frames = x.taken :: x.rest
  ending : w.ending = s.ending
  heap : w.heap = s.heap
  clauses_eq : w.pathCondition.clauses = clauses

/-- A successor under some assumptions. -/
structure Forks (x : ArrayMaking) (s : State) (clauses : List Clause) (negative : Bool)
    (t : State) : Prop where
  clauses_eq : t.pathCondition.clauses = clauses
  effect : x.Effect s t negative

section Forks

variable {w t : State} {clauses : List Clause} {negative : Bool}

theorem forks_place (h : Forks x s clauses negative t) (branches : List Nat) (sequence : Nat) :
    Forks x s clauses negative { t with branches := branches, sequence := sequence } where
  clauses_eq := h.clauses_eq
  effect := by
    have heffect := h.effect
    unfold ArrayMaking.Effect at heffect ⊢
    split at heffect
    · rw [if_pos ‹_›]
      exact heffect
    · rw [if_neg ‹_›]
      exact fun hadvance => { heffect hadvance with }

theorem forks_successorOf (h : Forks x s clauses negative t) (branching : Bool) (number : Nat) :
    Forks x s clauses negative (successorOf t branching number) := by
  unfold successorOf
  split
  · exact forks_place h _ _
  · exact forks_place h _ _

theorem forks_throwNew (hw : Making x s clauses w) :
    Forks x s clauses true (w.throwNew negativeArraySize).2 :=
  ⟨hw.clauses_eq, State.throwsNew_throwNew hw.heap _⟩

/-- Where the program cannot go on, an exception for that does no harm. -/
theorem forks_of_not_canAdvance (hclauses : t.pathCondition.clauses = clauses)
    (houtside : ¬x.CanAdvance) : Forks x s clauses false t :=
  ⟨hclauses, fun hadvance => absurd hadvance houtside⟩

theorem allocateArray_forks (hw : Making x s clauses w)
    (hroom : x.below.length + 1 ≤ x.frame.operands.maxDepth) :
    (allocateArray ("[" ++ x.memberType) x.length x.instruction.length).Meets w
      (fun _ t => Forks x s clauses false t)
      fun error t => error.isEngineFault = false ∧ ¬x.CanAdvance ∧
        t.pathCondition.clauses = clauses := by
  unfold allocateArray pushAllocated
  rw [meets_bind]
  have hframes : (w.withHeap (w.heap.allocate x.object).2).frames = x.taken :: x.rest := hw.frames
  change Meets _ (w.withHeap (w.heap.allocate x.object).2) _ _
  rw [meets_bind]
  refine (State.meets_pushOperand_cons hframes hroom).2 ?_
  refine State.meets_incPc_cons rfl (fun _ => ⟨hw.clauses_eq, fun _ => ⟨hw.ending, ?_, ?_⟩⟩) ?_
  · change (w.heap.allocate x.object).2 = _
    rw [hw.heap]
  · change _ :: _ = _
    rw [← hw.heap]
    rfl
  · exact fun error houtside hmild => ⟨hmild, houtside, hw.clauses_eq⟩

theorem assume_making (hw : Making x s clauses w) {condition : Term}
    (hcondition : condition.type = .boolean) {bad : MemoryError → State → Prop} :
    (State.assume condition).Meets w
      (fun _ t => Making x s (clauses ++ [.assume condition]) t) bad := by
  unfold State.assume
  rw [if_pos hcondition]
  refine State.meets_assumeClause (fun p hp => ?_) nofun
  exact { hw with
    clauses_eq := by
      change p.clauses = _
      rw [PathCondition.clauses_of_push hp, hw.clauses_eq] }

/-- A fork whose update succeeds, or fails for want of more code. -/
theorem exists_settled_of_meets {m : State.Update Unit} {good : State → Prop}
    (h : m.Meets w (fun _ t => good t)
      fun error t => error.isEngineFault = false ∧ good t.throwVerifyError.2) :
    ∃ t, settled w m = .ok t ∧ good t := by
  unfold settled
  unfold Meets at h
  split at h
  · rename_i t hrun
    rw [hrun]
    exact ⟨t, rfl, h⟩
  · rename_i error t hrun
    rw [hrun]
    obtain ⟨hmild, hgood⟩ := h
    exact ⟨t.throwVerifyError.2, by simp [Fault.settle, hmild], hgood⟩

theorem negativeFork_forks (hw : Making x s clauses w) {condition : Term}
    (hcondition : condition.type = .boolean) :
    ∃ t, negativeFork w condition = .ok t ∧
      Forks x s (clauses ++ [.assume condition]) true t := by
  refine exists_settled_of_meets ?_
  rw [meets_bind]
  exact (assume_making hw hcondition).mono (fun _ t ht => forks_throwNew ht) fun _ _ h => h

theorem nonnegativeFork_forks (hw : Making x s clauses w) {condition : Term}
    (hcondition : condition.type = .boolean)
    (hroom : x.below.length + 1 ≤ x.frame.operands.maxDepth) :
    ∃ t, nonnegativeFork w condition ("[" ++ x.memberType) x.length x.instruction.length = .ok t ∧
      Forks x s (clauses ++ [.assume condition]) false t := by
  refine exists_settled_of_meets ?_
  rw [meets_bind]
  refine (assume_making hw hcondition).mono (fun _ t ht => ?_) fun _ _ h => h
  refine (allocateArray_forks ht hroom).mono (fun _ _ h => h) fun error u h => ?_
  obtain ⟨hmild, houtside, hclauses⟩ := h
  exact ⟨hmild, forks_of_not_canAdvance hclauses houtside⟩

end Forks

/-! ## Steps -/

/-- The fork for a condition, unless it is not satisfied. -/
theorem forkIf_sifted {clauses : List Clause} (hrejects : e.oracle.NeverRejects clauses)
    (hholds : e.oracle.Holds clauses ses.oracle) (hsat : I.Satisfies clauses) {condition : Term}
    {fork : Except ExecutionError State} {t : State} (hfork : fork = .ok t) :
    (e.forkIf condition fork).Meets ses
      (fun forks ses' => e.oracle.Holds clauses ses'.oracle ∧
        (forks = [t] ∨ forks = [] ∧ condition.eval I ≠ .boolean true))
      fun fault _ => e.Disturbed fault := by
  unfold forkIf
  rw [meets_bind]
  refine meets_sat_unless hrejects hholds fun verdict ses' hholds' hverdict => ?_
  cases verdict with
  | true =>
    subst hfork
    exact ⟨hholds', .inl rfl⟩
  | false => exact ⟨hholds', .inr ⟨rfl, hverdict rfl I hsat⟩⟩

theorem sifted_numbered {p : Bool → Prop} {clauses : Bool → List Clause} {l : List Bool}
    {forks : List State} (h : Sifted p (fun b => Forks x s (clauses b) b) l forks)
    (branching : Bool) (number : Nat) :
    Sifted p (fun b => Forks x s (clauses b) b) l (numbered branching number forks) := by
  induction h generalizing number with
  | nil => exact .nil
  | keep hab _ ih => exact .keep (forks_successorOf hab _ _) (ih (number + 1))
  | drop ha _ ih => exact .drop ha (ih number)

/-- A successor for the sign of the length is what making the array comes to. -/
theorem outcome_of_forks {clauses : List Clause} {negative : Bool} {t : State}
    (h : Forks x s clauses negative t) (hsign : x.IsNegative I negative) : x.Outcome I s t := by
  intro hadvance
  have heffect := h.effect
  cases negative with
  | true =>
    have hnegative : x.length.number I < 0 := hsign
    exact ⟨iff_of_true heffect hnegative, fun h => absurd h (Int.not_le.2 hnegative)⟩
  | false =>
    have hnonnegative : 0 ≤ x.length.number I := hsign
    have hmakes : x.Makes s t := heffect hadvance
    refine ⟨iff_of_false ?_ (Int.not_lt.2 hnonnegative), fun _ => hmakes⟩
    rintro ⟨-, i, hi, -⟩
    have hobject : t.heap.get s.heap.next = .ok x.object := by
      rw [hmakes.heap]
      exact s.heap.get_allocate_self _
    cases hobject.symm.trans hi

theorem selects_single (hsat : I.Satisfies s.pathCondition.clauses) {negative : Bool}
    (hsign : x.IsNegative I negative) {t : State}
    (h : Forks x s s.pathCondition.clauses negative t) : I.Selects [t] (x.Outcome I s) := by
  refine ⟨.here (by rw [h.clauses_eq]; exact hsat) nofun, fun u hu _ => ?_⟩
  cases List.mem_singleton.1 hu
  exact outcome_of_forks h hsign

theorem selects_sifted (hsat : I.Satisfies s.pathCondition.clauses) {condition : Bool → Term}
    (hcondition : ∀ b, (condition b).Says I (x.IsNegative I b)) {successors : List State}
    (h : Sifted (x.IsNegative I)
      (fun b => Forks x s (s.pathCondition.clauses ++ [.assume (condition b)]) b) [true, false]
      successors) : I.Selects successors (x.Outcome I s) := by
  have hsatisfies : ∀ b t, Forks x s (s.pathCondition.clauses ++ [.assume (condition b)]) b t →
      (x.IsNegative I b ↔ I.Satisfies t.pathCondition.clauses) := by
    intro b t ht
    rw [ht.clauses_eq, Interpretation.satisfies_append_assume, (hcondition b).holds]
    exact (and_iff_right hsat).symm
  have hone : ExactlyOne (x.IsNegative I) [true, false] := by
    by_cases hnegative : x.length.number I < 0
    · refine .here hnegative fun b hb => ?_
      cases List.mem_singleton.1 hb
      exact Int.not_le.2 hnegative
    · exact .later hnegative (.here (Int.not_lt.1 hnegative) nofun)
  refine ⟨h.exactlyOne hsatisfies hone, fun t ht hsatt => ?_⟩
  obtain ⟨b, -, hforks⟩ := h.exists_left ht
  exact outcome_of_forks hforks ((hsatisfies b t hforks).2 hsatt)

theorem exists_eq_ofInt {t : Term} {c : Constant} (htype : t.type = .int)
    (hc : t.constant? = some c) : ∃ n : Int32, t = .ofInt n ∧ c = .int n := by
  cases t with
  | constant d =>
    cases hc
    cases c with
    | int n => exact ⟨n, rfl, rfl⟩
    | _ => cases htype
  | _ => cases hc

theorem isNegative_iff (n : Int32) : isNegative (.int n) = true ↔ n.toInt < 0 := by
  simp only [isNegative, Constant.toInt64?, decide_eq_true_eq, Int64.lt_iff_toInt_lt,
    Int32.toInt_toInt64]
  rfl

/-- The sign of a length that is known is the sign of its number. -/
theorem isNegative_of_ofInt {n : Int32} (hlength : x.length = .ofInt n) :
    x.IsNegative I (isNegative (.int n)) := by
  have hnumber : x.length.number I = n.toInt := by rw [hlength, Term.number_ofInt]
  unfold ArrayMaking.IsNegative
  rw [hnumber]
  split
  · exact (isNegative_iff n).1 ‹_›
  · exact Int.not_lt.1 (mt (isNegative_iff n).2 ‹_›)

section Steps

variable (hrejects : e.oracle.NeverRejects s.pathCondition.clauses) (hx : x.Pending s)
  (hsat : I.Satisfies s.pathCondition.clauses)

theorem making_working (x : ArrayMaking) (s : State) :
    Making x s s.pathCondition.clauses (x.working s) := ⟨rfl, rfl, rfl, rfl⟩

include hrejects hsat in
theorem forkOnLength_selects (hlength : x.length.IsInt)
    (hroom : x.below.length + 1 ≤ x.frame.operands.maxDepth) :
    (e.forkOnLength (x.working s) ("[" ++ x.memberType) x.length x.instruction.length).Meets ses
      (fun result _ => ∃ successors,
        result = .forked successors ∧ I.Selects successors (x.Outcome I s))
      fun fault _ => e.Disturbed fault := by
  obtain ⟨negative, hnegative, hsaysNegative⟩ :=
    Term.exists_compare (I := I) .lt rfl hlength (Term.isInt_ofInt 0)
  obtain ⟨nonnegative, hnonnegative, hsaysNonnegative⟩ :=
    Term.exists_compare (I := I) .ge rfl hlength (Term.isInt_ofInt 0)
  have hcondition : ∀ b : Bool,
      (if b then negative else nonnegative).Says I (x.IsNegative I b) := by
    intro b
    cases b with
    | true =>
      refine hsaysNegative.congr ?_
      simp only [BinaryOp.compares, decide_eq_true_eq]
      rfl
    | false =>
      refine hsaysNonnegative.congr ?_
      simp only [BinaryOp.compares, decide_eq_true_eq]
      rfl
  obtain ⟨t, ht, htforks⟩ := negativeFork_forks (making_working x s) hsaysNegative.type_eq
  obtain ⟨u, hu, huforks⟩ :=
    nonnegativeFork_forks (making_working x s) hsaysNonnegative.type_eq hroom
  unfold forkOnLength
  rw [meets_bind, Session.meets_count, meets_bind]
  refine meets_sync_unless fun ses' hholds => ?_
  change Meets (checked (Term.applyBinary _ _ _) >>= fun negative => _) _ _ _
  rw [meets_bind, hnegative, meets_checked_ok]
  change Meets (checked (Term.applyBinary _ _ _) >>= fun nonnegative => _) _ _ _
  rw [meets_bind, hnonnegative, meets_checked_ok, meets_bind]
  refine (forkIf_sifted hrejects hholds hsat ht).mono ?_ fun _ _ h => h
  rintro failing ses₁ ⟨hholds₁, hfailing⟩
  rw [meets_bind]
  refine (forkIf_sifted hrejects hholds₁ hsat hu).mono ?_ fun _ _ h => h
  rintro passing ses₂ ⟨-, hpassing⟩
  refine ⟨_, rfl, selects_sifted hsat hcondition ?_⟩
  refine sifted_numbered ?_ _ _
  have hno : ∀ b : Bool, (if b then negative else nonnegative).eval I ≠ .boolean true →
      ¬x.IsNegative I b := fun b h hb => h ((hcondition b).holds.2 hb)
  rcases hfailing with rfl | ⟨rfl, hfailing⟩ <;> rcases hpassing with rfl | ⟨rfl, hpassing⟩
  · exact .keep htforks (.keep huforks .nil)
  · exact .keep htforks (.drop (hno false hpassing) .nil)
  · exact .drop (hno true hfailing) (.keep huforks .nil)
  · exact .drop (hno true hfailing) (.drop (hno false hpassing) .nil)

include hrejects hx hsat in
/-- Of the successors of making an array, an interpretation that satisfies the path condition
satisfies exactly one, and that one is as the sign of the length is under the interpretation. -/
theorem newArray_selects {known : Symbol → Prop} (htyped : Typed known s []) :
    (e.step x.instruction s).Meets ses (fun successors _ => I.Selects successors (x.Outcome I s))
      fun _ _ => ¬e.Steady := by
  have hf := htyped.frames x.frame (hx.frames ▸ List.mem_cons_self)
  have hover : (Value.primitive x.length).Over known :=
    hf.operands _ (hx.operands ▸ List.mem_cons_self)
  have hlength : x.length.IsInt := ⟨hover.wellTyped, hx.length⟩
  have hroom : x.below.length + 1 ≤ x.frame.operands.maxDepth := by
    have hdepth := hf.depth
    rwa [hx.operands] at hdepth
  have hplace : ∀ {negative t}, Forks x s s.pathCondition.clauses negative t →
      Forks x s s.pathCondition.clauses negative t.incSequence := fun h => forks_place h _ _
  refine meets_execute ?_
  change Meets (e.newArray x.memberType s) _ _ _
  unfold newArray
  rw [meets_bind, meets_popInt_cons hx.frames hx.operands hx.length]
  dsimp only
  -- The oracle is asked only about a length that is not known.
  split
  · rename_i c hc
    obtain ⟨n, hn, rfl⟩ := exists_eq_ofInt hx.length hc
    have hsign : x.IsNegative I (isNegative (.int n)) := isNegative_of_ofInt hn
    split
    · rename_i hnegative
      rw [hnegative] at hsign
      exact selects_single hsat hsign (hplace (forks_throwNew (making_working x s)))
    · rename_i hnonnegative
      rw [Bool.eq_false_iff.2 hnonnegative] at hsign
      have hallocate := allocateArray_forks (making_working x s) hroom
      rw [hn] at hallocate
      rw [meets_bind, meets_onState]
      refine hallocate.mono (fun _ t ht => selects_single hsat hsign (hplace ht)) ?_
      -- Without code behind the instruction the failure is settled, and the sign still decides.
      rintro error t ⟨hmild, houtside, -⟩
      change Meets (ofExcept ((Fault.memory error).settle s) >>= fun failed => single failed) _ _ _
      simp only [Fault.settle, hmild, Bool.false_eq_true, if_false]
      exact selects_single hsat hsign (hplace (forks_of_not_canAdvance rfl houtside))
  · refine (forkOnLength_selects hrejects hsat hlength hroom).mono ?_ fun _ _ h => h.conclude
    rintro _ ses' ⟨successors, rfl, hselects⟩
    exact hselects

end Steps

end Engine

end SymbolicMachine
