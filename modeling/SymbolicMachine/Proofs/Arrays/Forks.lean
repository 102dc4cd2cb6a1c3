import SymbolicMachine.Proofs.Arrays.Sizes
/-!
# Forks on terms

An array load forks on where the index is, and making an array on the sign of the length.  Along a
path of steps, of stores and of moves of operands, every interpretation that satisfies a path
condition goes on in exactly one of the successors, and there it finds what is in the array: what
was written or read last at the number of the index.
-/
namespace SymbolicMachine

open SymbolicMachine.Action

variable {ω τ ε α : Type}

/-- A value was made the latest record of an array at the number of an index, and nothing else was
changed. -/
structure State.Stores (s : State) (I : Interpretation) (address : Nat) (index : Term) (v : Value)
    (t : State) : Prop where
  array : ∃ a b : ArrayObject, s.heap.get address = .ok (.array a) ∧
    t.heap.get address = .ok (.array b) ∧
    b.className = a.className ∧ b.origin = a.origin ∧ b.length = a.length ∧
    ∀ n, b.recorded? I n = if index.number I = n then some v else a.recorded? I n
  others : ∀ b, b ≠ address → t.heap.get b = s.heap.get b
  rest : t = s.withHeap t.heap

namespace Engine

variable {e : Engine ω τ} {s : State} {known : Symbol → Prop}

/-- What an action establishes with its result, if it has one, which it has under a condition. -/
theorem outcome_of_meets {σ : Type} {m : Action σ ε α} {w : σ} {good : α → Prop} {p : Prop}
    (h : m.Meets w (fun a _ => good a) fun _ _ => ¬p) :
    (∀ a, (m.run w).1 = .ok a → good a) ∧ (p → ∃ a, (m.run w).1 = .ok a) := by
  rcases hrun : m.run w with ⟨error | a, w'⟩
  · exact ⟨nofun, fun hp => absurd hp (h.of_error hrun)⟩
  · refine ⟨?_, fun _ => ⟨a, rfl⟩⟩
    rintro _ ⟨⟩
    exact h.of_ok hrun

theorem arraySet_stores (htyped : Typed known s []) {address : Nat} {index : Term} {v : Value}
    (hindex : index.IsIndex known) (I : Interpretation) {t : State}
    (hrun : (State.arraySet address index v).run s = (.ok (), t)) :
    s.Stores I address index v t := by
  have hmeets : (State.arraySet address index v).Meets s
      (fun _ t => s.Stores I address index v t) fun _ _ => True := by
    refine State.meets_arraySet (fun k hk => ?_) fun _ _ => trivial
    obtain ⟨a, ha, heq⟩ := bind_eq_ok.1 hk
    cases heq
    have hat := Heap.getArray_eq_ok.1 ha
    refine
      { array := ⟨a, a.set index v, hat, Heap.get_insertAt_self _ _ _, rfl, rfl, rfl, fun n => ?_⟩
        others := fun b hb => Heap.get_insertAt_of_ne _ hb _
        rest := rfl }
    refine ArrayObject.recorded?_set v fun entry hentry hsame => ?_
    have hold := (htyped.heap hat).indices a rfl entry hentry
    rw [Term.eq_of_same htyped.numbering hold.known hindex.known hsame]
  exact hmeets.of_ok hrun

/-- Wherever a path gets to, an interpretation that satisfies the path condition satisfies that of
exactly one successor of an array load, if the oracle does not reject what can be satisfied; that
one throws if the index is out of bounds, and has the member on its operand stack if not.  The
member is what was stored last at the number of the index.  In the same way exactly one successor of
making an array is satisfied, by the sign of the length. -/
theorem forks_on_terms_partition_interpretations (htriggers : e.triggers = .absent τ)
    (hs : e.GetsTo s known) (hrejects : e.oracle.NeverRejects s.pathCondition.clauses)
    (I : Interpretation) :
    (∀ (x : MemberRead) (ses : Session ω τ), x.Pending s → I.Satisfies s.pathCondition.clauses →
      (∀ successors, ((e.step .arrayLoad s).run ses).1 = .ok successors →
        I.Selects successors (x.Outcome I s)) ∧
      (e.Steady → ∃ successors, ((e.step .arrayLoad s).run ses).1 = .ok successors)) ∧
    (∀ address index v t, index.IsIndex known →
      (State.arraySet address index v).run s = (.ok (), t) → s.Stores I address index v t) ∧
    ∀ (x : ArrayMaking) (ses : Session ω τ), x.Pending s → I.Satisfies s.pathCondition.clauses →
      (∀ successors, ((e.step x.instruction s).run ses).1 = .ok successors →
        I.Selects successors (x.Outcome I s)) ∧
      (e.Steady → ∃ successors, ((e.step x.instruction s).run ses).1 = .ok successors) := by
  have htyped := hs.typed htriggers
  refine ⟨fun x ses hx hsat => ?_, fun address index v t hindex hrun => ?_, fun x ses hx hsat => ?_⟩
  · exact outcome_of_meets (arrayLoad_selects htriggers hrejects htyped hx hsat)
  · exact arraySet_stores htyped hindex I hrun
  · exact outcome_of_meets (newArray_selects hrejects hx hsat htyped)

/-! ## A read behind a write -/

/-- The parameters of a method that takes an array and an index. -/
def arrayParameter : RefSymbol := ⟨0, "[I", .root "arg0"⟩

def indexParameter : Symbol := ⟨1, .int, .root "arg1"⟩

/-- The frame of the method, with a program counter and some operands. -/
def indexedFrame (pc : Nat) (operands : List Value) : Frame :=
  { method := ⟨"Main", "run", "([II)V"⟩
    code := [0, 0, 0]
    pc := pc
    operands := ⟨operands, 4⟩
    locals := ⟨[some (.reference (.symbolic arrayParameter)),
      some (.primitive (.symbol indexParameter))], []⟩ }

def indexedRoot : State := (State.root.withSymbols 2).pushFrame (indexedFrame 0 [])

theorem initialState_indexedRoot :
    (permissive .initial).initialState ⟨"Main", "run", "([II)V"⟩ true [0, 0, 0] 2 [] 4 =
      .ok indexedRoot := by
  have hparameters : Descriptor.parameterTypes "([II)V" = .ok ["[I", "I"] := by cbv
  simp only [initialState, createInputs, hparameters]
  rfl

/-- The read of the first member, after seven was written at the index. -/
def firstMember : MemberRead :=
  { frame := indexedFrame 1
      [.primitive (.ofInt 0), .reference (.symbolic arrayParameter)]
    rest := []
    below := []
    index := .ofInt 0
    reference := .symbolic arrayParameter
    address := 1
    array := ⟨"[I", some arrayParameter, .symbol ⟨2, .int, .length arrayParameter⟩,
      [⟨.symbol indexParameter, .primitive (.ofInt 7)⟩]⟩
    type := .int }

/-- The index is zero, and the array has five members. -/
def fiveMembers : Interpretation :=
  Interpretation.zero.assign fun x => if x.id = indexParameter.id then .int 0 else .int 5

theorem exists_pending_firstMember :
    ∃ s known, (permissive .initial).GetsTo s known ∧ firstMember.Pending s ∧
      fiveMembers.Satisfies s.pathCondition.clauses := by
  have hroot : (permissive .initial).GetsTo indexedRoot indexedRoot.Has :=
    .start initialState_indexedRoot
  have hrun : ((permissive .initial).step (.loadLocal 0 1) indexedRoot).run (.start [] ()) = _ :=
    rfl
  have hload := hroot.step hrun (.tail _ (.head _))
  have hindex : indexedRoot.Has indexParameter :=
    .shown (.slot (.head _) (.tail _ (.head _))) (.head _)
  have hstore := hload.store (v := .primitive (.ofInt 7))
    ⟨Term.over_symbol (.inl hindex), rfl⟩ (Term.over_constant _)
    (show (State.arraySet 1 (.symbol indexParameter) (.primitive (.ofInt 7))).run _ = _ from rfl)
  have hpush := hstore.push (v := .primitive (.ofInt 0)) (Term.over_constant _)
    (show (State.pushOperand (.primitive (.ofInt 0))).run _ = _ from rfl)
  refine ⟨_, _, hpush, ⟨rfl, rfl, rfl, rfl, rfl, by cbv, ?_⟩, ?_⟩
  · intro entry hentry
    cases List.mem_singleton.1 hentry
    exact ⟨_, rfl⟩
  · intro t ht
    rcases List.mem_cons.1 ht with ht | ht
    · cases ht
    · cases List.mem_singleton.1 ht
      rfl

/-- What was written at an index is read back at zero, if the index is zero. -/
theorem write_is_read_back_at_equal_number :
    let e := permissive .initial
    ∃ s known successors t, e.GetsTo s known ∧ firstMember.Pending s ∧
      ((e.step .arrayLoad s).run (.start [] ())).1 = .ok successors ∧ t ∈ successors ∧
      fiveMembers.Satisfies t.pathCondition.clauses ∧ ¬s.ThrowsNew t indexOutOfBounds ∧
      firstMember.Yields fiveMembers s t (.ofInt 7) := by
  intro e
  obtain ⟨s, known, hs, hpending, hsat⟩ := exists_pending_firstMember
  have hforks := forks_on_terms_partition_interpretations rfl hs
    (Oracle.permissive_neverRejects _) fiveMembers
  obtain ⟨hselects, hsucceeds⟩ := hforks.1 firstMember (.start [] ()) hpending hsat
  obtain ⟨successors, hrun⟩ := hsucceeds (permissive_undisturbed .initial).toSteady
  obtain ⟨hone, hgood⟩ := hselects successors hrun
  obtain ⟨t, ht, hsatt⟩ := hone.exists_mem
  have hadvance : firstMember.CanAdvance := show 1 + 1 < 3 by decide
  have hwithin : firstMember.array.Within fiveMembers (firstMember.index.number fiveMembers) := by
    constructor <;> decide
  obtain ⟨hthrows, hyields⟩ := hgood t ht hsatt hadvance
  obtain ⟨u, hu⟩ := hyields hwithin
  have hrecorded : firstMember.array.recorded? fiveMembers
      (firstMember.index.number fiveMembers) = some (.primitive (.ofInt 7)) := rfl
  have hseven : u = .ofInt 7 := by
    cases hu.member with
    | recorded h =>
      rw [hrecorded] at h
      cases h
      rfl
    | input h _ _ | default h _ =>
      rw [hrecorded] at h
      cases h
  exact ⟨s, known, successors, t, hs, hpending, hrun, ht, hsatt,
    mt hthrows.1 (not_not_intro hwithin), hseven ▸ hu⟩

end Engine

end SymbolicMachine
