import SymbolicMachine.Proofs.Oracle.Recording
import SymbolicMachine.Proofs.State.Operations
/-!
# Sites

All states of an exploration share one oracle, and all outcomes of an array access share its
assumptions.  Nothing takes an assumption back: whoever asks next replaces them all.  `Site` says
under which assumptions a step may ask which question.
-/
namespace SymbolicMachine

open SymbolicMachine.Action

variable {ω τ : Type}

/-! ## Where a step asks -/

def Query.reference? : Query → Option RefSymbol
  | .null r => some r
  | .aliases r _ _ => some r
  | .expands r _ => some r
  | _ => none

def State.operands (s : State) : List Value :=
  match s.frames with
  | f :: _ => f.operands.operands
  | [] => []

theorem State.operands_of_frames {s : State} {f : Frame} {rest : List Frame}
    (h : s.frames = f :: rest) : s.operands = f.operands.operands := by
  unfold operands
  rw [h]

theorem State.exists_frame_of_operands {s : State} {v : Value} {below : List Value}
    (h : s.operands = v :: below) :
    ∃ f rest, s.frames = f :: rest ∧ f.operands.operands = v :: below := by
  obtain ⟨f, rest, hframes⟩ : ∃ f rest, s.frames = f :: rest := by
    refine List.exists_cons_of_ne_nil fun hnil => ?_
    rw [operands, hnil] at h
    cases h
  exact ⟨f, rest, hframes, (operands_of_frames hframes).symm.trans h⟩

/-- The symbolic reference that an instruction is about to load from a slot or a field. -/
inductive Loads (s : State) : Instruction → RefSymbol → Prop
  | slot {slot length : Nat} {r : RefSymbol}
      (h : s.getLocal slot = .ok (.reference (.symbolic r))) : Loads s (.loadLocal slot length) r
  | field {name : String} {r : RefSymbol} {target : Reference} {below : List Value}
      {address : Nat} {o : HeapObject} (htop : s.operands = .reference target :: below)
      (htarget : s.deref target = .ok (some address)) (ho : s.getObject address = .ok o)
      (h : o.getField name = .ok (.reference (.symbolic r))) : Loads s (.getField name) r

/-- The array and the index that are on top of the operand stack, and an outcome of the access. -/
structure Accesses (s : State) (a : ArrayObject) (index : Term) (outcome : AccessOutcome) :
    Prop where
  operands : ∃ target below address, s.operands = .primitive index :: .reference target :: below ∧
    s.deref target = .ok (some address) ∧ s.getArray address = .ok a
  outcome : ∃ outcomes, a.get index = .ok outcomes ∧ outcome ∈ outcomes

/-- An outcome of an access reads a symbolic reference: a recorded one, or one that is made for
the member. -/
def AccessOutcome.Yields (a : ArrayObject) (index : Term) (r : RefSymbol) : AccessOutcome → Prop
  | .entry _ v => v = .reference (.symbolic r)
  | .unknown _ => ∃ container, a.origin = some container ∧ r.origin = .member container index
  | .outOfRange _ => False

/-- What a successor assumes for a guard: nothing, if it is literally `true`. -/
def guardClauses (guard : Term) : List Clause := if guard.isTrue then [] else [.assume guard]

def NonnegativeLength (r : RefSymbol) (condition : Term) : Prop :=
  ∃ id, (Term.symbol ⟨id, .int, .length r⟩).mkGe (.ofInt 0) = .ok condition

/-- A question that an instruction may put to the oracle after what it asked before, and the
assumptions held at that time. -/
inductive Site (s : State) : Instruction → Log → Question → List Clause → Prop
  /-- What is the target of a loaded reference? -/
  | target {i : Instruction} {earlier : Log} {r : RefSymbol} {q : Query} (hload : Loads s i r)
      (hq : q.reference? = some r) : Site s i earlier (.query q) s.pathCondition.clauses
  /-- Can an outcome of an array access happen? -/
  | outcome {earlier : Log} {a : ArrayObject} {index : Term} {outcome : AccessOutcome}
      (haccess : Accesses s a index outcome) :
      Site s .arrayLoad earlier (.query (.sat outcome.guard)) s.pathCondition.clauses
  /-- What is the target of the member that is read if the outcome asked for last happens? -/
  | member {earlier : Log} {a : ArrayObject} {index : Term} {outcome : AccessOutcome}
      {r : RefSymbol} {q : Query} (haccess : Accesses s a index outcome)
      (hlast : earlier.lastCondition? = some outcome.guard) (hr : outcome.Yields a index r)
      (hq : q.reference? = some r) :
      Site s .arrayLoad earlier (.query q) (s.pathCondition.clauses ++ [.assume outcome.guard])
  /-- Can the class of a new instance have been initialized before the start, or not? -/
  | initialization {earlier : Log} {className : String} {q : Query}
      (hq : q = .initialized className ∨ q = .notInitialized className) :
      Site s (.newInstance className) earlier (.query q) s.pathCondition.clauses
  /-- Can the length of a new array be negative, or not? -/
  | length {earlier : Log} {memberType : String} {length condition : Term} {below : List Value}
      (htop : s.operands = .primitive length :: below)
      (hsign : length.mkLt (.ofInt 0) = .ok condition ∨ length.mkGe (.ofInt 0) = .ok condition) :
      Site s (.newArray memberType) earlier (.query (.sat condition)) s.pathCondition.clauses
  /-- The length of an array that a loaded reference was just bound to. -/
  | expanded {i : Instruction} {earlier : Log} {r : RefSymbol} {className : String}
      {condition : Term} (hload : Loads s i r) (hc : Descriptor.isArray className = true)
      (hlength : NonnegativeLength r condition) :
      Site s i earlier (.simplify condition)
        (s.pathCondition.clauses ++ [.expands r s.heap.next className])
  /-- The length of an array that a member was just bound to, under the guard of its outcome. -/
  | expandedMember {earlier : Log} {a : ArrayObject} {index : Term} {outcome : AccessOutcome}
      {r : RefSymbol} {className : String} {condition : Term}
      (haccess : Accesses s a index outcome) (hr : outcome.Yields a index r)
      (hc : Descriptor.isArray className = true) (hlength : NonnegativeLength r condition) :
      Site s .arrayLoad earlier (.simplify condition)
        (s.pathCondition.clauses ++ guardClauses outcome.guard ++
          [.expands r s.heap.next className])

/-! ## Services of the oracle -/

section Services

variable {e : Engine ω τ} {stack : ω → List Clause} {P : Log → Question → List Clause → Prop}
  {s : State} {held : List Clause} {last : Option Term} {ses : Session (Recorded ω) τ}

/-- Every question so far was proper. -/
def AskedProperly (P : Log → Question → List Clause → Prop) (ses : Session (Recorded ω) τ) :
    Prop :=
  ses.oracle.asked.Proper P

/-- Every question so far was proper, the oracle holds these assumptions, and the feasibility of
this condition was asked for last. -/
structure Holding (stack : ω → List Clause) (P : Log → Question → List Clause → Prop)
    (held : List Clause) (last : Option Term) (ses : Session (Recorded ω) τ) : Prop where
  proper : AskedProperly P ses
  held : stack ses.oracle.inner = held
  last : ses.oracle.asked.lastCondition? = last

namespace Engine

variable (hkeeps : e.oracle.KeepsStack stack)

include hkeeps

theorem sync_holding (h : AskedProperly P ses) :
    ((e.recording stack).sync s).Meets ses
      (fun _ ses' => Holding stack P s.pathCondition.clauses ses.oracle.asked.lastCondition? ses' ∧
        ses'.oracle.asked = ses.oracle.asked)
      fun _ ses' => AskedProperly P ses' := by
  rw [meets_sync]
  refine (Recorded.meets_within _).2 ?_
  refine (hkeeps.set s.pathCondition.clauses ses.oracle.inner).mono (fun _ w hw => ?_)
    fun _ _ _ => h
  exact ⟨⟨h, hw, rfl⟩, rfl⟩

theorem push_holding (c : Clause) (h : Holding stack P held last ses) :
    (Session.consult ((e.recording stack).oracle.push c)).Meets ses
      (fun _ ses' => Holding stack P (held ++ [c]) last ses')
      fun _ ses' => AskedProperly P ses' := by
  rw [Session.meets_consult]
  refine (Recorded.meets_within _).2 ?_
  refine (hkeeps.push c ses.oracle.inner).mono (fun _ w hw => ?_) fun _ _ _ => h.proper
  exact ⟨h.proper, hw.trans (by rw [h.held]), h.last⟩

theorem query_holding (q : Query) (h : Holding stack P held last ses)
    (hq : P ses.oracle.asked (.query q) held) :
    ((e.recording stack).query q).Meets ses
      (fun _ ses' => AskedProperly P ses' ∧ stack ses'.oracle.inner = held ∧
        ses'.oracle.asked = (.query q, held) :: ses.oracle.asked)
      fun _ ses' => AskedProperly P ses' := by
  refine meets_query (fun _ => h.proper) ?_
  change Meets (Recorded.note stack (.query q) >>= fun _ => Recorded.within (e.oracle.ask q)) _ _ _
  rw [meets_bind, Recorded.meets_note, Recorded.meets_within, h.held]
  have hproper : Log.Proper P ((.query q, held) :: ses.oracle.asked) := ⟨hq, h.proper⟩
  refine (hkeeps.ask q ses.oracle.inner).mono (fun v w hw => ?_) fun _ _ _ => hproper
  exact ⟨hproper, hw.trans h.held, rfl⟩

/-- Queries about references leave it open which condition was asked for last. -/
theorem query_reference_holding {q : Query} {r : RefSymbol} (hr : q.reference? = some r)
    (h : Holding stack P held last ses) (hq : P ses.oracle.asked (.query q) held) :
    ((e.recording stack).query q).Meets ses (fun _ ses' => Holding stack P held last ses')
      fun _ ses' => AskedProperly P ses' := by
  refine (query_holding hkeeps q h hq).mono (fun _ ses' ⟨hproper, hheld, hasked⟩ => ?_)
    fun _ _ hp => hp
  refine ⟨hproper, hheld, ?_⟩
  rw [hasked, ← h.last]
  cases q <;> first | rfl | cases hr

omit hkeeps in
theorem simplify_proper (t : Term) (h : AskedProperly P ses)
    (ht : P ses.oracle.asked (.simplify t) (stack ses.oracle.inner)) :
    (Session.consult ((e.recording stack).oracle.simplify t)).Meets ses
      (fun _ ses' => AskedProperly P ses' ∧
        ses'.oracle.asked = (.simplify t, stack ses.oracle.inner) :: ses.oracle.asked)
      fun _ ses' => AskedProperly P ses' ∧
        ses'.oracle.asked = (.simplify t, stack ses.oracle.inner) :: ses.oracle.asked := by
  have hproper : Log.Proper P ((.simplify t, stack ses.oracle.inner) :: ses.oracle.asked) := ⟨ht, h⟩
  rw [Session.meets_consult]
  change Meets
    (Recorded.note stack (.simplify t) >>= fun _ => Recorded.within (e.oracle.simplify t)) _ _ _
  rw [meets_bind, Recorded.meets_note, Recorded.meets_within]
  exact meets_iff.2 ⟨fun _ _ _ => ⟨hproper, rfl⟩, fun _ _ _ => ⟨hproper, rfl⟩⟩

end Engine

end Services

end SymbolicMachine
