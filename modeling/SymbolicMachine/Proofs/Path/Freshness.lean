import SymbolicMachine.Proofs.Acts.Values
import SymbolicMachine.Proofs.Path.Extension
import SymbolicMachine.Proofs.Terms.Names
/-!
# Names along a path

A name that a state has and an earlier state of the path had not is one that the earlier state had
not handed out.  So no number of a symbol and no address is used a second time on a path.  Only
in a condition that an oracle has simplified other names could come up, if the oracle made them up.
-/
namespace SymbolicMachine

open SymbolicMachine.Action

variable {ω τ : Type}

/-! ## The names in a state -/

def Clause.names : Clause → List Name
  | .assume t => t.names
  | .expands r a _ => .address a :: r.names
  | .aliases r a => .address a :: r.names
  | .isNull r => r.names
  | .initialized _ => []
  | .notInitialized _ => []

def HeapObject.names : HeapObject → List Name
  | .object i => i.origin.toList.flatMap RefSymbol.names ++ i.fields.values.flatMap Value.names
  | .array a => a.origin.toList.flatMap RefSymbol.names ++ a.length.names ++
      a.entries.flatMap fun entry => entry.index.names ++ entry.value.names

def Heap.names (h : Heap) : List Name := h.toList.flatMap fun b => .address b.1 :: b.2.names

def Frame.names (f : Frame) : List Name :=
  f.operands.operands.flatMap Value.names ++
    (f.locals.slots.filterMap id).flatMap Value.names

def Ending.names : Ending → List Name
  | .returned result => result.toList.flatMap Value.names
  | .threw exception => (Value.reference exception).names

namespace State

/-- The names in a state, but for those in the conditions that it assumes. -/
def names (s : State) : List Name :=
  s.frames.flatMap Frame.names ++ s.heap.names ++ s.initialHeap.names ++
    (s.pathCondition.clauses.filter fun c => c.reference?.isSome).flatMap Clause.names ++
    s.ending.toList.flatMap Ending.names

/-- The names in the conditions that a state assumes. -/
def assumedNames (s : State) : List Name :=
  (s.pathCondition.clauses.filter fun c => c.reference?.isNone).flatMap Clause.names

/-- A name that the state has not handed out. -/
def Unused (s : State) : Name → Prop
  | .symbol id => s.nextSymbol ≤ id
  | .address a => s.heap.next ≤ a

end State

/-- A term comes out of its simplification without names that neither it nor the assumptions
have. -/
def Oracle.SimplifiesWithin (o : Oracle ω) : Prop :=
  ∀ clauses condition simpler w w' w'', (o.set clauses).run w = (.ok (), w') →
    (o.simplify condition).run w' = (.ok simpler, w'') →
      Known (fun n => n ∈ condition.names ∨ ∃ c ∈ clauses, n ∈ c.names) simpler.names

/-- An oracle that gives every term back as it is brings in no names. -/
theorem Oracle.simplifiesWithin_of_pure {o : Oracle ω} (h : ∀ t, o.simplify t = pure t) :
    o.SimplifiesWithin := by
  intro clauses condition simpler w w' w'' _ hrun n hn
  rw [h condition] at hrun
  cases hrun
  exact .inl hn

section Components

variable {known : Name → Prop}

theorem HeapObject.known_names_iff {o : HeapObject} :
    Known known o.names ↔ ∀ v ∈ o.values, Known known v.names := by
  have horigin : ∀ {origin : Option RefSymbol},
      Known known (origin.toList.flatMap RefSymbol.names) ↔
        ∀ v ∈ origin.toList.map fun r => Value.reference (.symbolic r),
          Known known v.names := by
    intro origin
    rw [known_flatMap, List.forall_mem_map]
    rfl
  cases o with
  | object i =>
    simp only [names, values, known_append, known_flatMap, horigin, List.forall_mem_append]
  | array a =>
    simp only [names, values, known_append, known_flatMap, horigin, List.forall_mem_append,
      List.forall_mem_cons, List.forall_mem_flatMap, List.not_mem_nil, false_imp_iff, implies_true,
      and_true, and_assoc]
    rfl

theorem Heap.known_names_iff {h : Heap} :
    Known known h.names ↔ ∀ v ∈ h.values, Known known v.names := by
  simp only [names, values, known_flatMap, known_cons, List.forall_mem_flatMap,
    List.forall_mem_cons, HeapObject.known_names_iff, Value.names, known_nil, and_true]

theorem Frame.known_names_iff {f : Frame} :
    Known known f.names ↔ ∀ v ∈ f.values, Known known v.names := by
  simp only [names, values, known_append, known_flatMap, List.forall_mem_append]

theorem Clause.known_names_iff {c : Clause} :
    Known known c.names ↔ ∀ v ∈ c.values, Known known v.names := by
  cases c <;> simp [names, values, Value.names, and_comm]

theorem Ending.known_names_iff {x : Ending} :
    Known known x.names ↔ ∀ v ∈ x.values, Known known v.names := by
  cases x with
  | returned result => simp only [names, values, known_flatMap]
  | threw exception => simp only [names, values, List.forall_mem_singleton]

theorem State.known_assumedNames_iff {s : State} :
    Known known s.assumedNames ↔ ∀ v ∈ s.assumedValues, Known known v.names := by
  simp only [assumedNames, assumedValues, known_flatMap, List.forall_mem_flatMap,
    Clause.known_names_iff]

end Components

/-! ## Acts -/

namespace State

theorem Unused.of_le {s t : State} {n : Name} (hn : t.Unused n)
    (hsymbols : s.nextSymbol ≤ t.nextSymbol) (hheap : s.heap.next ≤ t.heap.next) : s.Unused n := by
  cases n with
  | symbol id => exact Nat.le_trans hsymbols hn
  | address a => exact Nat.le_trans hheap hn

end State

namespace Engine

/-- Every name in a state and in a hand is known, and so is every name that is not handed out. -/
structure Traced (known : Name → Prop) (s : State) (hand : List Value) : Prop where
  frames : ∀ f ∈ s.frames, Known known f.names
  heap : Known known s.heap.names
  inputs : Known known s.initialHeap.names
  targets : ∀ c ∈ s.pathCondition.clauses, c.reference?.isSome = true → Known known c.names
  ending : ∀ x, s.ending = some x → Known known x.names
  hand : ∀ v ∈ hand, Known known v.names
  unused : ∀ n, s.Unused n → known n

variable {e : Engine ω τ} {known : Name → Prop} {s t : State} {hand hand' : List Value}

namespace Traced

theorem names_iff : Traced known s [] ↔ Known known s.names ∧ ∀ n, s.Unused n → known n := by
  simp only [State.names, known_append, known_flatMap, List.mem_filter, and_imp,
    Option.mem_toList]
  constructor
  · intro h
    exact ⟨⟨⟨⟨⟨h.frames, h.heap⟩, h.inputs⟩, h.targets⟩, h.ending⟩, h.unused⟩
  · rintro ⟨⟨⟨⟨⟨hframes, hheap⟩, hinputs⟩, htargets⟩, hending⟩, hunused⟩
    exact ⟨hframes, hheap, hinputs, htargets, hending, List.forall_mem_nil _, hunused⟩

/-- A traced state is made of values with known names. -/
theorem iff_madeOf : Traced known s hand ↔
    s.MadeOf (fun v => Known known v.names) hand ∧ ∀ n, s.Unused n → known n := by
  constructor
  · intro h
    exact ⟨⟨fun f hf => Frame.known_names_iff.1 (h.frames f hf), Heap.known_names_iff.1 h.heap,
      Heap.known_names_iff.1 h.inputs, fun c hc hr => Clause.known_names_iff.1 (h.targets c hc hr),
      fun x hx => Ending.known_names_iff.1 (h.ending x hx), h.hand⟩, h.unused⟩
  · rintro ⟨h, hunused⟩
    exact ⟨fun f hf => Frame.known_names_iff.2 (h.frames f hf), Heap.known_names_iff.2 h.heap,
      Heap.known_names_iff.2 h.inputs, fun c hc hr => Clause.known_names_iff.2 (h.targets c hc hr),
      fun x hx => Ending.known_names_iff.2 (h.ending x hx), h.hand, hunused⟩

theorem toState (h : Traced known s hand) : Traced known s [] := { h with hand := nofun }

theorem speaksOf (h : Traced known s hand) :
    s.MadeOf (Value.SpeaksOf fun x => known x.name) hand :=
  (iff_madeOf.1 h).1.mono fun _ hv => (Value.known_names_iff.1 hv).1

theorem made (h : Traced known s hand) {v : Value} (hv : Makes s hand v) :
    Known known v.names := by
  refine Value.known_names_iff.2 ⟨hv.speaksOf h.speaksOf.hand, ?_⟩
  rintro a rfl
  cases hv with
  | plain hv => cases hv
  | @widened w _ hw hwiden =>
    cases w with
    | primitive t =>
      obtain ⟨u, -, heq⟩ := map_eq_ok.1 hwiden
      cases heq
    | reference r =>
      cases hwiden
      exact (Value.known_names_iff.1 (h.hand _ hw)).2 a rfl
  | address => exact h.unused _ (Nat.le_refl s.heap.next)

theorem created (h : Traced known s hand) {x : Atom} (hx : Creates s hand t hand' x) :
    Known known x.value.names := by
  refine Value.known_names_iff.2 ⟨?_, ?_⟩
  · unfold Value.SpeaksOf
    rw [Atom.atoms_value, List.forall_mem_cons]
    exact ⟨h.unused _ hx.id_range.1, hx.origin_known h.speaksOf⟩
  · intro a ha
    cases x <;> cases ha

end Traced

/-- What is unused after an act was unused before it. -/
theorem Act.unused {n : Name} (hact : Act e s hand t hand') (hn : t.Unused n) : s.Unused n := by
  have hnext : ∀ object, s.heap.next ≤ (s.heap.allocate object).2.next :=
    fun object => (s.heap.extendedBy_allocate object).next
  cases hact with
  | take _ | make _ | widen _ _ | apply _ => exact hn
  | drop _ _ | push _ _ _ | jump _ _ | enter _ _ | place _ _ => exact hn
  | assume _ _ _ | isNull _ _ | aliases _ _ _ _ | initialized _ _ _ => exact hn
  | namePrimitive _ | nameReference _ => exact hn.of_le (Nat.le_succ _) (Nat.le_refl _)
  | skip hle => exact hn.of_le hle (Nat.le_refl _)
  | allocate _ | throw _ => exact hn.of_le (Nat.le_refl _) (hnext _)
  | record _ _ _ hset => exact hn.of_le (Nat.le_refl _) (Heap.extendedBy_arraySet hset).next
  | expands _ _ _ hobject _ => exact hn.of_le hobject.le (hnext _)

/-- What an act adds to a state or takes in hand was known, or was not handed out before. -/
theorem Act.traced (h : Traced known s hand) (hact : Act e s hand t hand') :
    Traced known t hand' := by
  refine Traced.iff_madeOf.2 ⟨?_, fun n hn => h.unused n (hact.unused hn)⟩
  exact hact.madeOf (Traced.iff_madeOf.1 h).1 (fun v hv => h.made hv) fun x hx => h.created hx

/-! ## Assumed conditions -/

/-- What an act assumes speaks of known names only, if the simplifications of the oracle bring in no
others. -/
theorem Act.traced_assumed (hsimplify : e.oracle.SimplifiesWithin) (h : Traced known s hand)
    (hs : Known known s.assumedNames) (hact : Act e s hand t hand') :
    Known known t.assumedNames := by
  have hassumed := State.known_assumedNames_iff.1 hs
  refine State.known_assumedNames_iff.2 (hact.forall_assumed hassumed fun condition h' => ?_)
  refine Term.known_names_iff.2 (h'.speaksOf h.speaksOf ?_)
  intro condition simpler w w' w'' hset hrun hspeaks
  refine Term.known_names_iff.1 fun n hn => ?_
  rcases hsimplify _ _ _ _ _ _ hset hrun n hn with hn | ⟨c, hc, hn⟩
  · exact Term.known_names_iff.2 hspeaks n hn
  · exact Clause.known_names_iff.2 ((Traced.iff_madeOf.1 h).1.clauses hassumed c hc) n hn

/-! ## Runs -/

theorem Descends.traced (htriggers : e.triggers = .absent τ) (h : e.Descends (· = ·) s t)
    (hs : Traced known s []) : Traced known t [] := by
  refine h.keepsInHand htriggers (P := Traced known) Act.traced Traced.toState ?_ hs
  rintro s _ hs rfl
  exact hs

theorem Descends.traced_assumed (htriggers : e.triggers = .absent τ)
    (hsimplify : e.oracle.SimplifiesWithin) (h : e.Descends (· = ·) s t) (hs : Traced known s [])
    (hassumed : Known known s.assumedNames) : Known known t.assumedNames := by
  -- What is assumed comes from what is in hand, so that both go through the acts together.
  have hboth : Traced known t [] ∧ Known known t.assumedNames := by
    refine h.keepsInHand htriggers
      (P := fun s hand => Traced known s hand ∧ Known known s.assumedNames) ?_ ?_ ?_ ⟨hs, hassumed⟩
    · rintro s hand t hand' ⟨h, hs⟩ hact
      exact ⟨hact.traced h, hact.traced_assumed hsimplify h hs⟩
    · rintro s hand ⟨h, hs⟩
      exact ⟨h.toState, hs⟩
    · rintro s _ hs rfl
      exact hs
  exact hboth.2

/-- A path only grows.  From a state that was made by operations, calls of operations and of steps
that come back lead to states that extend it, whose counters are words.  Steps bring in names only
that the state had not handed out. -/
theorem paths_only_grow (htriggers : e.triggers = .absent τ) (hs : s.Built) :
    (∀ t, e.GivesBack State.Operates s t → s.ExtendedBy t ∧ t.InRange) ∧
      ∀ t, e.GivesBack (· = ·) s t →
        (∀ n ∈ t.names, n ∈ s.names ∨ s.Unused n) ∧
          (e.oracle.SimplifiesWithin →
            ∀ n ∈ t.assumedNames, (n ∈ s.names ∨ n ∈ s.assumedNames) ∨ s.Unused n) := by
  refine ⟨fun t h => ⟨h.descends.extendedBy htriggers hs.separate, ?_⟩,
    fun t h => ⟨?_, fun hsimplify => ?_⟩⟩
  · exact h.inRange hs.inRange fun _ hop => hop.inRange
  · have htraced : Traced (fun n => n ∈ s.names ∨ s.Unused n) s [] :=
      Traced.names_iff.2 ⟨fun n hn => .inl hn, fun n hn => .inr hn⟩
    exact (Traced.names_iff.1 (h.descends.traced htriggers htraced)).1
  · have htraced : Traced (fun n => (n ∈ s.names ∨ n ∈ s.assumedNames) ∨ s.Unused n) s [] :=
      Traced.names_iff.2 ⟨fun n hn => .inl (.inl hn), fun n hn => .inr hn⟩
    exact h.descends.traced_assumed htriggers hsimplify htraced fun n hn => .inl (.inr hn)

theorem built_arrayRoot : arrayRoot.Built := by
  have hsymbol : State.Operates .root (State.root.withSymbols 1) :=
    .call (.createReference "[I" (.root "arg0")) rfl nofun
  exact (State.Built.root.operate hsymbol).operate (.call (.pushFrame _) rfl nofun)

/-- An input array that was loaded has a new address and a new symbol for its length, which is
assumed not to be negative. -/
theorem loaded_array_has_new_names :
    let e := permissive .initial
    ∃ t, e.GivesBack (· = ·) arrayRoot t ∧
      (.address 1 ∈ t.names ∧ .symbol 1 ∈ t.names ∧ .symbol 1 ∈ t.assumedNames) ∧
      (arrayRoot.ExtendedBy t ∧ t.InRange) ∧
      (∀ n ∈ t.names, n ∈ arrayRoot.names ∨ arrayRoot.Unused n) ∧
      ∀ n ∈ t.assumedNames,
        (n ∈ arrayRoot.names ∨ n ∈ arrayRoot.assumedNames) ∨ arrayRoot.Unused n := by
  intro e
  have hrun : (e.call (.loadLocal 0 1) arrayRoot).run (.start [] ()) = _ := rfl
  have hgrow := paths_only_grow (e := e) rfl built_arrayRoot
  have hcalls : e.GivesBack (· = ·) arrayRoot _ := .call .refl hrun (.tail _ (.head _))
  have hextends := hgrow.1 _ (.call .refl hrun (.tail _ (.head _)))
  obtain ⟨hnames, hassumed⟩ := hgrow.2 _ hcalls
  exact ⟨_, hcalls, by decide, hextends, hnames,
    hassumed (Oracle.simplifiesWithin_of_pure fun _ => rfl)⟩

end Engine

end SymbolicMachine
