import SymbolicMachine.Proofs.Acts.Values
import SymbolicMachine.Proofs.Path.Extension
/-!
# Origins of symbols

Symbols are told apart by their number alone, so everything rests on no number being given out
twice.  In every state that an exploration gets to, the symbols that occur have numbers below the
next one, and two occurrences with one number are the same symbol.  Their origins are true: a
symbol that hangs off a reference is younger than the reference, which was expanded to an input
object, and the symbol of a field or of a length is what that object has there.
-/
namespace SymbolicMachine

open SymbolicMachine.Action

variable {ω τ : Type}

namespace State

/-- The symbols that occur in a state, but for those in the conditions that it assumes. -/
def atoms (s : State) : List Atom := s.values.flatMap Value.atoms

/-- The symbols in the conditions that a state assumes. -/
def assumedAtoms (s : State) : List Atom := s.assumedValues.flatMap Value.atoms

/-- A reference is resolved by a clause that expands it to an input object. -/
structure Expanded (s : State) (r : RefSymbol) (a : Nat) (o : HeapObject) : Prop where
  clause : ∃ className, .expands r a className ∈ s.pathCondition.clauses ∧
    s.resolution? r = some (.expands r a className)
  input : s.initialHeap.get a = .ok o

/-- The known symbols have different numbers below the next one, and their origins are true. -/
structure Accounts (s : State) (known : Atom → Prop) : Prop where
  below : ∀ {x}, known x → x.id < s.nextSymbol
  distinct : ∀ {x y}, known x → known y → x.id = y.id → x = y
  /-- A symbol comes after the reference that it hangs off. -/
  older : ∀ {x c}, known x → x.origin.container? = some c → c.id < x.id
  /-- The input object that the reference was expanded to has the symbol where its origin says. -/
  expanded : ∀ {x c}, known x → x.origin.container? = some c → ∃ a o, s.Expanded c a o ∧
    (∀ name, x.origin = .field c name → o.getField name = .ok x.value) ∧
    (x.origin = .length c → ∃ b, o = .array b ∧ x.value = .primitive b.length)

variable {s t : State} {known known' : Atom → Prop}

theorem Accounts.restrict (h : s.Accounts known') (hle : ∀ x, known x → known' x) :
    s.Accounts known where
  below hx := h.below (hle _ hx)
  distinct hx hy := h.distinct (hle _ hx) (hle _ hy)
  older hx := h.older (hle _ hx)
  expanded hx := h.expanded (hle _ hx)

/-- Every object of the current heap that was made for a reference is at the address that the
reference was expanded to. -/
def Anchored (s : State) : Prop :=
  ∀ a o r, s.heap.get a = .ok o → o.origin = some r → ∃ p, s.Expanded r a p

end State

/-- A term comes out of its simplification without symbols that neither it nor the assumptions
have. -/
def Oracle.InventsNoSymbols (o : Oracle ω) : Prop :=
  ∀ clauses condition simpler w w' w'', (o.set clauses).run w = (.ok (), w') →
    (o.simplify condition).run w' = (.ok simpler, w'') →
      simpler.SpeaksOf fun x =>
        x ∈ condition.atoms ∨ ∃ c ∈ clauses, ∃ v ∈ c.values, x ∈ v.atoms

/-- An oracle that gives every term back as it is invents no symbols. -/
theorem Oracle.inventsNoSymbols_of_pure {o : Oracle ω} (h : ∀ t, o.simplify t = pure t) :
    o.InventsNoSymbols := by
  intro clauses condition simpler w w' w'' _ hrun x hx
  rw [h condition] at hrun
  cases hrun
  exact .inl hx

namespace Engine

variable {e : Engine ω τ} {known known' : Atom → Prop} {s t : State} {hand hand' : List Value}

/-! ## Expanded references -/

theorem Act.resolution {r : RefSymbol} {c : Clause} (hact : Act e s hand t hand')
    (hr : s.resolution? r = some c) : t.resolution? r = some c := by
  cases hact with
  | take _ | make _ | widen _ _ | apply _ => exact hr
  | drop _ _ | push _ _ _ | jump _ _ | enter _ _ | place _ _ => exact hr
  | namePrimitive _ | nameReference _ | skip _ => exact hr
  | allocate _ | record _ _ _ _ | throw _ => exact hr
  | assume _ _ hp | isNull _ hp | aliases _ _ _ hp | expands _ _ _ _ hp | initialized _ _ hp =>
    exact State.resolution?_of_push hp hr

theorem Act.expanded {r : RefSymbol} {a : Nat} {o : HeapObject} (hact : Act e s hand t hand')
    (hs : s.Separate) (h : s.Expanded r a o) : t.Expanded r a o := by
  have hextends := hact.extendedBy hs
  obtain ⟨className, hclause, hresolution⟩ := h.clause
  exact ⟨⟨className, hextends.clauses.subset hclause, hact.resolution hresolution⟩,
    hextends.inputs h.input⟩

theorem expanded_self {r : RefSymbol} {className : String} {object : HeapObject} {n : Nat}
    {p : PathCondition} (hp : s.pathCondition.push (.expands r s.heap.next className) = .ok p) :
    (((s.withSymbols n).withInput object).withPath p).Expanded r s.heap.next object := by
  refine ⟨⟨className, ?_, PathCondition.resolution?_of_push_self hp rfl⟩,
    Heap.get_insertAt_self _ _ _⟩
  change _ ∈ p.clauses
  rw [PathCondition.clauses_of_push hp]
  exact List.mem_append_right _ List.mem_cons_self

/-- An object with an origin was there before, or it is the one that an expansion has put there. -/
theorem Act.anchored (hact : Act e s hand t hand') (hs : s.Separate) (h : s.Anchored) :
    t.Anchored := by
  -- What happened to other objects leaves them where they were.
  have hkeep : ∀ a o r, s.heap.get a = .ok o → o.origin = some r → ∃ p, t.Expanded r a p := by
    intro a o r ho hr
    obtain ⟨p, hp⟩ := h a o r ho hr
    exact ⟨p, hact.expanded hs hp⟩
  cases hact with
  | take _ | make _ | widen _ _ | apply _ => exact hkeep
  | drop _ _ | push _ _ _ | jump _ _ | enter _ _ | place _ _ => exact hkeep
  | namePrimitive _ | nameReference _ | skip _ => exact hkeep
  | assume _ _ _ | isNull _ _ | aliases _ _ _ _ | initialized _ _ _ => exact hkeep
  | allocate hobject =>
    intro a o r ho hr
    rcases State.get_insertAt_cases ho with ⟨-, rfl⟩ | ho
    · cases hobject <;> cases hr
    · exact hkeep a o r ho hr
  | throw className =>
    intro a o r ho hr
    rcases State.get_insertAt_cases ho with ⟨-, rfl⟩ | ho
    · cases hr
    · exact hkeep a o r ho hr
  | record _ _ _ hset =>
    obtain ⟨b, hb, heq⟩ := bind_eq_ok.1 hset
    cases heq
    intro a o r ho hr
    rcases State.get_insertAt_cases ho with ⟨rfl, rfl⟩ | ho
    · exact hkeep a _ r (Heap.getArray_eq_ok.1 hb) hr
    · exact hkeep a o r ho hr
  | expands _ _ _ hobject hp =>
    intro a o r ho hr
    rcases State.get_insertAt_cases ho with ⟨rfl, rfl⟩ | ho
    · cases hobject.origin_eq.symm.trans hr
      exact ⟨o, expanded_self hp⟩
    · exact hkeep a o r ho hr

/-! ## States that account for their symbols -/

/-- A state accounts for the known symbols, and there are no others in it and in hand. -/
structure Accounted (known : Atom → Prop) (s : State) (hand : List Value) : Prop where
  accounts : s.Accounts known
  values : s.MadeOf (Value.SpeaksOf known) hand
  anchored : s.Anchored
  separate : s.Separate

theorem accounted_root : Accounted (fun _ => False) .root [] where
  accounts := ⟨nofun, nofun, nofun, nofun⟩
  values := State.madeOf_iff.2 ⟨nofun, nofun⟩
  anchored := nofun
  separate := State.separate_root

namespace Accounted

theorem toState (h : Accounted known s hand) : Accounted known s [] :=
  { h with values := h.values.toState }

theorem known_reference (h : Accounted known s hand) {r : RefSymbol}
    (hr : .reference (.symbolic r) ∈ hand) : known (.reference r) :=
  h.values.hand _ hr _ List.mem_cons_self

/-- The container of a new symbol was known, and is expanded to an input object, which the symbol
fills unless it is a member. -/
theorem container_cases (h : Accounted known s hand) (hact : Act e s hand t hand') {x : Atom}
    {c : RefSymbol} (hx : Creates s hand t hand' x) (hc : x.origin.container? = some c) :
    known (.reference c) ∧ ∃ a o, t.Expanded c a o ∧
      (o.Fills c x ∨ ∃ index, x.origin = .member c index) := by
  cases hx with
  | named _ horigin _ _ =>
    generalize x.origin = origin at horigin hc
    cases horigin with
    | root _ => cases hc
    | @member address _ _ index ha hcontainer _ =>
      cases hc
      obtain ⟨o, ho⟩ := h.anchored _ _ _ ha hcontainer
      exact ⟨h.values.origin ha hcontainer _ List.mem_cons_self, address, o,
        hact.expanded h.separate ho, .inr ⟨index, rfl⟩⟩
  | filled hr _ hx hp ht _ =>
    cases hx.container_eq.symm.trans hc
    subst ht
    exact ⟨h.known_reference hr, _, _, expanded_self hp, .inl hx⟩

/-- A state accounts for what an act has created as well. -/
theorem accounts_created (h : Accounted known s hand) (hact : Act e s hand t hand') :
    t.Accounts fun x => known x ∨ Creates s hand t hand' x where
  below := by
    rintro x (hx | hx)
    · exact Nat.lt_of_lt_of_le (h.accounts.below hx) (hact.extendedBy h.separate).symbols
    · exact hx.id_range.2
  distinct := by
    -- A number of a known symbol is below those that the act gives out.
    have hapart : ∀ {x y : Atom}, known x → Creates s hand t hand' y → x.id ≠ y.id :=
      fun hx hy => Nat.ne_of_lt (Nat.lt_of_lt_of_le (h.accounts.below hx) hy.id_range.1)
    rintro x y (hx | hx) (hy | hy) heq
    · exact h.accounts.distinct hx hy heq
    · exact absurd heq (hapart hx hy)
    · exact absurd heq.symm (hapart hy hx)
    · exact hx.eq_of_id_eq hy heq
  older := by
    rintro x c (hx | hx) hc
    · exact h.accounts.older hx hc
    · have hknown := (h.container_cases hact hx hc).1
      exact Nat.lt_of_lt_of_le (h.accounts.below hknown) hx.id_range.1
  expanded := by
    rintro x c (hx | hx) hc
    · obtain ⟨a, o, ho, hholds⟩ := h.accounts.expanded hx hc
      exact ⟨a, o, hact.expanded h.separate ho, hholds⟩
    · obtain ⟨-, a, o, ho, hfills | ⟨index, hmember⟩⟩ := h.container_cases hact hx hc
      · refine ⟨a, o, ho, ?_⟩
        cases hfills with
        | field horigin hfield =>
          rw [horigin]
          refine ⟨?_, nofun⟩
          rintro name ⟨⟩
          exact hfield
        | length horigin ha hlength =>
          rw [horigin]
          exact ⟨nofun, fun _ => ⟨_, ha, hlength⟩⟩
      · refine ⟨a, o, ho, ?_⟩
        rw [hmember]
        exact ⟨nofun, nofun⟩

end Accounted

theorem Act.accounted (hact : Act e s hand t hand') (h : Accounted known s hand) :
    Accounted (fun x => known x ∨ Creates s hand t hand' x) t hand' where
  accounts := h.accounts_created hact
  values := by
    refine hact.madeOf (h.values.mono fun v hv x hx => .inl (hv x hx)) ?_ ?_
    · exact fun v hv x hx => .inl (hv.speaksOf h.values.hand x hx)
    · intro x hx
      unfold Value.SpeaksOf
      rw [Atom.atoms_value, List.forall_mem_cons]
      exact ⟨.inr hx, fun y hy => .inl (hx.origin_known h.values y hy)⟩
  anchored := hact.anchored h.separate h.anchored
  separate := (hact.extendedBy h.separate).separate h.separate

/-- What an act assumes speaks of known symbols, if the oracle invents none. -/
theorem Act.assumed_speaksOf (hact : Act e s hand t hand') (hsimplify : e.oracle.InventsNoSymbols)
    (h : Accounted known s hand) (hs : ∀ v ∈ s.assumedValues, v.SpeaksOf known) :
    ∀ v ∈ t.assumedValues, v.SpeaksOf known := by
  refine hact.forall_assumed hs fun condition hcondition => ?_
  refine Value.speaksOf_primitive.2 (hcondition.speaksOf h.values ?_)
  intro condition simpler w w' w'' hset hrun hspeaks x hx
  rcases hsimplify _ _ _ _ _ _ hset hrun x hx with hx | ⟨c, hc, v, hv, hx⟩
  · exact hspeaks x hx
  · exact h.values.clauses hs c hc v hv x hx

/-! ## Explorations -/

/-- Some symbols are known for which the state accounts, and among them are those in the assumed
conditions if the oracle invents none. -/
def AccountedFor (e : Engine ω τ) (s : State) (hand : List Value) : Prop :=
  ∃ known, Accounted known s hand ∧
    (e.oracle.InventsNoSymbols → ∀ v ∈ s.assumedValues, v.SpeaksOf known)

theorem Act.accountedFor (h : e.AccountedFor s hand) (hact : Act e s hand t hand') :
    e.AccountedFor t hand' := by
  obtain ⟨known, h, hassumed⟩ := h
  refine ⟨_, hact.accounted h, fun hsimplify v hv x hx => .inl ?_⟩
  exact hact.assumed_speaksOf hsimplify h (hassumed hsimplify) v hv x hx

theorem AccountedFor.toState (h : e.AccountedFor s hand) : e.AccountedFor s [] := by
  obtain ⟨known, h, hassumed⟩ := h
  exact ⟨known, h.toState, hassumed⟩

theorem accountedFor_initialState {method : MethodSignature} {isStatic : Bool} {code : List UInt8}
    {maxLocals maxStack : Nat} {table : List LocalVariable}
    (h : e.initialState method isStatic code maxLocals table maxStack = .ok s) :
    e.AccountedFor s [] := by
  obtain ⟨hand, hacts⟩ := initialState_acts h
  have hroot : e.AccountedFor .root [] := ⟨_, accounted_root, fun _ => nofun⟩
  exact (hacts.keeps (P := fun s hand => e.AccountedFor s hand) Act.accountedFor hroot).toState

theorem Descends.accountedFor (htriggers : e.triggers = .absent τ)
    (h : e.Descends (· = ·) s t) (hs : e.AccountedFor s []) : e.AccountedFor t [] := by
  refine h.keepsInHand htriggers (P := fun s hand => e.AccountedFor s hand) Act.accountedFor
    AccountedFor.toState ?_ hs
  rintro s _ hs rfl
  exact hs

theorem AccountedFor.accounts (h : e.AccountedFor s []) :
    s.Accounts (· ∈ s.atoms) ∧ (e.oracle.InventsNoSymbols →
      s.Accounts fun x => x ∈ s.atoms ∨ x ∈ s.assumedAtoms) := by
  obtain ⟨known, h, hassumed⟩ := h
  have hatoms : ∀ x ∈ s.atoms, known x :=
    List.forall_mem_flatMap.2 (State.madeOf_iff.1 h.values).1
  refine ⟨h.accounts.restrict hatoms, fun hsimplify => h.accounts.restrict ?_⟩
  rintro x (hx | hx)
  · exact hatoms x hx
  · exact List.forall_mem_flatMap.2 (hassumed hsimplify) x hx

/-- Every state that calls give back, from the root of an exploration on, accounts for the symbols
that occur in it, those in the conditions that it assumes included if the oracle invents none.  Its
counters are words, and so the numbers of all these symbols are. -/
theorem symbols_are_accounted_for (htriggers : e.triggers = .absent τ)
    {method : MethodSignature} {isStatic : Bool} {code : List UInt8} {maxLocals maxStack : Nat}
    {table : List LocalVariable}
    (hroot : e.callInitial method isStatic code maxLocals table maxStack = .ok s)
    (h : e.GivesBack (· = ·) s t) :
    t.InRange ∧ t.Accounts (· ∈ t.atoms) ∧ (e.oracle.InventsNoSymbols →
      t.Accounts fun x => x ∈ t.atoms ∨ x ∈ t.assumedAtoms) := by
  obtain ⟨hinitial, hrange⟩ := initialState_of_callInitial hroot
  refine ⟨h.inRange hrange fun hs heq => heq ▸ hs, ?_⟩
  exact (h.descends.accountedFor htriggers (accountedFor_initialState hinitial)).accounts

/-- The start of a method that takes an array and an index. -/
def memberInputs : State :=
  (State.root.withSymbols 2).pushFrame
    (.create ⟨"Main", "run", "([II)V"⟩ [0, 0, 0, 0]
      ⟨[some (.reference (.symbolic ⟨0, "[I", .root "arg0"⟩)),
        some (.primitive (.symbol ⟨1, .int, .root "arg1"⟩))], []⟩ 4)

theorem initialState_memberInputs :
    (permissive .initial).initialState ⟨"Main", "run", "([II)V"⟩ true [0, 0, 0, 0] 2 [] 4 =
      .ok memberInputs := by
  have hparameters : Descriptor.parameterTypes "([II)V" = .ok ["[I", "I"] := by cbv
  simp only [initialState, createInputs, hparameters]
  rfl

theorem callInitial_memberInputs :
    (permissive .initial).callInitial ⟨"Main", "run", "([II)V"⟩ true [0, 0, 0, 0] 2 [] 4 =
      .ok memberInputs := by
  rw [callInitial, initialState_memberInputs]
  rfl

/-- After a member of the array was read at the index, the member hangs off the array and speaks of
the index, and the length of the array is in what is assumed. -/
theorem member_that_was_read_is_accounted_for :
    let e := permissive .initial
    let described := fun x : Atom => (x.id, x.origin.text)
    ∃ t, e.GivesBack (· = ·) memberInputs t ∧
      (3, "\x7bROOT\x7d:arg0[\x7bV1\x7d]") ∈ t.atoms.map described ∧
      (2, "\x7bROOT\x7d:arg0.length") ∈ t.assumedAtoms.map described ∧
      t.InRange ∧ t.Accounts fun x => x ∈ t.atoms ∨ x ∈ t.assumedAtoms := by
  intro e described
  let choices := [(Instruction.loadLocal 0 1, 1), (.loadLocal 1 1, 0), (.arrayLoad, 0)]
  have hthere : ((e.follow (.start [] ()) choices memberInputs).any fun t =>
      (3, "\x7bROOT\x7d:arg0[\x7bV1\x7d]") ∈ t.atoms.map described ∧
        (2, "\x7bROOT\x7d:arg0.length") ∈ t.assumedAtoms.map described) = true := by
    decide +kernel
  obtain ⟨t, hback, hmember, hlength⟩ := exists_givesBack hthere
  obtain ⟨hrange, -, haccounts⟩ :=
    symbols_are_accounted_for (e := e) rfl callInitial_memberInputs hback
  exact ⟨t, hback, hmember, hlength, hrange,
    haccounts (Oracle.inventsNoSymbols_of_pure fun _ => rfl)⟩

end Engine

end SymbolicMachine
